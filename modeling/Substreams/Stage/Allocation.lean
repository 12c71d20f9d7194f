import Substreams.Stage.Progress

set_option autoImplicit false

/-! # Rows before reads

`NextJob` reads the matrix only after the grow step at the top of its loop: one
`growSegments` when the row of the segment it is at is not allocated, which doubles the
matrix, or makes two rows of an empty one. Along the walk that is enough: each pass moves one
row down, and one grow always covers the next row. At the first pass it is not: the walk
starts at the segmenter's first index, and `NewStages` leaves no rows, so a first index two
or more segments past `segmentOffset` is read in a matrix of two rows, and `NextJob` panics
with an index out of range (`nextJob_panics_of_gap`).

A first index at most one past the offset is covered, and then no call of `NextJob` on any
run panics, as long as the segmenter's `Range` does not (`nextJob_in_bounds`;
`nextJob_in_bounds_iff` puts the two together): every read of `GetState`,
`dependenciesCompleted` and `markSegmentScheduled` is in range. An index out of range is the
only way the model of these functions fails, so a call that returns has read and written
inside the matrix. With the stages starting in order, such a call also makes progress
whenever a unit could still run (`nextJob_progress`).

The doubling never runs away: on every run the matrix has at most twice as many rows as the
segments the walk covers, from the offset to one past the last index
(`Stages.Reachable.segmentStates_length_le`).
-/

namespace Substreams.Stage

open Substreams.Block

namespace Stages

/-! ## Reading in range -/

/-- The stages' segmenters start no earlier than the matrix's offset. -/
def StagesFromOffset (s : Stages) : Prop :=
  ∀ j f : Nat, s.stageFirstIndex[j]? = some f → s.segmentOffset ≤ f

variable {s : Stages} (hw : s.RowsWide)

include hw

theorem setState_ok {segment stage : Nat} (hoff : s.segmentOffset ≤ segment)
    (hrow : segment - s.segmentOffset < s.segmentStates.length) (hst : stage < s.stageCount)
    (x : UnitState) : ∃ s', s.setState ⟨segment, stage⟩ x = .ok s' := by
  obtain ⟨states, hstates, hlen⟩ := goIndex_row_ok hw hoff hrow
  have hcell : goIndex states stage = .ok states[stage] :=
    goIndex_natCast.mpr (List.getElem?_eq_getElem (hlen ▸ hst))
  exact ⟨_, bind_eq_ok.mpr ⟨states, hstates, bind_eq_ok.mpr ⟨_, hcell, rfl⟩⟩⟩

theorem lowerStagesCompleted_ok {segment : Nat} (hoff : s.segmentOffset ≤ segment)
    (hrow : segment - s.segmentOffset < s.segmentStates.length) :
    ∀ {i : Nat}, i ≤ s.stageCount → ∃ b, s.lowerStagesCompleted segment i = .ok b
  | 0, _ => ⟨true, rfl⟩
  | i + 1, hi => by
      obtain ⟨x, hx⟩ := getState_ok hw hoff hrow (Nat.lt_of_succ_le hi)
      rw [lowerStagesCompleted, hx, ok_bind]
      split
      · exact ⟨false, rfl⟩
      · exact lowerStagesCompleted_ok hoff hrow (Nat.le_of_succ_le hi)

/-- `dependenciesCompleted` reads the segment before, past its stage's first segment only,
so a readable segment is enough when the stages start at or after the offset. -/
theorem dependenciesCompleted_ok (hf : s.StagesFromOffset) (u : Unit)
    (hst : u.stage < s.stageCount)
    (hrow : u.segment - s.segmentOffset < s.segmentStates.length) :
    ∃ b, s.dependenciesCompleted u = .ok b := by
  have hfirst : s.stageFirstIndex[u.stage]? = some s.stageFirstIndex[u.stage] :=
    List.getElem?_eq_getElem hst
  have hlow := hf _ _ hfirst
  rw [dependenciesCompleted, goIndex_natCast.mpr hfirst, ok_bind]
  split
  · exact ⟨true, rfl⟩
  · split
    · exact ⟨true, rfl⟩
    · exact lowerStagesCompleted_ok hw (by omega) (by omega) hst.le

/-- **The loop over the stages reads in range** when its segment's row is allocated. -/
theorem pickStage_ok (hf : s.StagesFromOffset) {segment : Nat}
    (hoff : s.segmentOffset ≤ segment)
    (hrow : segment - s.segmentOffset < s.segmentStates.length) :
    ∀ {i : Nat}, i ≤ s.stageCount → ∃ o, s.pickStage segment i = .ok o
  | 0, _ => ⟨none, rfl⟩
  | i + 1, hi => by
      have hst : i < s.stageCount := Nat.lt_of_succ_le hi
      have ih := pickStage_ok hf hoff hrow (Nat.le_of_succ_le hi)
      obtain ⟨x, hx⟩ := getState_ok hw hoff hrow hst
      rw [pickStage, hx, ok_bind]
      split
      · exact ih
      rw [goIndex_natCast.mpr (List.getElem?_eq_getElem hst), ok_bind]
      split
      · exact ih
      obtain ⟨b, hb⟩ := dependenciesCompleted_ok hw hf ⟨segment, i⟩ hst hrow
      rw [hb, ok_bind]
      split
      · exact ih
      obtain ⟨s', hs'⟩ := setState_ok hw hoff hrow hst .scheduled
      rw [markSegmentScheduled, hs', ok_bind]
      exact ⟨_, rfl⟩

omit hw

/-! ## The grow step -/

variable (s)

theorem growBy_pos : 0 < s.growBy := by
  unfold growBy
  split <;> omega

/-- One grow covers the rows up to `len + growBy`. -/
theorem growFor_length_gt {segment : Nat} (hoff : s.segmentOffset ≤ segment)
    (hroom : segment - s.segmentOffset < s.segmentStates.length + s.growBy) :
    segment - s.segmentOffset < (s.growFor segment).segmentStates.length := by
  unfold growFor
  rw [row_eq s hoff]
  split
  · simpa [growSegments] using hroom
  · omega

variable {s}

/-- The rows one grow leaves never shrink as the matrix grows. -/
theorem length_add_growBy_mono {s s' : Stages}
    (h : s.segmentStates.length ≤ s'.segmentStates.length) :
    s.segmentStates.length + s.growBy ≤ s'.segmentStates.length + s'.growBy := by
  unfold growBy
  split <;> split <;> omega

/-- **The loop over the segments reads in range** from a segment one grow covers: each pass
that goes on leaves the next segment covered by the next grow. -/
theorem nextJobFrom_ok : ∀ (fuel segment : Nat) (s : Stages), s.RowsWide → s.StagesFromOffset →
    s.segmentOffset ≤ segment → segment - s.segmentOffset < s.segmentStates.length + s.growBy →
    ∃ r, Stages.nextJobFrom fuel segment s = .ok r
  | 0, _, _, _, _, _, _ => ⟨_, rfl⟩
  | fuel + 1, segment, s, hw, hf, hoff, hroom => by
      have hrow := growFor_length_gt s hoff hroom
      obtain ⟨m, hg⟩ := s.growFor_eq segment
      rw [hg] at hrow
      have hw' := rowsWide_grown hw m
      simp only [Stages.nextJobFrom, hg]
      split
      · exact ⟨_, rfl⟩
      obtain ⟨o, ho⟩ := pickStage_ok hw' hf hoff hrow (le_refl _)
      rw [ho, ok_bind]
      cases o with
      | some p => exact ⟨_, rfl⟩
      | none =>
          have := growBy_pos (s.grown m)
          exact nextJobFrom_ok fuel (segment + 1) (s.grown m) hw' hf
            (show s.segmentOffset ≤ segment + 1 by omega)
            (show segment + 1 - s.segmentOffset < _ by omega)

end Stages

open Stages

/-! ## `NextJob` -/

/-- The first row `NextJob` reads is covered by its first grow. -/
def Stages.Allocated (s : Stages) : Prop :=
  s.segmentOffset ≤ s.firstIndex ∧
    s.firstIndex - s.segmentOffset < s.segmentStates.length + s.growBy

theorem nextJob_ok (range : Nat → Except Panic (Option BlockRange)) {s : Stages} (hw : s.RowsWide)
    (hf : s.StagesFromOffset) (ha : s.Allocated)
    (hrange : ∀ k ≤ s.lastIndex, ∃ r, range k = .ok r) : ∃ r, s.nextJob range = .ok r := by
  obtain ⟨⟨s', o⟩, h⟩ := nextJobFrom_ok _ s.firstIndex s hw hf ha.1 ha.2
  rw [nextJob, h, ok_bind]
  cases o with
  | none => exact ⟨_, rfl⟩
  | some u =>
      obtain ⟨-, -, -, hlast, -⟩ := nextJobFrom_spec _ _ s s' (some u) (by omega) h
      obtain ⟨r, hr⟩ := hrange u.segment hlast
      exact ⟨_, by dsimp only; rw [hr]; rfl⟩

theorem setState_length {s s' : Stages} {u : Unit} {x : UnitState}
    (h : s.setState u x = .ok s') : s'.segmentStates.length = s.segmentStates.length := by
  obtain ⟨_, -, -, rfl⟩ := setState_eq h
  exact List.length_set _ _ _

/-- A step never removes a row. -/
theorem Stages.Step.length_le {range : Nat → Except Panic (Option BlockRange)} {s s' : Stages}
    (h : Step range s s') : s.segmentStates.length ≤ s'.segmentStates.length := by
  cases h with
  | nextJob h =>
      obtain ⟨m, ⟨-, -, -, -, -, -, -, hm, -⟩ | ⟨-, rfl, -, -⟩⟩ := nextJob_spec range h
      · rw [setState_length hm]
        simp [grown]
      · simp [grown]
  | transition t =>
      cases t with
      | partialPresent _ h | merging _ h | completed _ _ h => exact (setState_length h).ge

theorem Stages.Reachable.length_le {range : Nat → Except Panic (Option BlockRange)} {s₀ s : Stages}
    (h : Reachable range s₀ s) : s₀.segmentStates.length ≤ s.segmentStates.length := by
  induction h with
  | start => exact le_rfl
  | step _ hstep ih => exact ih.trans hstep.length_le

/-- **Every run keeps the first row covered**, once it is covered at the start, and the
stages from the offset. -/
theorem Stages.Reachable.allocated {range : Nat → Except Panic (Option BlockRange)} {s₀ s : Stages}
    (h : Reachable range s₀ s) (hw : s₀.RowsWide) (hf : s₀.StagesFromOffset)
    (ha : s₀.Allocated) : s.StagesFromOffset ∧ s.Allocated := by
  have hshape := (h.sameShape_rowsWide hw).1
  have hfi : s.firstIndex = s₀.firstIndex := by rw [hshape]
  have hoff : s.segmentOffset = s₀.segmentOffset := by rw [hshape]
  have hsfi : s.stageFirstIndex = s₀.stageFirstIndex := by rw [hshape]
  rw [StagesFromOffset, Allocated, hfi, hoff, hsfi]
  exact ⟨hf, ha.1, ha.2.trans_le (length_add_growBy_mono h.length_le)⟩

/-- **`NextJob` stays inside the matrix when the segmenter starts at most one segment past
the offset.** On every run from what `NewStages` builds, when the segmenter's first index and
every stage's first index are at or after the offset, the first index is at most one past it,
and the segmenter's `Range` does not panic within its indices, no call of `NextJob` panics:
each returns, having read and written in range. -/
theorem nextJob_in_bounds {range : Nat → Except Panic (Option BlockRange)}
    {firstIndex lastIndex segmentOffset : Nat} {firstIndexAt : Nat → Nat}
    {mods : List StagedModules} {storeConfigs : Option (List String)} {s₀ s : Stages}
    (hnew : newStages firstIndex lastIndex segmentOffset firstIndexAt mods storeConfigs = .ok s₀)
    (hoff : segmentOffset ≤ firstIndex)
    (hstages : ∀ j f : Nat, s₀.stageFirstIndex[j]? = some f → segmentOffset ≤ f)
    (hgap : firstIndex ≤ segmentOffset + 1) (hrange : ∀ k ≤ lastIndex, ∃ r, range k = .ok r)
    (hr : Reachable range s₀ s) : ∃ r, s.nextJob range = .ok r := by
  obtain ⟨l, rfl⟩ := newStages_eq hnew
  have hw : RowsWide ⟨firstIndex, lastIndex, l, [], segmentOffset⟩ := fun _ h => nomatch h
  obtain ⟨hshape, hw'⟩ := hr.sameShape_rowsWide hw
  obtain ⟨hf, ha⟩ := hr.allocated hw hstages
    ⟨hoff, show firstIndex - segmentOffset < 0 + 2 by omega⟩
  exact nextJob_ok range hw' hf ha fun k hk => hrange k (by rwa [hshape.lastIndex_eq] at hk)

/-! ## A first index two past the offset -/

theorem goIndex_of_length_le {α : Type} {l : List α} {i : Int} (hi : 0 ≤ i)
    (hlen : l.length ≤ i.toNat) : goIndex l i = .error (.indexOutOfRange i l.length) := by
  rw [goIndex, if_pos hi, List.getElem?_eq_none hlen]

/-- **One grow does not reach a first index two past the offset.** From what `NewStages`
builds, with a stage and a segmenter range that is not empty, a first index two or more
segments past the offset makes the first call of `NextJob` read row
`FirstIndex - segmentOffset` of the two rows its grow has made: it panics. -/
theorem nextJob_panics_of_gap (range : Nat → Except Panic (Option BlockRange))
    {firstIndex lastIndex segmentOffset : Nat} {firstIndexAt : Nat → Nat}
    {mods : List StagedModules} {storeConfigs : Option (List String)} {s₀ : Stages}
    (hnew : newStages firstIndex lastIndex segmentOffset firstIndexAt mods storeConfigs = .ok s₀)
    (hstage : 0 < s₀.stageCount) (hgap : segmentOffset + 2 ≤ firstIndex)
    (hlast : firstIndex ≤ lastIndex) :
    s₀.nextJob range =
      .error (.indexOutOfRange ((firstIndex - segmentOffset : Nat) : Int) 2) := by
  obtain ⟨l, rfl⟩ := newStages_eq hnew
  obtain ⟨k, hk⟩ : ∃ k, l.length = k + 1 :=
    ⟨l.length - 1, by simp only [stageCount] at hstage; omega⟩
  set s₀ : Stages := ⟨firstIndex, lastIndex, l, [], segmentOffset⟩
  have hrow : s₀.row firstIndex = ((firstIndex - segmentOffset : Nat) : Int) :=
    row_eq s₀ (show segmentOffset ≤ firstIndex by omega)
  -- the grow at the top of the loop makes two rows
  have hgrow : s₀.growFor firstIndex = s₀.growSegments := by
    rw [growFor, if_pos (by rw [hrow]; exact Int.ofNat_nonneg _)]
  have hlen : s₀.growSegments.segmentStates.length = 2 := rfl
  -- and the first read, of the highest stage, is past them
  have hget : s₀.growSegments.getState ⟨firstIndex, k⟩ =
      .error (.indexOutOfRange ((firstIndex - segmentOffset : Nat) : Int) 2) := by
    show (goIndex _ (s₀.row firstIndex) >>= _) = _
    rw [hrow, goIndex_of_length_le (Int.ofNat_nonneg _) (by rw [hlen]; simp; omega), hlen,
      error_bind]
    rfl
  have hcount : s₀.growSegments.stageCount = k + 1 := hk
  rw [nextJob, show lastIndex - firstIndex + 2 = (lastIndex - firstIndex + 1) + 1 from rfl]
  simp only [nextJobFrom, hgrow]
  rw [if_neg (by show ¬ firstIndex > lastIndex; omega), hcount, pickStage, hget, error_bind,
    error_bind, error_bind]

/-- **Exactly when `NextJob` stays inside the matrix.** From what `NewStages` builds, with a
stage, a segmenter range that is not empty, and every first index at or after the offset: no
call of `NextJob` on any run panics if and only if the segmenter's first index is at most one
segment past the offset. -/
theorem nextJob_in_bounds_iff {range : Nat → Except Panic (Option BlockRange)}
    {firstIndex lastIndex segmentOffset : Nat} {firstIndexAt : Nat → Nat}
    {mods : List StagedModules} {storeConfigs : Option (List String)} {s₀ : Stages}
    (hnew : newStages firstIndex lastIndex segmentOffset firstIndexAt mods storeConfigs = .ok s₀)
    (hoff : segmentOffset ≤ firstIndex)
    (hstages : ∀ j f : Nat, s₀.stageFirstIndex[j]? = some f → segmentOffset ≤ f)
    (hstage : 0 < s₀.stageCount) (hlast : firstIndex ≤ lastIndex)
    (hrange : ∀ k ≤ lastIndex, ∃ r, range k = .ok r) :
    (∀ s, Reachable range s₀ s → ∃ r, s.nextJob range = .ok r) ↔
      firstIndex ≤ segmentOffset + 1 := by
  refine ⟨fun h => ?_, fun hgap s hr => nextJob_in_bounds hnew hoff hstages hgap hrange hr⟩
  by_contra hgap
  obtain ⟨r, hr⟩ := h s₀ .start
  rw [nextJob_panics_of_gap range hnew hstage (by omega) hlast] at hr
  cases hr

/-- One store stage from block `0` under a segmenter whose first index is `1`, one segment
past the offset: no run panics. -/
theorem nextJob_in_bounds_one_past :
    let range : Nat → Except Panic (Option BlockRange) := fun k => .ok (some ⟨k * 10, k * 10 + 10⟩)
    newStages 1 3 0 (· / 10) [⟨.store, [⟨"a", 0⟩]⟩] none = .ok ⟨1, 3, [0], [], 0⟩ ∧
      ((∀ s, Reachable range ⟨1, 3, [0], [], 0⟩ s → ∃ r, s.nextJob range = .ok r) ↔ 1 ≤ 0 + 1) :=
  ⟨by decide, @nextJob_in_bounds_iff _ 1 3 0 (· / 10) [⟨.store, [⟨"a", 0⟩]⟩] none _
    (by decide) (Nat.zero_le 1) (fun _ _ _ => Nat.zero_le _) (by decide) (by decide)
    fun _ _ => ⟨_, rfl⟩⟩

/-- Two store stages whose modules start at block `0`, under a segmenter of interval `10`
whose first index is `2` (a request from block `20`): `NewStages` puts the offset at segment
`0`, at or before every first index, and the first `NextJob` grows the empty matrix to two
rows and reads row `2`. -/
theorem nextJob_reads_unallocated_row :
    newStages 2 3 0 (· / 10) [⟨.store, [⟨"a", 0⟩]⟩, ⟨.store, [⟨"b", 0⟩]⟩] none = .ok ⟨2, 3, [0, 0], [], 0⟩ ∧
      ∀ range : Nat → Except Panic (Option BlockRange),
        (⟨2, 3, [0, 0], [], 0⟩ : Stages).nextJob range = .error (.indexOutOfRange 2 2) :=
  ⟨by decide, fun range => @nextJob_panics_of_gap range 2 3 0 (· / 10)
    [⟨.store, [⟨"a", 0⟩]⟩, ⟨.store, [⟨"b", 0⟩]⟩] none _ (by decide) (by decide) (by decide) (by decide)⟩

/-! ## Progress -/

/-- A run from a state with no rows whose `NextJob` panics never leaves it: there is no unit
to move. -/
theorem Stages.Reachable.eq_of_stuck {range : Nat → Except Panic (Option BlockRange)}
    {s₀ s : Stages} (h : Reachable range s₀ s) (hnil : s₀.segmentStates = [])
    (hp : ∀ r, s₀.nextJob range ≠ .ok r) : s = s₀ := by
  have hread : ∀ {u : Unit} {x : UnitState}, s₀.getState u ≠ .ok x := fun hx => by
    obtain ⟨row, hrow, -⟩ := getState_mem hx
    rw [hnil] at hrow
    cases hrow
  induction h with
  | start => rfl
  | step _ hstep ih =>
      rw [ih] at hstep
      cases hstep with
      | nextJob h => exact absurd h (hp _)
      | transition t =>
          cases t with
          | partialPresent hget _ | merging hget _ | completed hget _ _ => exact absurd hget hread

/-- **Progress when the stages start in order.** On every run from what `NewStages` builds,
when no stage starts after a higher one, nor before the segmenter's first index, the matrix's
offset is not past that index, and the segmenter's `Range` does not panic within its indices:
in a state with nothing in flight and a pending unit that a stage could run (its segment
within the segmenter's indices, not before its stage's first segment), `NextJob` returns,
and not with `Unit{}`: it schedules a unit within the segmenter's indices and returns that
segment's range. A first index two or more past the offset leaves no such state: the first
`NextJob` panics, and no run leaves the empty matrix. -/
theorem nextJob_progress {range : Nat → Except Panic (Option BlockRange)}
    {firstIndex lastIndex segmentOffset : Nat} {firstIndexAt : Nat → Nat}
    {mods : List StagedModules} {storeConfigs : Option (List String)} {s₀ s : Stages}
    (hnew : newStages firstIndex lastIndex segmentOffset firstIndexAt mods storeConfigs = .ok s₀)
    (hmono : ∀ i j fi fj : Nat, i < j → s₀.stageFirstIndex[i]? = some fi →
      s₀.stageFirstIndex[j]? = some fj → fi ≤ fj)
    (hlow : ∀ j fj : Nat, s₀.stageFirstIndex[j]? = some fj → firstIndex ≤ fj)
    (hoff : segmentOffset ≤ firstIndex) (hrange : ∀ k ≤ lastIndex, ∃ r, range k = .ok r)
    (hr : Reachable range s₀ s) (hq : s.Quiescent)
    {u : Unit} {f : Nat} (hlast : u.segment ≤ lastIndex) (hf : s.stageFirstIndex[u.stage]? = some f)
    (hfu : f ≤ u.segment) (hpend : s.getState u = .ok .pending) :
    ∃ s' u' r, s.nextJob range = .ok (s', u', r) ∧ firstIndex ≤ u'.segment ∧
      u'.segment ≤ lastIndex ∧ s'.getState u' = .ok .scheduled ∧ range u'.segment = .ok r := by
  obtain ⟨stageFirstIndex, rfl⟩ := newStages_eq hnew
  obtain ⟨hshape, hw⟩ := hr.sameShape_rowsWide fun _ h => nomatch h
  rw [SameShape] at hshape
  have hfirst : s.firstIndex = firstIndex := by rw [hshape]
  have hlastI : s.lastIndex = lastIndex := by rw [hshape]
  have hsfi : s.stageFirstIndex = stageFirstIndex := by rw [hshape]
  have hoffs : s.segmentOffset = segmentOffset := by rw [hshape]
  have hfu' := hlow u.stage f (hsfi ▸ hf)
  obtain ⟨⟨s', u', r⟩, h⟩ : ∃ p, s.nextJob range = .ok p := by
    by_cases hgap : firstIndex ≤ segmentOffset + 1
    · exact nextJob_in_bounds hnew hoff (fun j f hj => hoff.trans (hlow j f hj)) hgap hrange hr
    · have hstage : u.stage < stageFirstIndex.length := hsfi ▸ (List.getElem?_eq_some_iff.mp hf).1
      have hs := hr.eq_of_stuck rfl fun _ h => by
        rw [nextJob_panics_of_gap range hnew (Nat.zero_lt_of_lt hstage) (by omega) (by omega)] at h
        cases h
      obtain ⟨row, hrow, -⟩ := getState_mem (hs ▸ hpend)
      cases hrow
  obtain ⟨v, hv1, -, hv2, hv3, hqv⟩ := exists_qualifies hq hw (hsfi ▸ hmono) (hfirst ▸ hsfi ▸ hlow)
    (hfirst ▸ hoffs ▸ hoff) u.segment u.stage f (hlastI ▸ hlast) hf hfu hpend
  obtain ⟨m, ⟨-, h1, h2, -, -, h3, -, -, h4⟩ | ⟨hnone, -⟩⟩ := nextJob_spec range h
  · exact ⟨s', u', r, h, hfirst ▸ h1, hlastI ▸ h2, h3, h4⟩
  · exact absurd (hqv.grown m) (hnone v hv1 hv2 hv3)

/-- One stage over segments `0` and `1`: once unit `(0, 0)` has been merged, nothing is in
flight, and `NextJob` schedules unit `(1, 0)` with its range. -/
theorem nextJob_progress_after_merge :
    let range : Nat → Except Panic (Option BlockRange) := fun k => .ok (some ⟨k * 10, k * 10 + 10⟩)
    let s : Stages := ⟨0, 1, [0], [[.completed], [.pending]], 0⟩
    Stages.Reachable range ⟨0, 1, [0], [], 0⟩ s ∧ s.Quiescent ∧
      s.nextJob range = .ok (⟨0, 1, [0], [[.completed], [.scheduled]], 0⟩, ⟨1, 0⟩, some ⟨10, 20⟩) ∧
      ∃ s' u' r, s.nextJob range = .ok (s', u', r) ∧ 0 ≤ u'.segment ∧ u'.segment ≤ 1 ∧
        s'.getState u' = .ok .scheduled ∧ range u'.segment = .ok r := by
  intro range s
  have hr : Stages.Reachable range ⟨0, 1, [0], [], 0⟩ s :=
    .step (.step (.step (.step .start
      (@Stages.Step.nextJob range _ ⟨0, 1, [0], [[.scheduled], [.pending]], 0⟩ ⟨0, 0⟩
        (some ⟨0, 10⟩) (by decide)))
      (.transition (@Stages.Transition.partialPresent _
        ⟨0, 1, [0], [[.partialPresent], [.pending]], 0⟩ ⟨0, 0⟩ (by decide) (by decide))))
      (.transition (@Stages.Transition.merging _
        ⟨0, 1, [0], [[.merging], [.pending]], 0⟩ ⟨0, 0⟩ (by decide) (by decide))))
      (.transition (@Stages.Transition.completed _ s ⟨0, 0⟩ (by decide) (Or.inl rfl) (by decide)))
  have hq : s.Quiescent := by decide
  have hmono : ∀ i j fi fj : Nat, i < j → [0][i]? = some fi → [0][j]? = some fj → fi ≤ fj
    | _, 0, _, _, hij, _, _ => absurd hij (Nat.not_lt_zero _)
    | _, _ + 1, _, _, _, _, hj => nomatch hj
  exact ⟨hr, hq, by decide, @nextJob_progress range 0 1 0 (· / 10) [⟨.store, [⟨"a", 0⟩]⟩] none _ s
    (by decide) hmono (fun _ _ _ => Nat.zero_le _) le_rfl (fun _ _ => ⟨_, rfl⟩) hr hq ⟨1, 0⟩ 0
    le_rfl (by decide) (Nat.zero_le 1) (by decide)⟩

/-! ## How many rows -/

namespace Stages

/-- The last segment `NextJob`'s walk reaches: one past the last index, where it grows and
stops, or the first index when that lies beyond. -/
def walkEnd (s : Stages) : Nat := max s.firstIndex (s.lastIndex + 1)

/-- A grow at a segment up to `w` doubles a matrix of at most `w - offset` rows, or makes two
rows of an empty one: it stays within `max 2 (2 (w - offset))` rows. -/
theorem growFor_length_le {s : Stages} {segment w : Nat} (hseg : segment ≤ w)
    (hlen : s.segmentStates.length ≤ max 2 (2 * (w - s.segmentOffset))) :
    (s.growFor segment).segmentStates.length ≤ max 2 (2 * (w - s.segmentOffset)) := by
  unfold growFor
  split
  · rename_i hgrow
    simp only [row] at hgrow
    simp only [growSegments, growBy, List.length_append, List.length_replicate]
    split <;> omega
  · exact hlen

/-- The loop over the segments, from a segment up to `w` with `w` past the last index, keeps
the matrix within `max 2 (2 (w - offset))` rows. -/
theorem nextJobFrom_length_le {w : Nat} :
    ∀ (fuel segment : Nat) (s : Stages) {s' : Stages} {o : Option Unit}, segment ≤ w →
      s.lastIndex + 1 ≤ w → s.segmentStates.length ≤ max 2 (2 * (w - s.segmentOffset)) →
      Stages.nextJobFrom fuel segment s = .ok (s', o) →
      s'.segmentStates.length ≤ max 2 (2 * (w - s.segmentOffset))
  | 0, _, _, _, _, _, _, hlen, h => by cases h; exact hlen
  | fuel + 1, segment, s, s', o, hseg, hlast, hlen, h => by
      have hg := growFor_length_le hseg hlen
      obtain ⟨m, hm⟩ := s.growFor_eq segment
      rw [hm] at hg
      simp only [Stages.nextJobFrom, hm] at h
      split at h
      · cases h; exact hg
      rename_i hle
      obtain ⟨o', ho, h⟩ := bind_eq_ok.mp h
      rcases o' with _ | ⟨s'', u⟩
      · have : segment ≤ s.lastIndex := Nat.le_of_not_lt hle
        exact nextJobFrom_length_le fuel (segment + 1) (s.grown m) (by omega) hlast hg h
      · cases h
        rwa [setState_length (pickStage_some ho).2.2.2.2]

theorem nextJob_length_le (range : Nat → Except Panic (Option BlockRange)) {s s' : Stages} {u : Unit}
    {r : Option BlockRange} (h : s.nextJob range = .ok (s', u, r))
    (hlen : s.segmentStates.length ≤ max 2 (2 * (s.walkEnd - s.segmentOffset))) :
    s'.segmentStates.length ≤ max 2 (2 * (s.walkEnd - s.segmentOffset)) := by
  obtain ⟨⟨s'', o⟩, hloop, h⟩ := bind_eq_ok.mp h
  have := nextJobFrom_length_le _ _ s (le_max_left _ _) (le_max_right _ _) hlen hloop
  cases o with
  | none => cases h; exact this
  | some u =>
      obtain ⟨_, -, h⟩ := bind_eq_ok.mp h
      cases h
      exact this

end Stages

open Stages

/-- **The matrix stays within twice the segments the walk covers.** On every run from what
`NewStages` builds, the matrix never has more than `max 2 (2 (w - segmentOffset))` rows, with
`w` the last segment `NextJob`'s walk reaches, one past the segmenter's last index: each grow
doubles a matrix no longer than the rows up to `w`. -/
theorem Stages.Reachable.segmentStates_length_le {range : Nat → Except Panic (Option BlockRange)}
    {firstIndex lastIndex segmentOffset : Nat} {firstIndexAt : Nat → Nat}
    {mods : List StagedModules} {storeConfigs : Option (List String)} {s₀ s : Stages}
    (hnew : newStages firstIndex lastIndex segmentOffset firstIndexAt mods storeConfigs = .ok s₀)
    (hr : Reachable range s₀ s) :
    s.segmentStates.length ≤ max 2 (2 * (max firstIndex (lastIndex + 1) - segmentOffset)) := by
  obtain ⟨l, rfl⟩ := newStages_eq hnew
  induction hr with
  | start => exact Nat.zero_le _
  | @step s₁ _ hr' hstep ih =>
      have hshape := hr'.sameShape
      rw [SameShape] at hshape
      have hwalk : s₁.walkEnd = max firstIndex (lastIndex + 1) := by rw [hshape]; rfl
      have hoffs : s₁.segmentOffset = segmentOffset := by rw [hshape]
      cases hstep with
      | nextJob h =>
          have := nextJob_length_le range h (by rw [hwalk, hoffs]; exact ih)
          rwa [hwalk, hoffs] at this
      | transition t =>
          cases t with
          | partialPresent _ hset | merging _ hset | completed _ _ hset =>
              rwa [setState_length hset]

/-- One store stage over segments `0` and `1`, from what `NewStages` builds: the first
`NextJob` makes two rows, within the bound of four. -/
theorem segmentStates_length_le_after_nextJob :
    newStages 0 1 0 (· / 10) [⟨.store, [⟨"a", 0⟩]⟩] none = .ok ⟨0, 1, [0], [], 0⟩ ∧
      Reachable (fun _ => .ok none) ⟨0, 1, [0], [], 0⟩ ⟨0, 1, [0], [[.scheduled], [.pending]], 0⟩ ∧
      ([[.scheduled], [.pending]] : List (List UnitState)).length ≤
        max 2 (2 * (max 0 (1 + 1) - 0)) := by
  have hnew : newStages 0 1 0 (· / 10) [⟨.store, [⟨"a", 0⟩]⟩] none = .ok ⟨0, 1, [0], [], 0⟩ := by decide
  have hr : Reachable (fun _ => .ok none) ⟨0, 1, [0], [], 0⟩ ⟨0, 1, [0], [[.scheduled], [.pending]], 0⟩ :=
    .step .start (@Step.nextJob (fun _ => .ok none) _ _ ⟨0, 0⟩ none (by decide))
  exact ⟨hnew, hr, Stages.Reachable.segmentStates_length_le hnew hr⟩

end Substreams.Stage
