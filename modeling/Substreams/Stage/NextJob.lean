import Substreams.Stage.Stages

set_option autoImplicit false

/-! # What `NextJob` picks

`NextJob` walks the units in one order, the segments upwards from the segmenter's first
index and the stages downwards within a segment, and schedules the first unit that
*qualifies*: pending, not before its stage's first segment, and with its dependencies
completed. `nextJob_spec` says so for every state on which `NextJob` returns, and says
what it changes: the rows `growSegments` appends, all pending and `len(stages)` wide
(`Stages.grown`), and the scheduled unit. From that, no run hands out a unit twice, and
along every run each unit's state only moves forward, one state per step
(`Stages.Reachable.rank_le`).

The proofs follow the code's loops. `pickStage_succ` inverts one pass of the loop over the
stages; every unit the walk passes over is *rejected* on what it reads (`Rejects`), and
since growing the matrix never changes an allocated cell, a rejection stays one however
the matrix grows later in the walk (`Rejects.grown`).
-/

namespace Substreams.Stage

open Substreams.Block

/-! ## Go indexing -/

theorem goIndex_eq_ok {α : Type} {l : List α} {i : Int} {a : α} :
    goIndex l i = .ok a ↔ 0 ≤ i ∧ l[i.toNat]? = some a := by
  unfold goIndex
  split
  · rename_i hi
    split <;> rename_i heq <;> simp [heq, hi]
  · simp_all

theorem goIndex_natCast {α : Type} {l : List α} {n : Nat} {a : α} :
    goIndex l n = .ok a ↔ l[n]? = some a := by
  rw [goIndex_eq_ok]
  exact ⟨fun h => by simpa using h.2, fun h => ⟨by omega, by simpa using h⟩⟩

/-- Appending never changes what an index in range reads. -/
theorem goIndex_append {α : Type} {l : List α} {i : Int} {a : α} (h : goIndex l i = .ok a)
    (l' : List α) : goIndex (l ++ l') i = .ok a := by
  rw [goIndex_eq_ok] at h ⊢
  exact ⟨h.1, by rw [List.getElem?_append_left (List.getElem?_eq_some_iff.mp h.2).1, h.2]⟩

/-- Writing at an index in range changes what that index reads, and nothing else. -/
theorem goIndex_set {α : Type} {l : List α} {i : Nat} {b : α} (hi : goIndex l i = .ok b)
    (a : α) (k : Int) : goIndex (l.set i a) k = if k = i then .ok a else goIndex l k := by
  have hlt := (List.getElem?_eq_some_iff.mp (goIndex_eq_ok.mp hi).2).1
  by_cases hk : k = i
  · subst hk
    rw [if_pos rfl, goIndex_eq_ok]
    exact ⟨by omega, by simpa using List.getElem?_set_self hlt⟩
  · rw [if_neg hk]
    unfold goIndex
    rw [List.length_set]
    split
    · rw [List.getElem?_set_ne (by omega)]
    · rfl

namespace Stages

variable (s : Stages)

/-! ## Growing the matrix -/

/-- `s` with `m` rows appended, all pending and `len(stages)` wide. -/
def grown (m : Nat) : Stages :=
  { s with segmentStates := s.segmentStates ++ List.replicate m (List.replicate s.stageCount .pending) }

@[simp] theorem grown_zero : s.grown 0 = s := by
  simp [grown]

theorem grown_grown (m m' : Nat) : (s.grown m).grown m' = s.grown (m + m') := by
  simp only [grown, stageCount, List.append_assoc, List.replicate_add]

theorem growFor_eq (segment : Nat) : ∃ m, s.growFor segment = s.grown m := by
  unfold growFor
  split
  · exact ⟨s.growBy, rfl⟩
  · exact ⟨0, (grown_zero s).symm⟩

variable {s}

theorem getState_grown {u : Unit} {x : UnitState} (h : s.getState u = .ok x) (m : Nat) :
    (s.grown m).getState u = .ok x := by
  obtain ⟨states, hrow, hcol⟩ := bind_eq_ok.mp h
  exact bind_eq_ok.mpr ⟨states, goIndex_append hrow _, hcol⟩

/-- A cell of the grown matrix is a cell of `s`, or one of the new pending ones. -/
theorem getState_of_grown {u : Unit} {x : UnitState} {m : Nat} (h : (s.grown m).getState u = .ok x) :
    s.getState u = .ok x ∨ x = .pending := by
  obtain ⟨states, hrow, hcol⟩ := bind_eq_ok.mp h
  obtain ⟨h0, hrow⟩ := goIndex_eq_ok.mp hrow
  change (s.segmentStates ++ _)[(s.row u.segment).toNat]? = some states at hrow
  by_cases hlt : (s.row u.segment).toNat < s.segmentStates.length
  · rw [List.getElem?_append_left hlt] at hrow
    exact .inl (bind_eq_ok.mpr ⟨states, goIndex_eq_ok.mpr ⟨h0, hrow⟩, hcol⟩)
  · rw [List.getElem?_append_right (by omega)] at hrow
    rw [List.eq_of_mem_replicate (List.getElem?_mem hrow)] at hcol
    exact .inr (List.eq_of_mem_replicate (List.getElem?_mem (goIndex_eq_ok.mp hcol).2))

theorem lowerStagesCompleted_grown {segment : Nat} {b : Bool} (m : Nat) :
    ∀ {i : Nat}, s.lowerStagesCompleted segment i = .ok b →
      (s.grown m).lowerStagesCompleted segment i = .ok b
  | 0, h => h
  | i + 1, h => by
      obtain ⟨x, hx, h⟩ := bind_eq_ok.mp h
      refine bind_eq_ok.mpr ⟨x, getState_grown hx m, ?_⟩
      split at h
      · rw [if_pos ‹_›]; exact h
      · rw [if_neg ‹_›]; exact lowerStagesCompleted_grown m h

theorem dependenciesCompleted_grown {u : Unit} {b : Bool} (h : s.dependenciesCompleted u = .ok b)
    (m : Nat) : (s.grown m).dependenciesCompleted u = .ok b := by
  obtain ⟨first, hfirst, h⟩ := bind_eq_ok.mp h
  refine bind_eq_ok.mpr ⟨first, hfirst, ?_⟩
  split at h
  · rw [if_pos ‹_›]; exact h
  · rw [if_neg ‹_›]
    split at h
    · rw [if_pos ‹_›]; exact h
    · rw [if_neg ‹_›]; exact lowerStagesCompleted_grown m h

/-! ## Writing a cell -/

theorem setState_eq {u : Unit} {x : UnitState} {s' : Stages} (h : s.setState u x = .ok s') :
    ∃ states, goIndex s.segmentStates (s.row u.segment) = .ok states ∧
      (∃ y, goIndex states u.stage = .ok y) ∧
      s' = { s with segmentStates :=
        (s.segmentStates.set (s.row u.segment).toNat (states.set u.stage x)) } := by
  obtain ⟨states, hrow, h⟩ := bind_eq_ok.mp h
  obtain ⟨y, hcol, h⟩ := bind_eq_ok.mp h
  exact ⟨states, hrow, ⟨y, hcol⟩, (Except.ok.inj h).symm⟩

theorem setState_stageFirstIndex {u : Unit} {x : UnitState} {s' : Stages}
    (h : s.setState u x = .ok s') : s'.stageFirstIndex = s.stageFirstIndex := by
  obtain ⟨_, -, -, rfl⟩ := setState_eq h
  rfl

/-- **`setState` writes one cell.** -/
theorem setState_getState {u : Unit} {x : UnitState} {s' : Stages} (h : s.setState u x = .ok s')
    (v : Unit) : s'.getState v = if v = u then .ok x else s.getState v := by
  obtain ⟨states, hrow, ⟨y, hcol⟩, rfl⟩ := setState_eq h
  have hrow0 : 0 ≤ s.row u.segment := (goIndex_eq_ok.mp hrow).1
  have hrow' : goIndex s.segmentStates ((s.row u.segment).toNat : Nat) = .ok states := by
    rwa [Int.toNat_of_nonneg hrow0]
  have hsame : s.row v.segment = ((s.row u.segment).toNat : Int) ↔ v.segment = u.segment := by
    rw [Int.toNat_of_nonneg hrow0]; simp only [row]; omega
  show (goIndex _ (s.row v.segment) >>= fun states => goIndex states v.stage) = _
  rw [goIndex_set hrow']
  by_cases hseg : v.segment = u.segment
  · have hv : s.getState v = goIndex states v.stage := by
      show (goIndex _ (s.row v.segment) >>= _) = _
      rw [hseg, hrow, ok_bind]
    rw [if_pos (hsame.mpr hseg), ok_bind, goIndex_set hcol, hv]
    by_cases hst : v.stage = u.stage
    · rw [if_pos (by rw [hst]), if_pos (by cases v; cases u; simp_all)]
    · rw [if_neg (by exact_mod_cast hst), if_neg (fun h => hst (by rw [h]))]
  · rw [if_neg (fun h => hseg (hsame.mp h)), if_neg (fun h => hseg (by rw [h]))]
    rfl

theorem setState_getState_self {u : Unit} {x : UnitState} {s' : Stages}
    (h : s.setState u x = .ok s') : s'.getState u = .ok x := by
  rw [setState_getState h, if_pos rfl]

/-! ## Qualifying units -/

variable (s)

/-- `NextJob` may schedule `u`: it is pending, not before its stage's first segment, and its
dependencies are completed. -/
def Qualifies (u : Unit) : Prop :=
  s.getState u = .ok .pending ∧
    (∃ first, goIndex s.stageFirstIndex u.stage = .ok first ∧ first ≤ u.segment) ∧
    s.dependenciesCompleted u = .ok true

/-- `NextJob` reads `u` and passes over it: not pending, or before its stage's first segment,
or with a dependency not completed. -/
def Rejects (u : Unit) : Prop :=
  ∃ state, s.getState u = .ok state ∧
    (state ≠ .pending ∨ ∃ first, goIndex s.stageFirstIndex u.stage = .ok first ∧
      (u.segment < first ∨ s.dependenciesCompleted u = .ok false))

variable {s}

theorem Rejects.not_qualifies {u : Unit} (h : s.Rejects u) : ¬ s.Qualifies u := by
  rintro ⟨hp, ⟨first, hf, hle⟩, hd⟩
  obtain ⟨state, hs, hr | ⟨first', hf', hr⟩⟩ := h
  · rw [hp] at hs
    exact hr (Except.ok.inj hs).symm
  · rw [hf] at hf'
    cases hf'
    rcases hr with hr | hr
    · omega
    · rw [hd] at hr
      cases hr

theorem Rejects.grown {u : Unit} (h : s.Rejects u) (m : Nat) : (s.grown m).Rejects u := by
  obtain ⟨state, hs, hr⟩ := h
  refine ⟨state, getState_grown hs m, ?_⟩
  rcases hr with hr | ⟨first, hf, hr | hr⟩
  · exact Or.inl hr
  · exact Or.inr ⟨first, hf, Or.inl hr⟩
  · exact Or.inr ⟨first, hf, Or.inr (dependenciesCompleted_grown hr m)⟩

/-! ## The loop over the stages -/

/-- **One pass of the loop over the stages**: unit `(segment, i)` is rejected and the loop
goes on below it, or it qualifies and is scheduled. -/
theorem pickStage_succ {segment i : Nat} {o : Option (Stages × Unit)}
    (h : s.pickStage segment (i + 1) = .ok o) :
    (s.Rejects ⟨segment, i⟩ ∧ s.pickStage segment i = .ok o) ∨
      (s.Qualifies ⟨segment, i⟩ ∧
        ∃ s', s.markSegmentScheduled ⟨segment, i⟩ = .ok s' ∧ o = some (s', ⟨segment, i⟩)) := by
  obtain ⟨state, hs, h⟩ := bind_eq_ok.mp h
  by_cases hp : state = .pending
  · subst hp
    rw [if_neg (fun h => h rfl)] at h
    obtain ⟨first, hf, h⟩ := bind_eq_ok.mp h
    by_cases hlt : segment < first
    · rw [if_pos hlt] at h
      exact Or.inl ⟨⟨.pending, hs, Or.inr ⟨first, hf, Or.inl hlt⟩⟩, h⟩
    rw [if_neg hlt] at h
    obtain ⟨ready, hd, h⟩ := bind_eq_ok.mp h
    cases ready
    · exact Or.inl ⟨⟨.pending, hs, Or.inr ⟨first, hf, Or.inr hd⟩⟩, h⟩
    · obtain ⟨s', hm, h⟩ := bind_eq_ok.mp h
      exact Or.inr ⟨⟨hs, ⟨first, hf, not_lt.mp hlt⟩, hd⟩, s', hm, (Except.ok.inj h).symm⟩
  · rw [if_pos hp] at h
    exact Or.inl ⟨⟨state, hs, Or.inl hp⟩, h⟩

/-- A loop over the stages that finds nothing has rejected every stage it read. -/
theorem pickStage_none {segment : Nat} :
    ∀ {i : Nat}, s.pickStage segment i = .ok none → ∀ j < i, s.Rejects ⟨segment, j⟩
  | 0, _, _, hj => absurd hj (Nat.not_lt_zero _)
  | i + 1, h, j, hj => by
      rcases pickStage_succ h with ⟨hr, h⟩ | ⟨-, _, -, hnone⟩
      · rcases Nat.lt_succ_iff_lt_or_eq.mp hj with hj | rfl
        · exact pickStage_none h j hj
        · exact hr
      · exact nomatch hnone

/-- A loop over the stages that schedules a unit has rejected the stages above it. -/
theorem pickStage_some {segment : Nat} {s' : Stages} {u : Unit} :
    ∀ {i : Nat}, s.pickStage segment i = .ok (some (s', u)) →
      u.segment = segment ∧ u.stage < i ∧ s.Qualifies u ∧
        (∀ j, u.stage < j → j < i → s.Rejects ⟨segment, j⟩) ∧ s.markSegmentScheduled u = .ok s'
  | 0, h => by cases h
  | i + 1, h => by
      rcases pickStage_succ h with ⟨hr, h⟩ | ⟨hq, s'', hm, h⟩
      · obtain ⟨hseg, hlt, hq, hrej, hm⟩ := pickStage_some h
        refine ⟨hseg, by omega, hq, fun j hj hji => ?_, hm⟩
        rcases Nat.lt_succ_iff_lt_or_eq.mp hji with hji | rfl
        · exact hrej j hj hji
        · exact hr
      · cases h
        exact ⟨rfl, Nat.lt_succ_self i, hq, fun j hj hji => absurd hji (by dsimp only at hj; omega), hm⟩

end Stages

/-- `v` comes before `u` in `NextJob`'s walk: in an earlier segment, or in the same segment
and a higher stage. -/
def Unit.Before (v u : Unit) : Prop :=
  v.segment < u.segment ∨ (v.segment = u.segment ∧ u.stage < v.stage)

open Stages

/-! ## The loop over the segments -/

/-- **The loop over the segments**, from `segment` on with enough passes left: it grows the
matrix by some pending rows, rejects every unit it passes over, and either schedules a
qualifying unit or, past the last index, stops with nothing. -/
theorem nextJobFrom_spec :
    ∀ (fuel segment : Nat) (s s' : Stages) (o : Option Unit),
      s.lastIndex + 2 ≤ fuel + segment → Stages.nextJobFrom fuel segment s = .ok (s', o) →
      ∃ m, (∀ v : Unit, segment ≤ v.segment → v.segment ≤ s.lastIndex →
          v.stage < s.stageCount → (∀ u ∈ o, v.Before u) → (s.grown m).Rejects v) ∧
        match o with
        | some u => segment ≤ u.segment ∧ u.segment ≤ s.lastIndex ∧ u.stage < s.stageCount ∧
            (s.grown m).Qualifies u ∧ (s.grown m).markSegmentScheduled u = .ok s'
        | none => s' = s.grown m
  | 0, segment, s, s', o, hfuel, h => by
      cases h
      exact ⟨0, fun v h1 h2 => by omega, (grown_zero s).symm⟩
  | fuel + 1, segment, s, s', o, hfuel, h => by
      obtain ⟨m₁, hg⟩ := s.growFor_eq segment
      simp only [Stages.nextJobFrom, hg] at h
      split at h
      · cases h
        exact ⟨m₁, fun v h1 h2 => by simp only [grown] at *; omega, rfl⟩
      obtain ⟨p, hp, h⟩ := bind_eq_ok.mp h
      cases p with
      | some p =>
          obtain ⟨s'', u⟩ := p
          cases h
          obtain ⟨hseg, hlt, hq, hrej, hm⟩ := pickStage_some hp
          refine ⟨m₁, fun ⟨vseg, vst⟩ h1 _ h3 hb => ?_, by omega, by simp only [grown] at *; omega,
            hlt, hq, hm⟩
          rcases hb u rfl with hb | ⟨hb1, hb2⟩
          · dsimp only at hb h1; omega
          · dsimp only at hb1 hb2 h3 ⊢
            rw [hb1, hseg]
            exact hrej vst hb2 h3
      | none =>
          obtain ⟨m₂, hrej, ho⟩ := nextJobFrom_spec fuel (segment + 1) (s.grown m₁) s' o
            (by simp only [grown] at *; omega) h
          rw [grown_grown] at hrej ho
          refine ⟨m₁ + m₂, fun ⟨vseg, vst⟩ h1 h2 h3 hb => ?_, ?_⟩
          · rcases Nat.lt_or_eq_of_le h1 with h1 | rfl
            · exact hrej ⟨vseg, vst⟩ h1 h2 h3 hb
            · rw [← grown_grown]
              exact (pickStage_none hp vst h3).grown m₂
          · cases o with
            | none => exact ho
            | some u =>
                obtain ⟨h1, h2, h3, h4, h5⟩ := ho
                exact ⟨by omega, h2, h3, h4, h5⟩

/-! ## `NextJob` -/

/-- What a call of `NextJob` on `s` returning `(s', u, r)` has done, with `m` pending rows
appended to `s`: either it scheduled `u`, the first unit of the walk from the segmenter's
first index that qualifies, changing no other cell, and returned `u`'s range; or no unit
within the segmenter's indices qualifies, nothing but the rows has changed, and it returned
`Unit{}` and `nil`. -/
def Stages.PicksFirst (range : Nat → Except Panic (Option BlockRange)) (s s' : Stages) (u : Unit)
    (r : Option BlockRange) (m : Nat) : Prop :=
  ((s.grown m).Qualifies u ∧ s.firstIndex ≤ u.segment ∧ u.segment ≤ s.lastIndex ∧
      u.stage < s.stageCount ∧
      (∀ v : Unit, s.firstIndex ≤ v.segment → v.stage < s.stageCount → v.Before u →
        ¬ (s.grown m).Qualifies v) ∧
      s'.getState u = .ok .scheduled ∧ (∀ v, v ≠ u → s'.getState v = (s.grown m).getState v) ∧
      (s.grown m).markSegmentScheduled u = .ok s' ∧ range u.segment = .ok r) ∨
    ((∀ v : Unit, s.firstIndex ≤ v.segment → v.segment ≤ s.lastIndex → v.stage < s.stageCount →
        ¬ (s.grown m).Qualifies v) ∧
      s' = s.grown m ∧ u = ⟨0, 0⟩ ∧ r = none)

/-- `nextJob_spec`, with what `NextJob` read when it scheduled nothing: every unit within the
segmenter's indices, each rejected. -/
theorem nextJob_spec_rejects (range : Nat → Except Panic (Option BlockRange)) {s s' : Stages} {u : Unit}
    {r : Option BlockRange} (h : s.nextJob range = .ok (s', u, r)) :
    ∃ m, s.PicksFirst range s' u r m ∧
      (s' = s.grown m → ∀ v : Unit, s.firstIndex ≤ v.segment → v.segment ≤ s.lastIndex →
        v.stage < s.stageCount → (s.grown m).Rejects v) := by
  obtain ⟨⟨s'', o⟩, hloop, h⟩ := bind_eq_ok.mp h
  obtain ⟨m, hrej, ho⟩ := nextJobFrom_spec _ _ s s'' o (by omega) hloop
  refine ⟨m, ?_⟩
  cases o with
  | some u' =>
      obtain ⟨r', hr, h⟩ := bind_eq_ok.mp h
      cases h
      obtain ⟨h1, h2, h3, hq, hm⟩ := ho
      have hset := setState_getState hm
      refine ⟨Or.inl ⟨hq, h1, h2, h3, fun v hv hst hb => (hrej v hv ?_ hst ?_).not_qualifies,
        setState_getState_self hm, fun v hv => by rw [hset, if_neg hv], hm, hr⟩, fun heq => ?_⟩
      · rcases hb with hb | ⟨hb, -⟩ <;> omega
      · intro _ hu
        rw [Option.mem_def, Option.some_inj] at hu
        exact hu ▸ hb
      · have hu := setState_getState_self hm
        rw [heq, hq.1] at hu
        cases hu
  | none =>
      cases h
      exact ⟨Or.inr ⟨fun v h1 h2 h3 => (hrej v h1 h2 h3 (fun _ h => nomatch h)).not_qualifies,
        ho, rfl, rfl⟩, fun _ v h1 h2 h3 => hrej v h1 h2 h3 (fun _ h => nomatch h)⟩

theorem nextJob_spec (range : Nat → Except Panic (Option BlockRange)) {s s' : Stages} {u : Unit}
    {r : Option BlockRange} (h : s.nextJob range = .ok (s', u, r)) :
    ∃ m, s.PicksFirst range s' u r m :=
  let ⟨m, hp, _⟩ := nextJob_spec_rejects range h
  ⟨m, hp⟩

/-! ## Runs -/

/-- The runs from `s₀`, with the units `NextJob` hands out along them (those it returns with
a range), in order. -/
inductive Stages.Run (range : Nat → Except Panic (Option BlockRange)) (s₀ : Stages) : Stages → List Unit → Prop
  | start : Run range s₀ s₀ []
  | job {s s' : Stages} {u : Unit} {b : BlockRange} {H : List Unit} :
      Run range s₀ s H → s.nextJob range = .ok (s', u, some b) → Run range s₀ s' (H ++ [u])
  | idle {s s' : Stages} {u : Unit} {H : List Unit} :
      Run range s₀ s H → s.nextJob range = .ok (s', u, none) → Run range s₀ s' H
  | move {s s' : Stages} {H : List Unit} :
      Run range s₀ s H → Stages.Transition s s' → Run range s₀ s' H

/-- `u` has left `pending` in `s`. -/
def Stages.Started (s : Stages) (u : Unit) : Prop := ∃ x, s.getState u = .ok x ∧ x ≠ .pending

theorem Stages.Started.grown {s : Stages} {u : Unit} (h : s.Started u) (m : Nat) :
    (s.grown m).Started u :=
  let ⟨x, hx, hp⟩ := h
  ⟨x, getState_grown hx m, hp⟩

/-- A move of a scheduled unit never brings a unit back to `pending`. -/
theorem Stages.Transition.started {s s' : Stages} (h : Stages.Transition s s') {v : Unit}
    (hv : s.Started v) : s'.Started v := by
  have key : ∀ {u : Unit} {x : UnitState}, x ≠ .pending → s.setState u x = .ok s' →
      s'.Started v := fun {u} {x} hx hset => by
    rw [Stages.Started, setState_getState hset]
    split
    · exact ⟨x, rfl, hx⟩
    · exact hv
  cases h with
  | partialPresent _ hset => exact key (by decide) hset
  | merging _ hset => exact key (by decide) hset
  | completed _ _ hset => exact key (by decide) hset

/-- `NextJob` never moves a started unit back to `pending`. -/
theorem Stages.nextJob_started (range : Nat → Except Panic (Option BlockRange)) {s s' : Stages} {u : Unit}
    {r : Option BlockRange} (h : s.nextJob range = .ok (s', u, r)) {v : Unit}
    (hv : s.Started v) : s'.Started v := by
  obtain ⟨m, ⟨⟨hp, -⟩, -, -, -, -, -, hframe, -, -⟩ | ⟨-, rfl, -, -⟩⟩ := nextJob_spec range h
  · have hvg := hv.grown m
    have hne : v ≠ u := by
      rintro rfl
      obtain ⟨x, hx, hxp⟩ := hvg
      rw [hp] at hx
      exact hxp (Except.ok.inj hx).symm
    rw [Stages.Started, hframe v hne]
    exact hvg
  · exact hv.grown m

/-- The unit `NextJob` hands out with a range was pending, and is started after. -/
theorem Stages.nextJob_hands_out (range : Nat → Except Panic (Option BlockRange)) {s s' : Stages} {u : Unit}
    {b : BlockRange} (h : s.nextJob range = .ok (s', u, some b)) :
    ¬ s.Started u ∧ s'.Started u := by
  obtain ⟨m, ⟨⟨hp, -⟩, -, -, -, -, hu, -, -, -⟩ | ⟨-, -, -, hr⟩⟩ := nextJob_spec range h
  · refine ⟨fun hus => ?_, ⟨.scheduled, hu, by decide⟩⟩
    obtain ⟨x, hx, hxp⟩ := hus.grown m
    rw [hp] at hx
    exact hxp (Except.ok.inj hx).symm
  · cases hr

/-- **Over every run, no unit is handed out twice**, and every unit handed out has left
`pending`. -/
theorem Stages.Run.handed_out {range : Nat → Except Panic (Option BlockRange)} {s₀ s : Stages} {H : List Unit}
    (h : Stages.Run range s₀ s H) : H.Nodup ∧ ∀ v ∈ H, s.Started v := by
  induction h with
  | start => exact ⟨List.nodup_nil, fun _ h => nomatch h⟩
  | job _ hnext ih =>
      obtain ⟨hnew, hu⟩ := Stages.nextJob_hands_out range hnext
      refine ⟨List.nodup_append.mpr ⟨ih.1, List.nodup_singleton _, ?_⟩, fun v hv => ?_⟩
      · intro v hv hvu
        rw [List.mem_singleton.mp hvu] at hv
        exact hnew (ih.2 _ hv)
      · rcases List.mem_append.mp hv with hv | hv
        · exact Stages.nextJob_started range hnext (ih.2 v hv)
        · exact List.mem_singleton.mp hv ▸ hu
  | idle _ hnext ih =>
      exact ⟨ih.1, fun v hv => Stages.nextJob_started range hnext (ih.2 v hv)⟩
  | move _ ht ih => exact ⟨ih.1, fun v hv => ht.started (ih.2 v hv)⟩

/-! ## Unit states only move forward -/

/-- **`NextJob` follows the diagonal rule and touches only the unit it returns.** Whenever
`NextJob` returns, it has picked as `PicksFirst` says; and over every run, no unit is
handed out twice. -/
theorem nextJob_picks_first (range : Nat → Except Panic (Option BlockRange)) :
    (∀ (s s' : Stages) (u : Unit) (r : Option BlockRange), s.nextJob range = .ok (s', u, r) →
        ∃ m, s.PicksFirst range s' u r m) ∧
      ∀ (s₀ s : Stages) (H : List Unit), Stages.Run range s₀ s H → H.Nodup :=
  ⟨fun _ _ _ _ h => nextJob_spec range h, fun _ _ _ h => h.handed_out.1⟩

/-- Two stages over two rows: `NextJob` schedules unit `(0, 1)`, the first of the walk, the
highest stage of segment `0`. -/
theorem nextJob_picks_first_two_stages :
    let range : Nat → Except Panic (Option BlockRange) := fun k => .ok (some ⟨k * 10, k * 10 + 10⟩)
    (⟨0, 1, [0, 0], [[.pending, .pending], [.pending, .pending]], 0⟩ : Stages).nextJob range =
        .ok (⟨0, 1, [0, 0], [[.pending, .scheduled], [.pending, .pending]], 0⟩, ⟨0, 1⟩,
          some ⟨0, 10⟩) ∧
      ∃ m, (⟨0, 1, [0, 0], [[.pending, .pending], [.pending, .pending]], 0⟩ : Stages).PicksFirst
        range ⟨0, 1, [0, 0], [[.pending, .scheduled], [.pending, .pending]], 0⟩ ⟨0, 1⟩
        (some ⟨0, 10⟩) m := by
  intro range
  have h : (⟨0, 1, [0, 0], [[.pending, .pending], [.pending, .pending]], 0⟩ : Stages).nextJob range =
      .ok (⟨0, 1, [0, 0], [[.pending, .scheduled], [.pending, .pending]], 0⟩, ⟨0, 1⟩,
        some ⟨0, 10⟩) := by decide
  exact ⟨h, (nextJob_picks_first range).1 _ _ _ _ h⟩

/-- A matrix whose offset lies past the segmenter's first index: the first row `NextJob`
reads is row `-1`, and it panics instead of returning. -/
theorem nextJob_panics_before_offset :
    (⟨0, 1, [0], [], 1⟩ : Stages).nextJob (fun _ => .ok none) = .error (.indexOutOfRange (-1) 0) := by
  decide

end Substreams.Stage
