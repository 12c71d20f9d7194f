import Substreams.Stage.Dependencies

set_option autoImplicit false

/-! # Progress of the scheduler

`lower_stage_started_later_deadlocks` is a run that stops with work left because a lower
stage starts after a higher one. When the stages start in order instead, lower stages no
later than higher ones, as in the source's tests where they all start together, the
scheduler cannot stop that way: in a state with nothing in flight and a unit a stage could
still run, some unit qualifies (`exists_qualifies`), so `NextJob` schedules a unit and
returns its range (`nextJob_progress`, with the bounds of the next module).

The argument takes the lowest such segment. A pending unit there whose dependencies are not
completed waits for a lower stage of the segment before, which is then pending too, and a
stage could run it, since that stage starts no later: so a unit of the lowest segment
qualifies. It needs every row of the matrix readable, which the runs keep (`RowsWide`), and
the segmenter's first index no lower than the matrix's offset.
-/

namespace Substreams.Stage

open Substreams.Block

namespace Stages

/-! ## What the runs keep -/

/-- Every row is `len(stages)` wide, as `growSegments` makes them. -/
def RowsWide (s : Stages) : Prop := ∀ row ∈ s.segmentStates, row.length = s.stageCount

/-- `s'` is `s` with another matrix: the indices, the stages and the offset are the same. -/
def SameShape (s s' : Stages) : Prop := s' = { s with segmentStates := s'.segmentStates }

theorem SameShape.trans {s s' s'' : Stages} (h : SameShape s s') (h' : SameShape s' s'') :
    SameShape s s'' := by
  rw [SameShape, h', h]

theorem sameShape_grown (s : Stages) (m : Nat) : SameShape s (s.grown m) := rfl

theorem sameShape_setState {s s' : Stages} {u : Unit} {x : UnitState}
    (h : s.setState u x = .ok s') : SameShape s s' := by
  obtain ⟨_, -, -, rfl⟩ := setState_eq h
  rfl

theorem rowsWide_grown {s : Stages} (hw : s.RowsWide) (m : Nat) : (s.grown m).RowsWide := by
  intro row hrow
  rcases List.mem_append.mp hrow with hrow | hrow
  · exact hw row hrow
  · rw [List.eq_of_mem_replicate hrow, List.length_replicate]
    rfl

theorem rowsWide_setState {s s' : Stages} {u : Unit} {x : UnitState} (hw : s.RowsWide)
    (h : s.setState u x = .ok s') : s'.RowsWide := by
  obtain ⟨states, hrow, -, rfl⟩ := setState_eq h
  intro row hmem
  rcases List.mem_or_eq_of_mem_set hmem with hmem | rfl
  · exact hw row hmem
  · rw [List.length_set]
    exact hw states (List.getElem?_mem (goIndex_eq_ok.mp hrow).2)

/-- A step changes only the matrix, and keeps its rows `len(stages)` wide. -/
theorem Step.sameShape_rowsWide {range : Nat → Except Panic (Option BlockRange)} {s s' : Stages}
    (h : Step range s s') (hw : s.RowsWide) : SameShape s s' ∧ s'.RowsWide := by
  have hset : ∀ {s s' : Stages} {u : Unit} {x : UnitState}, s.RowsWide →
      s.setState u x = .ok s' → SameShape s s' ∧ s'.RowsWide :=
    fun hw h => ⟨sameShape_setState h, rowsWide_setState hw h⟩
  cases h with
  | nextJob h =>
      obtain ⟨m, ⟨-, -, -, -, -, -, -, hm, -⟩ | ⟨-, rfl, -, -⟩⟩ := nextJob_spec range h
      · exact ⟨(sameShape_grown s m).trans (hset (rowsWide_grown hw m) hm).1,
          (hset (rowsWide_grown hw m) hm).2⟩
      · exact ⟨sameShape_grown s m, rowsWide_grown hw m⟩
  | transition t =>
      cases t with
      | partialPresent _ h | merging _ h | completed _ _ h => exact hset hw h

theorem Reachable.sameShape_rowsWide {range : Nat → Except Panic (Option BlockRange)} {s₀ s : Stages}
    (h : Reachable range s₀ s) (hw : s₀.RowsWide) : SameShape s₀ s ∧ s.RowsWide := by
  induction h with
  | start => exact ⟨rfl, hw⟩
  | step _ hstep ih =>
      obtain ⟨hshape, hw'⟩ := hstep.sameShape_rowsWide ih.2
      exact ⟨ih.1.trans hshape, hw'⟩

theorem SameShape.lastIndex_eq {s s' : Stages} (h : SameShape s s') : s'.lastIndex = s.lastIndex := by
  rw [h]

theorem SameShape.stageFirstIndex_eq {s s' : Stages} (h : SameShape s s') :
    s'.stageFirstIndex = s.stageFirstIndex := by
  rw [h]

theorem nextJob_sameShape (range : Nat → Except Panic (Option BlockRange)) {s s' : Stages} {u : Unit}
    {r : Option BlockRange} (h : s.nextJob range = .ok (s', u, r)) : SameShape s s' := by
  obtain ⟨m, ⟨-, -, -, -, -, -, -, hm, -⟩ | ⟨-, rfl, -, -⟩⟩ := nextJob_spec range h
  · exact (sameShape_grown s m).trans (sameShape_setState hm)
  · exact sameShape_grown s m

theorem Transition.sameShape {s s' : Stages} (h : Transition s s') : SameShape s s' := by
  cases h with
  | partialPresent _ hset | merging _ hset | completed _ _ hset => exact sameShape_setState hset

theorem Reachable.sameShape {range : Nat → Except Panic (Option BlockRange)} {s₀ s : Stages}
    (h : Reachable range s₀ s) : SameShape s₀ s := by
  induction h with
  | start => rfl
  | step _ hstep ih =>
      cases hstep with
      | nextJob h => exact ih.trans (nextJob_sameShape range h)
      | transition t => exact ih.trans t.sameShape

/-! ## Reading the matrix -/

theorem row_eq (s : Stages) {segment : Nat} (h : s.segmentOffset ≤ segment) :
    s.row segment = ((segment - s.segmentOffset : Nat) : Int) := by
  simp only [row]
  omega

section

variable {s : Stages} (hw : s.RowsWide)

include hw

/-- A row from the offset on, below the matrix's length, is there, `len(stages)` wide. -/
theorem goIndex_row_ok {segment : Nat} (hoff : s.segmentOffset ≤ segment)
    (hrow : segment - s.segmentOffset < s.segmentStates.length) :
    ∃ states, goIndex s.segmentStates (s.row segment) = .ok states ∧
      states.length = s.stageCount := by
  rw [row_eq s hoff]
  exact ⟨_, goIndex_natCast.mpr (List.getElem?_eq_getElem hrow), hw _ (List.getElem_mem hrow)⟩

theorem getState_ok {segment stage : Nat} (hoff : s.segmentOffset ≤ segment)
    (hrow : segment - s.segmentOffset < s.segmentStates.length) (hst : stage < s.stageCount) :
    ∃ x, s.getState ⟨segment, stage⟩ = .ok x := by
  obtain ⟨states, hstates, hlen⟩ := goIndex_row_ok hw hoff hrow
  exact ⟨_, bind_eq_ok.mpr ⟨states, hstates,
    goIndex_natCast.mpr (List.getElem?_eq_getElem (hlen ▸ hst))⟩⟩

/-- With every row `len(stages)` wide, a cell of a stage is readable in every segment from
the offset up to a readable one. -/
theorem getState_of_rowsWide {u : Unit} {x : UnitState} (hu : s.getState u = .ok x)
    {segment stage : Nat} (hoff : s.segmentOffset ≤ segment) (hseg : segment ≤ u.segment)
    (hst : stage < s.stageCount) : ∃ y, s.getState ⟨segment, stage⟩ = .ok y := by
  obtain ⟨_, hrow, -⟩ := bind_eq_ok.mp hu
  obtain ⟨h0, hrow⟩ := goIndex_eq_ok.mp hrow
  have hlen := (List.getElem?_eq_some_iff.mp hrow).1
  exact getState_ok hw hoff (by simp only [row] at h0 hlen; omega) hst

end

theorem lowerStagesCompleted_of_completed {s : Stages} {segment : Nat} :
    ∀ {i : Nat}, (∀ j < i, s.getState ⟨segment, j⟩ = .ok .completed) →
      s.lowerStagesCompleted segment i = .ok true
  | 0, _ => rfl
  | i + 1, h => by
      rw [lowerStagesCompleted, h i (Nat.lt_succ_self i), ok_bind, if_neg (not_not.mpr rfl)]
      exact lowerStagesCompleted_of_completed fun j hj => h j (Nat.lt_succ_of_lt hj)

/-- Past its stage's first segment, a unit whose lower stages of the segment before are
completed has its dependencies completed. -/
theorem dependenciesCompleted_of_completed {s : Stages} {u : Unit} {f : Nat}
    (hf : s.stageFirstIndex[u.stage]? = some f)
    (h : f < u.segment → ∀ j < u.stage, s.getState ⟨u.segment - 1, j⟩ = .ok .completed) :
    s.dependenciesCompleted u = .ok true := by
  rw [dependenciesCompleted, goIndex_natCast.mpr hf, ok_bind]
  split
  · rfl
  · split
    · rfl
    · exact lowerStagesCompleted_of_completed (h (by omega))

theorem Qualifies.grown {s : Stages} {u : Unit} (h : s.Qualifies u) (m : Nat) :
    (s.grown m).Qualifies u :=
  ⟨getState_grown h.1 m, h.2.1, dependenciesCompleted_grown h.2.2 m⟩

/-! ## Progress -/

section

variable {s : Stages} (hq : s.Quiescent) (hw : s.RowsWide)
  (hmono : ∀ i j fi fj : Nat, i < j → s.stageFirstIndex[i]? = some fi →
    s.stageFirstIndex[j]? = some fj → fi ≤ fj)
  (hlow : ∀ j fj : Nat, s.stageFirstIndex[j]? = some fj → s.firstIndex ≤ fj)
  (hoff : s.segmentOffset ≤ s.firstIndex)

include hq hw hmono hlow hoff in
/-- **Some unit qualifies**, no later than a pending unit that a stage could run, by strong
induction on its segment: it qualifies, or a lower stage's unit of the segment before is
pending and could run too. -/
theorem exists_qualifies :
    ∀ (segment stage f : Nat), segment ≤ s.lastIndex → s.stageFirstIndex[stage]? = some f →
      f ≤ segment → s.getState ⟨segment, stage⟩ = .ok .pending →
      ∃ v : Unit, s.firstIndex ≤ v.segment ∧ v.segment ≤ segment ∧ v.segment ≤ s.lastIndex ∧
        v.stage < s.stageCount ∧ s.Qualifies v := by
  intro segment
  induction segment using Nat.strong_induction_on with
  | _ segment ih =>
      intro stage f hlast hf hfseg hpend
      have hst : stage < s.stageCount := (List.getElem?_eq_some_iff.mp hf).1
      by_cases hall : f < segment → ∀ j < stage, s.getState ⟨segment - 1, j⟩ = .ok .completed
      · exact ⟨⟨segment, stage⟩, (hlow stage f hf).trans hfseg, le_rfl, hlast, hst, hpend,
          ⟨f, goIndex_natCast.mpr hf, hfseg⟩, dependenciesCompleted_of_completed hf hall⟩
      push_neg at hall
      obtain ⟨hlt, j, hj, hnc⟩ := hall
      have hjst : j < s.stageCount := hj.trans hst
      have hfj : s.stageFirstIndex[j]? = some s.stageFirstIndex[j] := List.getElem?_eq_getElem hjst
      obtain ⟨y, hy⟩ := getState_of_rowsWide hw hpend (by have := hlow stage f hf; omega)
        (Nat.sub_le segment 1) hjst
      have hpend' : y = .pending := by
        rcases getState_mem hy with ⟨row, hrow, hyrow⟩
        rcases hq row hrow y hyrow with h | rfl
        · exact h
        · exact absurd hy hnc
      subst hpend'
      obtain ⟨v, hv1, hv2, hv3⟩ := ih (segment - 1) (by omega) j _ (by omega) hfj
        (by have := hmono j stage _ f hj hfj hf; omega) hy
      exact ⟨v, hv1, by omega, hv3⟩

end

end Stages

end Substreams.Stage
