import Substreams.Stage.Allocation
import Substreams.Stage.Jobs

set_option autoImplicit false

/-! # Completing every unit

When the stages start in order, the scheduler never deadlocks. From every reachable state, a
worker that first lets the units in flight finish, and then takes the jobs `NextJob` hands out
one at a time, each merged before it asks for the next (`Rounds`), completes every unit of
every stage, from the stage's first segment to the segmenter's last index, after which
`NextJob` hands out nothing (`completes_all`). This is the other side of
`lower_stage_started_later_deadlocks`, where a lower stage starting after a higher one leaves
a unit waiting forever.

The units in flight can always finish. `NextJob` never schedules a unit past its stage's first
segment before the unit before it has started (`StartsInOrder`, kept by every step), so the
unit in flight that comes first in its stage has the unit before it completed, and its merge
can complete (`exists_mergeReady`, `drain`).

With nothing in flight, a round is a `NextJob` call and the three moves of the unit it
schedules (`MergesUnit`, `merge_scheduled`, `round`). The unit can complete at once: the unit before it in
its stage is completed already, or `NextJob` would have picked an earlier unit
(`previous_completed`). So each round completes one more unit of the *box*, the units
`NextJob` must schedule (`complete_one`), and when `NextJob` schedules nothing it has read
every unit of the box and found each completed.

A run that ends with the box completed has done each unit of it once: the jobs `NextJob`
handed out are a permutation of the box (`Run.handed_out_perm_box`).
-/

namespace Substreams.Stage

open Substreams.Block

namespace Stages

/-! ## Runs and matrices with nothing in flight -/

theorem Reachable.trans {range : Nat → Except Panic (Option BlockRange)} {s₀ s s' : Stages}
    (h : Reachable range s₀ s) (h' : Reachable range s s') : Reachable range s₀ s' := by
  induction h' with
  | start => exact h
  | step _ hstep ih => exact .step ih hstep

theorem Quiescent.grown {s : Stages} (hq : s.Quiescent) (m : Nat) : (s.grown m).Quiescent := by
  intro row hrow x hx
  rcases List.mem_append.mp hrow with hrow | hrow
  · exact hq row hrow x hx
  · rw [List.eq_of_mem_replicate hrow] at hx
    exact .inl (List.eq_of_mem_replicate hx)

theorem Quiescent.getState {s : Stages} (hq : s.Quiescent) {u : Unit} {x : UnitState}
    (h : s.getState u = .ok x) : x = .pending ∨ x = .completed :=
  let ⟨row, hrow, hx⟩ := getState_mem h
  hq row hrow x hx

/-- Every cell of the matrix can be read, so a matrix whose readable cells are all pending or
completed has nothing in flight. -/
theorem quiescent_of_getState {s : Stages}
    (h : ∀ v x, s.getState v = .ok x → x = .pending ∨ x = .completed) : s.Quiescent := by
  intro row hrow x hx
  obtain ⟨i, hi, rfl⟩ := List.getElem_of_mem hrow
  obtain ⟨j, hj, rfl⟩ := List.getElem_of_mem hx
  refine h ⟨s.segmentOffset + i, j⟩ _ (bind_eq_ok.mpr ⟨_, ?_, goIndex_natCast.mpr
    (List.getElem?_eq_getElem hj)⟩)
  rw [row_eq s (Nat.le_add_right _ _), Nat.add_sub_cancel_left]
  exact goIndex_natCast.mpr (List.getElem?_eq_getElem hi)

theorem setState_ok_of_getState {s : Stages} {u : Unit} {x : UnitState}
    (h : s.getState u = .ok x) (y : UnitState) : ∃ s', s.setState u y = .ok s' := by
  obtain ⟨states, hrow, hcol⟩ := bind_eq_ok.mp h
  exact ⟨_, bind_eq_ok.mpr ⟨states, hrow, bind_eq_ok.mpr ⟨x, hcol, rfl⟩⟩⟩

/-! ## The box -/

/-- The units `NextJob` must schedule: the segments from the segmenter's first index to its
last, in each stage from the stage's first segment on. -/
def box (s : Stages) : List Unit :=
  (List.range' s.firstIndex (s.lastIndex + 1 - s.firstIndex)).flatMap fun segment =>
    ((List.range s.stageCount).filter fun stage =>
      s.stageFirstIndex[stage]?.any (· ≤ segment)).map fun stage => ⟨segment, stage⟩

theorem mem_box {s : Stages} {u : Unit} :
    u ∈ s.box ↔ s.firstIndex ≤ u.segment ∧ u.segment ≤ s.lastIndex ∧
      ∃ f, s.stageFirstIndex[u.stage]? = some f ∧ f ≤ u.segment := by
  obtain ⟨segment, stage⟩ := u
  simp only [box, List.mem_flatMap, List.mem_range', List.mem_map, List.mem_filter, List.mem_range,
    Unit.mk.injEq]
  constructor
  · rintro ⟨a, ⟨i, hi, ha⟩, st, ⟨-, hany⟩, rfl, rfl⟩
    cases hf : s.stageFirstIndex[st]? with
    | none => rw [hf] at hany; cases hany
    | some f =>
        rw [hf, Option.any_some, decide_eq_true_eq] at hany
        exact ⟨by omega, by omega, f, rfl, hany⟩
  · rintro ⟨h1, h2, f, hf, hfs⟩
    refine ⟨segment, ⟨segment - s.firstIndex, by omega, by omega⟩, stage,
      ⟨(List.getElem?_eq_some_iff.mp hf).1, by rw [hf, Option.any_some, decide_eq_true_eq]; exact hfs⟩,
      rfl, rfl⟩

theorem SameShape.box_eq {s s' : Stages} (h : SameShape s s') : s'.box = s.box := by
  rw [h]
  rfl

/-- No unit is twice in the box: the segments differ across the rows, the stages within one. -/
theorem box_nodup (s : Stages) : s.box.Nodup := by
  refine List.nodup_flatMap.mpr ⟨fun _ _ => ((List.nodup_range _).filter _).map
    fun _ _ h => congrArg Unit.stage h, (List.nodup_range' _ _).imp fun {a b} hab => ?_⟩
  refine List.disjoint_left.mpr fun {u} hua hub => hab ?_
  obtain ⟨_, -, rfl⟩ := List.mem_map.mp hua
  obtain ⟨_, -, h⟩ := List.mem_map.mp hub
  exact (congrArg Unit.segment h).symm

/-- The units of the box not completed yet. -/
def remaining (s : Stages) : Nat := s.box.countP fun u => decide (s.getState u ≠ .ok .completed)

theorem countP_lt_countP {α : Type} {p q : α → Bool} :
    ∀ {l : List α}, (∀ x ∈ l, q x → p x) → (∃ x ∈ l, p x ∧ ¬ q x) → l.countP q < l.countP p
  | [], _, ⟨_, hx, _⟩ => absurd hx (List.not_mem_nil _)
  | a :: l, hle, ⟨x, hx, hpx, hqx⟩ => by
      have hle' : ∀ y ∈ l, q y → p y := fun y hy => hle y (.tail _ hy)
      have ha : (if q a then 1 else 0) ≤ (if p a then 1 else 0) := by
        have := hle a (.head _)
        split <;> split <;> simp_all
      rw [List.countP_cons, List.countP_cons]
      rcases List.mem_cons.mp hx with rfl | hx
      · have := List.countP_mono_left hle'
        rw [if_pos hpx, if_neg hqx]
        omega
      · have := countP_lt_countP hle' ⟨x, hx, hpx, hqx⟩
        omega

/-- A merge of `u` may complete: `u` is at its stage's first segment, or the unit before it in
its stage is completed. -/
def MergeReady (s : Stages) (u : Unit) : Prop :=
  s.stageFirstIndex[u.stage]? = some u.segment ∨ s.getState ⟨u.segment - 1, u.stage⟩ = .ok .completed

/-- Moving a unit that is not completed keeps it ready to merge. -/
theorem MergeReady.setState {s s' : Stages} {u : Unit} {x y : UnitState} (hg : s.MergeReady u)
    (hu : s.getState u = .ok y) (hy : y ≠ .completed) (hs : s.setState u x = .ok s') :
    s'.MergeReady u := by
  unfold MergeReady at *
  rw [setState_stageFirstIndex hs, setState_getState hs]
  refine hg.imp id fun hc => ?_
  have hne : (⟨u.segment - 1, u.stage⟩ : Unit) ≠ u := fun he =>
    hy (Except.ok.inj (hu.symm.trans (he ▸ hc)))
  rw [if_neg hne]
  exact hc

/-- `s'` is `s` with `u` moved on to `completed` by moves alone: a matrix of the same shape,
where no other cell has changed. -/
def Finishes (u : Unit) (s s' : Stages) : Prop :=
  Relation.ReflTransGen Transition s s' ∧ SameShape s s' ∧ s'.getState u = .ok .completed ∧
    ∀ v, v ≠ u → s'.getState v = s.getState v

theorem finishes_completed {s s' : Stages} {u : Unit} (hu : s.getState u = .ok .merging)
    (hg : s.MergeReady u) (hs : s.setState u .completed = .ok s') : Finishes u s s' :=
  ⟨.single (.completed hu hg hs), sameShape_setState hs, setState_getState_self hs,
    fun v hv => by rw [setState_getState hs, if_neg hv]⟩

/-- A move of `u`, followed by moves that finish it, finishes it. -/
theorem Finishes.of_move {s s₂ s' : Stages} {u : Unit} {x : UnitState} (ht : Transition s s₂)
    (hs : s.setState u x = .ok s₂) (h : Finishes u s₂ s') : Finishes u s s' :=
  let ⟨hr', hshape', hu', hframe'⟩ := h
  ⟨.head ht hr', (sameShape_setState hs).trans hshape', hu',
    fun v hv => by rw [hframe' v hv, setState_getState hs, if_neg hv]⟩

theorem finish_merging {s : Stages} {u : Unit} (hu : s.getState u = .ok .merging)
    (hg : s.MergeReady u) : ∃ s', Finishes u s s' :=
  let ⟨s', hs'⟩ := setState_ok_of_getState hu .completed
  ⟨s', finishes_completed hu hg hs'⟩

theorem finish_partialPresent {s : Stages} {u : Unit} (hu : s.getState u = .ok .partialPresent)
    (hg : s.MergeReady u) : ∃ s', Finishes u s s' := by
  obtain ⟨s₂, hs₂⟩ := setState_ok_of_getState hu .merging
  obtain ⟨s', h⟩ := finish_merging (setState_getState_self hs₂) (hg.setState hu (by decide) hs₂)
  exact ⟨s', .of_move (.merging hu hs₂) hs₂ h⟩

/-- The three moves of a scheduled unit `u`, one after the other: its partial store is
written, it is merged, and its merge completes. -/
def MergesUnit (u : Unit) (s s' : Stages) : Prop :=
  ∃ s₁ s₂, s.getState u = .ok .scheduled ∧ s.setState u .partialPresent = .ok s₁ ∧
    s₁.setState u .merging = .ok s₂ ∧ s₂.MergeReady u ∧ s₂.setState u .completed = .ok s'

theorem MergesUnit.finishes {u : Unit} {s s' : Stages} (h : MergesUnit u s s') :
    Finishes u s s' := by
  obtain ⟨s₁, s₂, hu, h₁, h₂, hg, h₃⟩ := h
  exact .of_move (.partialPresent hu h₁) h₁ (.of_move (.merging (setState_getState_self h₁) h₂) h₂
    (finishes_completed (setState_getState_self h₂) hg h₃))

/-- **A scheduled unit is merged**: its partial store is written, it is merged and, being at
its stage's first segment or after a completed unit of its stage, its merge completes. -/
theorem merge_scheduled {s : Stages} {u : Unit} (hu : s.getState u = .ok .scheduled)
    (hg : s.MergeReady u) : ∃ s', MergesUnit u s s' := by
  obtain ⟨s₁, h₁⟩ := setState_ok_of_getState hu .partialPresent
  have hu₁ := setState_getState_self h₁
  obtain ⟨s₂, h₂⟩ := setState_ok_of_getState hu₁ .merging
  obtain ⟨s', h₃⟩ := setState_ok_of_getState (setState_getState_self h₂) .completed
  exact ⟨s', s₁, s₂, hu, h₁, h₂, (hg.setState hu (by decide) h₁).setState hu₁ (by decide) h₂, h₃⟩

theorem Reachable.of_transitions {range : Nat → Except Panic (Option BlockRange)} {s s' : Stages}
    (h : Relation.ReflTransGen Transition s s') : Reachable range s s' := by
  induction h with
  | refl => exact .start
  | tail _ ht ih => exact .step ih (.transition ht)

/-- The worker's rounds: each a `NextJob` call that hands out a unit with its range, and then
that unit's partial store, merge and completion, before the next call. -/
inductive Rounds (range : Nat → Except Panic (Option BlockRange)) : Stages → Stages → Prop
  | done (s : Stages) : Rounds range s s
  | round {s s₁ s₂ s' : Stages} {u : Unit} {b : BlockRange} :
      s.nextJob range = .ok (s₁, u, some b) → MergesUnit u s₁ s₂ → Rounds range s₂ s' →
        Rounds range s s'

/-- The rounds are runs of the scheduler. -/
theorem Rounds.reachable {range : Nat → Except Panic (Option BlockRange)} {s s' : Stages}
    (h : Rounds range s s') : Reachable range s s' := by
  induction h with
  | done => exact .start
  | round hnext hm _ ih =>
      exact (Reachable.step .start (.nextJob hnext)).trans ((Reachable.of_transitions
        hm.finishes.1).trans ih)

/-- Completing a pending unit of the box, where nothing else changes but by growing the
matrix, keeps nothing in flight and leaves one unit fewer to complete. -/
theorem complete_one {s s' : Stages} {u : Unit} {m : Nat} (hq : s.Quiescent)
    (hshape : SameShape s s') (hbox : u ∈ s.box) (hpend : (s.grown m).getState u = .ok .pending)
    (hu : s'.getState u = .ok .completed)
    (hframe : ∀ v, v ≠ u → s'.getState v = (s.grown m).getState v) :
    s'.Quiescent ∧ s'.remaining < s.remaining := by
  refine ⟨quiescent_of_getState fun v x hx => ?_, ?_⟩
  · by_cases hv : v = u
    · rw [hv, hu] at hx
      cases hx
      exact .inr rfl
    · rw [hframe v hv] at hx
      exact (hq.grown m).getState hx
  · unfold remaining
    rw [hshape.box_eq]
    refine countP_lt_countP (fun v _ hv => ?_) ⟨u, hbox, decide_eq_true fun hc => ?_, by simp [hu]⟩
    · by_cases hvu : v = u
      · simp [hvu, hu] at hv
      · rw [decide_eq_true_eq, hframe v hvu] at hv
        exact decide_eq_true fun hc => hv ((grown_completed_iff v).mpr hc)
    · rw [getState_grown hc m] at hpend
      cases hpend

/-! ## One round -/

section

variable {s : Stages} (hq : s.Quiescent) (hw : s.RowsWide)
  (hmono : ∀ i j fi fj : Nat, i < j → s.stageFirstIndex[i]? = some fi →
    s.stageFirstIndex[j]? = some fj → fi ≤ fj)
  (hlow : ∀ j fj : Nat, s.stageFirstIndex[j]? = some fj → s.firstIndex ≤ fj)
  (hoff : s.segmentOffset ≤ s.firstIndex)

include hq hw hmono hlow hoff in
/-- **The unit before a picked unit is completed.** With nothing in flight, when a unit past
its stage's first segment qualifies and no unit before it does, the unit before it in its
stage is completed: were it pending, some unit no later than it would qualify. -/
theorem previous_completed {u : Unit} {f : Nat} (hu : s.Qualifies u)
    (hmin : ∀ v : Unit, s.firstIndex ≤ v.segment → v.stage < s.stageCount → v.Before u →
      ¬ s.Qualifies v)
    (hf : s.stageFirstIndex[u.stage]? = some f) (hfu : f < u.segment)
    (hlast : u.segment ≤ s.lastIndex) :
    s.getState ⟨u.segment - 1, u.stage⟩ = .ok .completed := by
  have hst : u.stage < s.stageCount := (List.getElem?_eq_some_iff.mp hf).1
  obtain ⟨y, hy⟩ := getState_of_rowsWide hw hu.1 (by have := hlow _ f hf; omega)
    (Nat.sub_le _ 1) hst
  rcases hq.getState hy with rfl | rfl
  · obtain ⟨v, hv1, hv2, -, hv3, hqv⟩ :=
      exists_qualifies hq hw hmono hlow hoff (u.segment - 1) u.stage f (by omega) hf (by omega) hy
    exact absurd hqv (hmin v hv1 hv3 (.inl (by omega)))
  · exact hy

include hq hw hmono hlow hoff in
/-- **One round.** From a matrix with nothing in flight, `NextJob` schedules a unit within
the segmenter's indices with that segment's range, and its partial store, merge and
completion lead to a matrix with nothing in flight and one more unit of the box completed;
or `NextJob` returns `Unit{}` and `nil`, and every unit of the box is completed. -/
theorem round (range : Nat → Except Panic (Option BlockRange)) {s₁ : Stages} {u : Unit}
    {r : Option BlockRange} (h : s.nextJob range = .ok (s₁, u, r)) :
    (u.segment ≤ s.lastIndex ∧ range u.segment = .ok r ∧
        ∃ s', MergesUnit u s₁ s' ∧ s'.Quiescent ∧ s'.remaining < s.remaining) ∨
      u = ⟨0, 0⟩ ∧ r = none ∧ ∀ v ∈ s.box, s.getState v = .ok .completed := by
  obtain ⟨m, hpick, hrej⟩ := nextJob_spec_rejects range h
  rcases hpick with ⟨hqu, h1, h2, -, hmin, hu1, hframe, hm, hr⟩ | ⟨hnone, rfl, rfl, rfl⟩
  · obtain ⟨f, hfg, hfu⟩ := hqu.2.1
    have hf : s.stageFirstIndex[u.stage]? = some f := goIndex_natCast.mp hfg
    have hguard : s₁.stageFirstIndex[u.stage]? = some u.segment ∨
        s₁.getState ⟨u.segment - 1, u.stage⟩ = .ok .completed := by
      rw [setState_stageFirstIndex hm]
      rcases Nat.lt_or_eq_of_le hfu with hlt | rfl
      · have hprev := previous_completed (hq.grown m) (rowsWide_grown hw m) hmono hlow hoff hqu
          hmin hf hlt h2
        refine .inr ((hframe _ fun he => ?_).trans hprev)
        rw [he, hqu.1] at hprev
        cases hprev
      · exact .inl hf
    obtain ⟨s', hmerge⟩ := merge_scheduled hu1 hguard
    obtain ⟨-, hshape', hu', hframe'⟩ := hmerge.finishes
    obtain ⟨hq', hlt⟩ := complete_one hq ((sameShape_grown s m).trans
      ((sameShape_setState hm).trans hshape')) (mem_box.mpr ⟨h1, h2, f, hf, hfu⟩) hqu.1 hu'
      fun v hv => (hframe' v hv).trans (hframe v hv)
    exact .inl ⟨h2, hr, s', hmerge, hq', hlt⟩
  · refine .inr ⟨rfl, rfl, fun v hv => ?_⟩
    obtain ⟨hv1, hv2, f, hf, hfv⟩ := mem_box.mp hv
    obtain ⟨x, hx, -⟩ := hrej rfl v hv1 hv2 (List.getElem?_eq_some_iff.mp hf).1
    rcases (hq.grown m).getState hx with rfl | rfl
    · obtain ⟨w, hw1, -, hw2, hw3, hqw⟩ := exists_qualifies (hq.grown m) (rowsWide_grown hw m)
        hmono hlow hoff v.segment v.stage f hv2 hf hfv hx
      exact absurd hqw (hnone w hw1 hw2 hw3)
    · exact (grown_completed_iff v).mp hx

end

/-! ## Units start in order -/

/-- Every started unit is in the box, and past its stage's first segment the unit before it
in its stage has started too. -/
def StartsInOrder (s : Stages) : Prop :=
  ∀ u, s.Started u → u ∈ s.box ∧
    ∀ f, s.stageFirstIndex[u.stage]? = some f → f < u.segment → s.Started ⟨u.segment - 1, u.stage⟩

theorem StartsInOrder.of_started_iff {s s' : Stages} (hinv : s.StartsInOrder)
    (hshape : SameShape s s') (hst : ∀ v, s'.Started v ↔ s.Started v) : s'.StartsInOrder := by
  have hsfi := hshape.stageFirstIndex_eq
  intro u hu
  obtain ⟨hbox, hprev⟩ := hinv u ((hst u).mp hu)
  exact ⟨hshape.box_eq ▸ hbox, fun f hf hfu => (hst _).mpr (hprev f (hsfi ▸ hf) hfu)⟩

theorem Transition.startsInOrder {s s' : Stages} (h : Transition s s') (hinv : s.StartsInOrder) :
    s'.StartsInOrder :=
  hinv.of_started_iff h.sameShape fun _ => ⟨h.started_of, h.started⟩

/-- **`NextJob` starts units in order.** With merges in order and the stages starting in order,
the unit `NextJob` schedules past its stage's first segment has the unit before it started:
were that one pending, it would qualify, and come first in the walk. -/
theorem StartsInOrder.nextJob (range : Nat → Except Panic (Option BlockRange)) {s s' : Stages} {u : Unit}
    {r : Option BlockRange} (hinv : s.StartsInOrder) (hio : s.CompletedInOrder) (hw : s.RowsWide)
    (hmono : ∀ i j fi fj : Nat, i < j → s.stageFirstIndex[i]? = some fi →
      s.stageFirstIndex[j]? = some fj → fi ≤ fj)
    (hlow : ∀ j fj : Nat, s.stageFirstIndex[j]? = some fj → s.firstIndex ≤ fj)
    (hoff : s.segmentOffset ≤ s.firstIndex) (h : s.nextJob range = .ok (s', u, r)) :
    s'.StartsInOrder := by
  obtain ⟨m, ⟨hqu, h1, h2, hst, hmin, -, hframe, hm, -⟩ | ⟨-, rfl, -, -⟩⟩ := nextJob_spec range h
  · have hshape := (sameShape_grown s m).trans (sameShape_setState hm)
    have hsfi := hshape.stageFirstIndex_eq
    intro v hv
    rcases nextJob_started_of range h hv with hv | ⟨rfl, -, -⟩
    · obtain ⟨hbox, hprev⟩ := hinv v hv
      exact ⟨hshape.box_eq ▸ hbox, fun f hf hfv => nextJob_started range h (hprev f (hsfi ▸ hf) hfv)⟩
    obtain ⟨f, hfg, hfu⟩ := hqu.2.1
    have hf : s.stageFirstIndex[v.stage]? = some f := goIndex_natCast.mp hfg
    refine ⟨hshape.box_eq ▸ mem_box.mpr ⟨h1, h2, f, hf, hfu⟩, fun f' hf' hlt => ?_⟩
    obtain rfl : f' = f := Option.some_inj.mp ((hsfi ▸ hf').symm.trans hf)
    have hfirst := hlow _ f' hf
    obtain ⟨y, hy⟩ := getState_of_rowsWide (rowsWide_grown hw m) hqu.1
      (show s.segmentOffset ≤ v.segment - 1 by omega) (Nat.sub_le _ 1) hst
    have hne : (⟨v.segment - 1, v.stage⟩ : Unit) ≠ v := fun he =>
      absurd (congrArg Unit.segment he) (by dsimp only; omega)
    refine ⟨y, (hframe _ hne).trans hy, fun hyp => ?_⟩
    subst hyp
    -- the unit before would qualify: its lower stages of the segment before are completed
    refine hmin ⟨v.segment - 1, v.stage⟩ (show s.firstIndex ≤ v.segment - 1 by omega) hst
      (.inl (show v.segment - 1 < v.segment by omega)) ⟨hy, ⟨f', goIndex_natCast.mpr hf,
        show f' ≤ v.segment - 1 by omega⟩, dependenciesCompleted_of_completed hf ?_⟩
    intro hlt' j hj
    dsimp only at hlt' hj ⊢
    have hjst : j < s.stageCount := hj.trans hst
    have hfj : s.stageFirstIndex[j]? = some s.stageFirstIndex[j] := List.getElem?_eq_getElem hjst
    have hlower := (grown_completed_iff _).mp (dependenciesCompleted_eq_true hqu.2.2 hf hlt j hj)
    exact (grown_completed_iff _).mpr (hio.down hfj hlower
      (by have := hmono j v.stage _ f' hj hfj hf; omega) (Nat.sub_le _ 1))
  · exact hinv.of_started_iff (sameShape_grown s m) fun v => ⟨Started.of_grown, fun h => h.grown m⟩

/-- Units start in order on every run from a matrix with no rows, when the stages start in
order and not before the segmenter's first index, and the offset is not past it. -/
theorem Reachable.startsInOrder {range : Nat → Except Panic (Option BlockRange)} {s₀ s : Stages}
    (hr : Reachable range s₀ s) (h₀ : s₀.segmentStates = [])
    (hmono : ∀ i j fi fj : Nat, i < j → s₀.stageFirstIndex[i]? = some fi →
      s₀.stageFirstIndex[j]? = some fj → fi ≤ fj)
    (hlow : ∀ j fj : Nat, s₀.stageFirstIndex[j]? = some fj → s₀.firstIndex ≤ fj)
    (hoff : s₀.segmentOffset ≤ s₀.firstIndex) : s.StartsInOrder := by
  induction hr with
  | start => exact fun u hu => absurd hu (not_started_of_nil h₀ u)
  | @step s₁ _ hr' hstep ih =>
      cases hstep with
      | nextJob h =>
          obtain ⟨hshape, hw⟩ := hr'.sameShape_rowsWide fun row h => by rw [h₀] at h; cases h
          rw [SameShape] at hshape
          have hsfi : s₁.stageFirstIndex = s₀.stageFirstIndex := by rw [hshape]
          have hfirst : s₁.firstIndex = s₀.firstIndex := by rw [hshape]
          have hoffs : s₁.segmentOffset = s₀.segmentOffset := by rw [hshape]
          exact ih.nextJob range (hr'.completedInOrder (completedInOrder_of_nil h₀)) hw
            (hsfi ▸ hmono) (hfirst ▸ hsfi ▸ hlow) (hfirst ▸ hoffs ▸ hoff) h
      | transition t => exact t.startsInOrder ih

/-! ## Units in flight finish -/

/-- A unit in flight: scheduled, its partial store present, or being merged. -/
def InFlight (x : UnitState) : Prop := x = .scheduled ∨ x = .partialPresent ∨ x = .merging

instance (x : UnitState) : Decidable (InFlight x) := inferInstanceAs (Decidable (_ ∨ _ ∨ _))

theorem inFlight_iff (x : UnitState) : InFlight x ↔ x ≠ .pending ∧ x ≠ .completed := by
  cases x <;> decide

/-- The units of the box in flight. -/
def inFlight (s : Stages) : Nat :=
  s.box.countP fun u => (s.getState u).toOption.any fun x => decide (InFlight x)

theorem finish {s : Stages} {u : Unit} {x : UnitState} (hu : s.getState u = .ok x)
    (hx : InFlight x) (hg : s.MergeReady u) : ∃ s', Finishes u s s' := by
  rcases hx with rfl | rfl | rfl
  · exact (merge_scheduled hu hg).imp fun _ h => h.finishes
  · exact finish_partialPresent hu hg
  · exact finish_merging hu hg

/-- **Some unit in flight can finish**: the one that comes first in its stage, down from any
unit in flight. -/
theorem StartsInOrder.exists_mergeReady {s : Stages} (hinv : s.StartsInOrder) :
    ∀ (segment : Nat) (u : Unit) (x : UnitState), u.segment = segment → s.getState u = .ok x →
      InFlight x → ∃ v y, s.getState v = .ok y ∧ InFlight y ∧ s.MergeReady v := by
  intro segment
  induction segment using Nat.strong_induction_on with
  | _ segment ih =>
      intro u x hseg hu hx
      obtain ⟨hbox, hprev⟩ := hinv u ⟨x, hu, ((inFlight_iff x).mp hx).1⟩
      obtain ⟨-, -, f, hf, hfu⟩ := mem_box.mp hbox
      rcases Nat.lt_or_eq_of_le hfu with hlt | rfl
      · obtain ⟨y, hy, hyp⟩ := hprev f hf hlt
        by_cases hyc : y = .completed
        · exact ⟨u, x, hu, hx, .inr (hyc ▸ hy)⟩
        · exact ih (u.segment - 1) (by omega) ⟨u.segment - 1, u.stage⟩ y rfl hy
            ((inFlight_iff y).mpr ⟨hyp, hyc⟩)
      · exact ⟨u, x, hu, hx, .inl hf⟩

/-- **The units in flight finish.** From a matrix where units start in order, moves of the
units in flight alone reach a matrix with nothing in flight, by induction on the units in
flight. -/
theorem drain : ∀ (n : Nat) (s : Stages), s.StartsInOrder → s.inFlight = n →
    ∃ s', Relation.ReflTransGen Transition s s' ∧ s'.Quiescent := by
  intro n
  induction n using Nat.strong_induction_on with
  | _ n ih =>
      intro s hinv hn
      by_cases hnone : ∀ v x, s.getState v = .ok x → ¬ InFlight x
      · exact ⟨s, .refl, quiescent_of_getState fun v x hx => by
          simpa only [inFlight_iff, not_and_or, not_not] using hnone v x hx⟩
      push_neg at hnone
      obtain ⟨u, x, hu, hx⟩ := hnone
      obtain ⟨v, y, hv, hy, hg⟩ := hinv.exists_mergeReady _ u x rfl hu hx
      obtain ⟨s', hr', hshape', hv', hframe'⟩ := finish hv hy hg
      have hst : ∀ w, s'.Started w ↔ s.Started w := fun w => by
        by_cases hw : w = v
        · subst hw
          exact ⟨fun _ => ⟨y, hv, ((inFlight_iff y).mp hy).1⟩, fun _ => ⟨_, hv', by decide⟩⟩
        · simp only [Stages.Started, hframe' w hw]
      have hlt : s'.inFlight < s.inFlight := by
        unfold inFlight
        rw [hshape'.box_eq]
        refine countP_lt_countP (fun w _ hw => ?_) ⟨v, (hinv v ((hst v).mp ⟨_, hv', by decide⟩)).1,
          by rw [hv]; exact decide_eq_true hy, by rw [hv']; decide⟩
        by_cases hwv : w = v
        · rw [hwv, hv'] at hw
          exact absurd hw (by decide)
        · rwa [hframe' w hwv] at hw
      obtain ⟨s'', hr'', hq''⟩ := ih _ (hn ▸ hlt) s' (hinv.of_started_iff hshape' hst) rfl
      exact ⟨s'', hr'.trans hr'', hq''⟩

end Stages

open Stages

/-- From a reachable state with nothing in flight, one round after another completes the box,
by strong induction on the units of the box left to complete; then `NextJob` hands out
nothing. -/
theorem completes_all_of_quiescent {range : Nat → Except Panic (Option BlockRange)}
    {firstIndex lastIndex segmentOffset : Nat} {firstIndexAt : Nat → Nat}
    {mods : List StagedModules} {storeConfigs : Option (List String)} {s₀ s : Stages}
    (hnew : newStages firstIndex lastIndex segmentOffset firstIndexAt mods storeConfigs = .ok s₀)
    (hmono : ∀ i j fi fj : Nat, i < j → s₀.stageFirstIndex[i]? = some fi →
      s₀.stageFirstIndex[j]? = some fj → fi ≤ fj)
    (hlow : ∀ j fj : Nat, s₀.stageFirstIndex[j]? = some fj → firstIndex ≤ fj)
    (hoff : segmentOffset ≤ firstIndex) (hgap : firstIndex ≤ segmentOffset + 1)
    (hrange : ∀ k ≤ lastIndex, ∃ b, range k = .ok (some b))
    (hr : Reachable range s₀ s) (hq : s.Quiescent) :
    ∃ s', Rounds range s s' ∧ (∀ u : Unit, ∀ f, s₀.stageFirstIndex[u.stage]? = some f →
      f ≤ u.segment → u.segment ≤ lastIndex → s'.getState u = .ok .completed) ∧
      ∃ s'', s'.nextJob range = .ok (s'', ⟨0, 0⟩, none) := by
  obtain ⟨stageFirstIndex, rfl⟩ := newStages_eq hnew
  generalize hn : s.remaining = n
  induction n using Nat.strong_induction_on generalizing s with
  | _ n ih =>
      obtain ⟨hshape, hw⟩ := hr.sameShape_rowsWide fun _ h => nomatch h
      rw [SameShape] at hshape
      have hfirst : s.firstIndex = firstIndex := by rw [hshape]
      have hlastI : s.lastIndex = lastIndex := by rw [hshape]
      have hsfi : s.stageFirstIndex = stageFirstIndex := by rw [hshape]
      have hoffs : s.segmentOffset = segmentOffset := by rw [hshape]
      obtain ⟨⟨s₁, u, r⟩, hnext⟩ := nextJob_in_bounds hnew hoff
        (fun j f hf => hoff.trans (hlow j f hf)) hgap
        (fun k hk => let ⟨_, hb⟩ := hrange k hk; ⟨_, hb⟩) hr
      rcases round hq hw (hsfi ▸ hmono) (hfirst ▸ hsfi ▸ hlow) (hfirst ▸ hoffs ▸ hoff) range hnext
        with ⟨hlast, hru, s', hmerge, hq', hlt⟩ | ⟨rfl, rfl, hdone⟩
      · obtain ⟨b, hb⟩ := hrange _ (hlastI ▸ hlast)
        obtain rfl : r = some b := Except.ok.inj (hru.symm.trans hb)
        have hs' : Reachable range s s' := (Rounds.round hnext hmerge (.done s')).reachable
        obtain ⟨s'', hs'', hall, hend⟩ := ih _ (hn ▸ hlt) hq' (hr.trans hs') rfl
        exact ⟨s'', .round hnext hmerge hs'', hall, hend⟩
      · refine ⟨s, .done s, fun v f hf hfv hv => hdone v (mem_box.mpr
          ⟨?_, hlastI ▸ hv, f, hsfi ▸ hf, hfv⟩), s₁, hnext⟩
        rw [hfirst]
        exact (hlow v.stage f hf).trans hfv

/-- **The scheduler completes every unit when the stages start in order.** From what
`NewStages` builds, when no stage starts after a higher one nor before the segmenter's first
index, that index is at most one segment past the offset, and the segmenter gives a range for
every segment up to its last index: from every reachable state, whatever is in flight, a
worker completes every unit of every stage, from the stage's first segment to the segmenter's
last index. It first moves the units in flight alone, until nothing is in flight, and then
takes rounds: a `NextJob` call that hands out a unit with its range, then that unit's partial
store, merge and completion, before the next call. At the end one more call hands out
nothing, `Unit{}` and `nil`. -/
theorem completes_all {range : Nat → Except Panic (Option BlockRange)}
    {firstIndex lastIndex segmentOffset : Nat} {firstIndexAt : Nat → Nat}
    {mods : List StagedModules} {storeConfigs : Option (List String)} {s₀ s : Stages}
    (hnew : newStages firstIndex lastIndex segmentOffset firstIndexAt mods storeConfigs = .ok s₀)
    (hmono : ∀ i j fi fj : Nat, i < j → s₀.stageFirstIndex[i]? = some fi →
      s₀.stageFirstIndex[j]? = some fj → fi ≤ fj)
    (hlow : ∀ j fj : Nat, s₀.stageFirstIndex[j]? = some fj → firstIndex ≤ fj)
    (hoff : segmentOffset ≤ firstIndex) (hgap : firstIndex ≤ segmentOffset + 1)
    (hrange : ∀ k ≤ lastIndex, ∃ b, range k = .ok (some b)) (hr : Reachable range s₀ s) :
    ∃ sq s', Relation.ReflTransGen Transition s sq ∧ sq.Quiescent ∧ Rounds range sq s' ∧
      (∀ u : Unit, ∀ f, s₀.stageFirstIndex[u.stage]? = some f → f ≤ u.segment →
        u.segment ≤ lastIndex → s'.getState u = .ok .completed) ∧
      ∃ s'', s'.nextJob range = .ok (s'', ⟨0, 0⟩, none) := by
  obtain ⟨l, rfl⟩ := newStages_eq hnew
  obtain ⟨sq, hrq, hq⟩ := drain _ s (hr.startsInOrder rfl hmono hlow hoff) rfl
  obtain ⟨s', hs', hall, hend⟩ := completes_all_of_quiescent hnew hmono hlow hoff hgap hrange
    (hr.trans (.of_transitions hrq)) hq
  exact ⟨sq, s', hrq, hq, hs', hall, hend⟩

/-- Two stages from segment `0`, over segments `0` and `1`, from what `NewStages` builds, once
`NextJob` has scheduled unit `(0, 1)`, still in flight. -/
theorem completes_all_two_stages :
    let range : Nat → Except Panic (Option BlockRange) := fun k => .ok (some ⟨k * 10, k * 10 + 10⟩)
    newStages 0 1 0 (· / 10) [⟨.store, [⟨"a", 0⟩]⟩, ⟨.store, [⟨"b", 0⟩]⟩] none =
        .ok ⟨0, 1, [0, 0], [], 0⟩ ∧
      Stages.Reachable range ⟨0, 1, [0, 0], [], 0⟩
        ⟨0, 1, [0, 0], [[.pending, .scheduled], [.pending, .pending]], 0⟩ ∧
      ∃ sq s', Relation.ReflTransGen Stages.Transition
          ⟨0, 1, [0, 0], [[.pending, .scheduled], [.pending, .pending]], 0⟩ sq ∧ sq.Quiescent ∧
        Stages.Rounds range sq s' ∧
        (∀ u : Unit, ∀ f, [0, 0][u.stage]? = some f → f ≤ u.segment → u.segment ≤ 1 →
          s'.getState u = .ok .completed) ∧
        ∃ s'', s'.nextJob range = .ok (s'', ⟨0, 0⟩, none) := by
  intro range
  have hmono : ∀ i j fi fj : Nat, i < j → [0, 0][i]? = some fi → [0, 0][j]? = some fj → fi ≤ fj :=
    fun _ _ _ _ _ hi _ => by
      rcases List.mem_pair.mp (List.getElem?_mem hi) with rfl | rfl <;> exact Nat.zero_le _
  have hr : Stages.Reachable range ⟨0, 1, [0, 0], [], 0⟩
      ⟨0, 1, [0, 0], [[.pending, .scheduled], [.pending, .pending]], 0⟩ :=
    .step .start (@Stages.Step.nextJob range _ _ ⟨0, 1⟩ (some ⟨0, 10⟩) (by decide))
  exact ⟨by decide, hr, @completes_all range 0 1 0 (· / 10)
    [⟨.store, [⟨"a", 0⟩]⟩, ⟨.store, [⟨"b", 0⟩]⟩] none _ _ (by decide) hmono
    (fun _ _ _ => Nat.zero_le _) le_rfl (Nat.zero_le 1) (fun _ _ => ⟨_, rfl⟩) hr⟩

/-! ## Each unit once -/

/-- Every job `NextJob` hands out on a run is a unit of the box. -/
theorem Stages.Run.mem_box {range : Nat → Except Panic (Option BlockRange)} {s₀ s : Stages} {H : List Unit}
    (h : Run range s₀ s H) : ∀ u ∈ H, u ∈ s₀.box := by
  induction h with
  | start => exact fun _ h => absurd h (List.not_mem_nil _)
  | job hrun hnext ih =>
      intro v hv
      rcases List.mem_append.mp hv with hv | hv
      · exact ih v hv
      obtain rfl := List.mem_singleton.mp hv
      obtain ⟨m, ⟨hqu, h1, h2, -⟩ | ⟨-, -, -, ⟨⟩⟩⟩ := nextJob_spec range hnext
      obtain ⟨f, hfg, hfu⟩ := hqu.2.1
      exact hrun.sameShape.box_eq ▸ Stages.mem_box.mpr ⟨h1, h2, f, goIndex_natCast.mp hfg, hfu⟩
  | idle _ _ ih | move _ _ ih => exact ih

/-- **Each unit of the box once.** On a run from a matrix where nothing has started, with a
range for every segment up to the last index, that ends with every unit of the box completed,
the jobs `NextJob` has handed out are the units of the box, each exactly once: none is
skipped, none is handed out twice, and none lies outside the box. -/
theorem Stages.Run.handed_out_perm_box {range : Nat → Except Panic (Option BlockRange)} {s₀ s : Stages}
    {H : List Unit} (h : Run range s₀ s H) (h₀ : ∀ v, ¬ s₀.Started v)
    (hrange : ∀ k ≤ s₀.lastIndex, range k ≠ .ok none)
    (hdone : ∀ v ∈ s₀.box, s.getState v = .ok .completed) : H.Perm s₀.box :=
  (List.perm_ext_iff_of_nodup h.handed_out.1 (box_nodup s₀)).mpr fun v =>
    ⟨h.mem_box v, fun hv => h.started_mem h₀ hrange ⟨_, hdone v hv, by decide⟩⟩

/-- One stage over segments `0` and `1`: `NextJob` hands out unit `(0, 0)`, which is written,
merged and completed, and then unit `(1, 0)`, which is too. -/
theorem handed_out_perm_box_two_segments :
    let range : Nat → Except Panic (Option BlockRange) := fun k => .ok (some ⟨k * 10, k * 10 + 10⟩)
    Stages.Run range ⟨0, 1, [0], [], 0⟩ ⟨0, 1, [0], [[.completed], [.completed]], 0⟩
        [⟨0, 0⟩, ⟨1, 0⟩] ∧
      (∀ v ∈ (⟨0, 1, [0], [], 0⟩ : Stages).box,
        (⟨0, 1, [0], [[.completed], [.completed]], 0⟩ : Stages).getState v = .ok .completed) ∧
      ([⟨0, 0⟩, ⟨1, 0⟩] : List Unit).Perm (⟨0, 1, [0], [], 0⟩ : Stages).box := by
  intro range
  have hfirst : Stages.Run range ⟨0, 1, [0], [], 0⟩ ⟨0, 1, [0], [[.completed], [.pending]], 0⟩
      [⟨0, 0⟩] :=
    .move (.move (.move (@Stages.Run.job range _ _ _ ⟨0, 0⟩ ⟨0, 10⟩ [] .start (by decide))
      (@Transition.partialPresent ⟨0, 1, [0], [[.scheduled], [.pending]], 0⟩
        ⟨0, 1, [0], [[.partialPresent], [.pending]], 0⟩ ⟨0, 0⟩ (by decide) (by decide)))
      (@Transition.merging _ ⟨0, 1, [0], [[.merging], [.pending]], 0⟩ ⟨0, 0⟩
        (by decide) (by decide)))
      (@Transition.completed _ _ ⟨0, 0⟩ (by decide) (.inl rfl) (by decide))
  have hrun : Stages.Run range ⟨0, 1, [0], [], 0⟩ ⟨0, 1, [0], [[.completed], [.completed]], 0⟩
      [⟨0, 0⟩, ⟨1, 0⟩] :=
    .move (.move (.move (@Stages.Run.job range _ _ _ ⟨1, 0⟩ ⟨10, 20⟩ _ hfirst (by decide))
      (@Transition.partialPresent ⟨0, 1, [0], [[.completed], [.scheduled]], 0⟩
        ⟨0, 1, [0], [[.completed], [.partialPresent]], 0⟩ ⟨1, 0⟩ (by decide) (by decide)))
      (@Transition.merging _ ⟨0, 1, [0], [[.completed], [.merging]], 0⟩ ⟨1, 0⟩
        (by decide) (by decide)))
      (@Transition.completed _ _ ⟨1, 0⟩ (by decide) (.inr (by decide)) (by decide))
  have hdone : ∀ v ∈ (⟨0, 1, [0], [], 0⟩ : Stages).box,
      (⟨0, 1, [0], [[.completed], [.completed]], 0⟩ : Stages).getState v = .ok .completed := by
    decide
  exact ⟨hrun, hdone, Stages.Run.handed_out_perm_box hrun (not_started_of_nil rfl)
    (fun _ _ h => Option.noConfusion (Except.ok.inj h)) hdone⟩

end Substreams.Stage
