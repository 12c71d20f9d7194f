import Substreams.Stage.NextJob

set_option autoImplicit false

/-! # Dependencies between stages

`dependenciesCompleted` is how `NextJob` keeps a stage from running ahead of the stores of
the stages below it: a unit waits until every lower stage of the previous segment has
completed. When the stages' partials are merged in order, so that a stage's completed units
run without gap from its first segment (`CompletedInOrder`, kept by every step), that is
enough past a unit's own first segment: every lower stage is then completed from its own
first segment up to the unit (`nextJob_waits_for_lower_stages`). The columns `NewStages`
starts from, and its panics on a stage with no module or a module with no store config, are
given in closed form (`newStages_spec`).

Two cases do not fit stages that start at different blocks. At or before its own stage's
first segment a unit has no dependencies at all, even when a lower stage started earlier and
has not completed the segments before it (`nextJob_skips_lower_stages`). And after its
stage's first segment a unit waits for the lower stages of the previous segment even when
that segment lies before a lower stage's first segment, where `NextJob` schedules nothing:
the unit waits forever, and the scheduler stops with work left
(`lower_stage_started_later_deadlocks`).

Both runs start from what `NewStages` builds for two store stages whose modules start at
blocks `0` and `20`, with an interval of `10`: a segmenter moved to block `b` has first
index `b / 10`.
-/

namespace Substreams.Stage

open Substreams.Block

namespace Stages

/-! ## Merges in order -/

/-- The partials of each stage are merged in order: a completed unit is at its stage's first
segment, or the unit before it in its stage is completed. -/
def CompletedInOrder (s : Stages) : Prop :=
  ∀ u : Unit, s.getState u = .ok .completed →
    s.stageFirstIndex[u.stage]? = some u.segment ∨
      s.getState ⟨u.segment - 1, u.stage⟩ = .ok .completed

/-- What `NewStages` builds: the segmenter's indices, the stages' first indices, no rows, and
the offset. -/
theorem newStages_eq {firstIndex lastIndex segmentOffset : Nat}
    {firstIndexAt : Nat → Nat} {mods : List StagedModules} {storeConfigs : Option (List String)} {s : Stages}
    (h : newStages firstIndex lastIndex segmentOffset firstIndexAt mods storeConfigs = .ok s) :
    ∃ l, s = ⟨firstIndex, lastIndex, l, [], segmentOffset⟩ := by
  obtain ⟨l, -, h⟩ := bind_eq_ok.mp h
  exact ⟨l, (Except.ok.inj h).symm⟩

theorem newStages_segmentStates {firstIndex lastIndex segmentOffset : Nat}
    {firstIndexAt : Nat → Nat} {mods : List StagedModules} {storeConfigs : Option (List String)} {s : Stages}
    (h : newStages firstIndex lastIndex segmentOffset firstIndexAt mods storeConfigs = .ok s) :
    s.segmentStates = [] := by
  obtain ⟨l, rfl⟩ := newStages_eq h
  rfl

/-- The stages `NewStages` gives a column, in order, from stage `idx` on: all but a map stage
that is not the last. -/
def keptStages (lastStage idx : Nat) (stagedModules : List StagedModules) : List StagedModules :=
  ((List.range' idx stagedModules.length).zip stagedModules).filterMap fun p =>
    if p.2.kind = .map ∧ p.1 ≠ lastStage then none else some p.2

/-- The first index of a kept stage: that of its lowest module initial block. -/
def stageFirstIndexOf (firstIndexAt : Nat → Nat) (mods : StagedModules) : Nat :=
  firstIndexAt (mods.initialBlocks.foldl min (mods.initialBlocks.headD 0))

theorem keptStages_cons (lastStage idx : Nat) (mods : StagedModules) (rest : List StagedModules) :
    keptStages lastStage idx (mods :: rest) =
      (if mods.kind = .map ∧ idx ≠ lastStage then [] else [mods]) ++
        keptStages lastStage (idx + 1) rest := by
  simp only [keptStages, List.length_cons, List.range'_succ, List.zip_cons_cons]
  by_cases h : mods.kind = .map ∧ idx ≠ lastStage <;> simp [h]

/-- The panic `NewStages` meets at a kept stage, if any: `mods[0]` out of range on a stage with
no module, and otherwise the missing store config of its first module that has none. -/
def stagePanic (storeConfigs : Option (List String)) (mods : StagedModules) : Option Panic :=
  match mods.modules with
  | [] => some (.indexOutOfRange 0 0)
  | ms => (ms.find? fun m => storeConfigMissing storeConfigs m.name).map fun m =>
      .message ("store config not found: " ++ m.name)

/-- The loop over a stage's modules in closed form: the first module with no store config
panics, and otherwise the lowest initial block is the least of `lowest` and the modules'. -/
theorem moduleLoop_eq (storeConfigs : Option (List String)) :
    ∀ (lowest : Nat) (ms : List Module),
      moduleLoop storeConfigs lowest ms =
        match ms.find? fun m => storeConfigMissing storeConfigs m.name with
        | some m => .error (.message ("store config not found: " ++ m.name))
        | none => .ok ((ms.map (·.initialBlock)).foldl min lowest)
  | _, [] => rfl
  | lowest, m :: ms => by
      rw [moduleLoop, List.find?_cons]
      cases storeConfigMissing storeConfigs m.name
      · exact (if_neg Bool.false_ne_true).trans (moduleLoop_eq storeConfigs _ ms)
      · exact if_pos rfl

theorem lowestInitBlock_eq (storeConfigs : Option (List String)) (mods : StagedModules) :
    lowestInitBlock storeConfigs mods.modules =
      match stagePanic storeConfigs mods with
      | some p => .error p
      | none => .ok (mods.initialBlocks.foldl min (mods.initialBlocks.headD 0)) := by
  obtain ⟨kind, _ | ⟨m, ms⟩⟩ := mods
  · rfl
  · rw [lowestInitBlock, moduleLoop_eq]
    dsimp only [stagePanic]
    cases (m :: ms).find? fun m => storeConfigMissing storeConfigs m.name <;> rfl

/-- The loop of `NewStages` in closed form: it panics as the first kept stage that fails
does, and otherwise gives each kept stage its first index. -/
theorem newStagesLoop_eq (firstIndexAt : Nat → Nat) (storeConfigs : Option (List String))
    (lastStage : Nat) :
    ∀ (idx : Nat) (stagedModules : List StagedModules),
      newStagesLoop firstIndexAt storeConfigs lastStage idx stagedModules =
        match (keptStages lastStage idx stagedModules).findSome? (stagePanic storeConfigs) with
        | some p => .error p
        | none => .ok ((keptStages lastStage idx stagedModules).map (stageFirstIndexOf firstIndexAt))
  | _, [] => rfl
  | idx, mods :: rest => by
      have ih := newStagesLoop_eq firstIndexAt storeConfigs lastStage (idx + 1) rest
      rw [newStagesLoop, keptStages_cons]
      split
      · rw [List.nil_append, ih]
      · rw [List.singleton_append, List.findSome?_cons, lowestInitBlock_eq]
        cases stagePanic storeConfigs mods with
        | some p => rfl
        | none =>
            rw [ok_bind, ih]
            cases (keptStages lastStage (idx + 1) rest).findSome? (stagePanic storeConfigs) <;> rfl

/-- **What `NewStages` builds.** It panics exactly when a stage it keeps has no module or,
store configs being given, a module with no config, with the panic of the first such stage:
`mods[0]` out of range, or `"store config not found: "` and the name of the stage's first
module with no config. Otherwise it has one column per stage but the map stages before the
last, in order, each at the first index of its lowest module initial block, and no rows. -/
theorem newStages_spec (firstIndex lastIndex segmentOffset : Nat) (firstIndexAt : Nat → Nat)
    (stagedModules : List StagedModules) (storeConfigs : Option (List String)) :
    newStages firstIndex lastIndex segmentOffset firstIndexAt stagedModules storeConfigs =
      let kept := keptStages (stagedModules.length - 1) 0 stagedModules
      match kept.findSome? (stagePanic storeConfigs) with
      | some p => .error p
      | none =>
          .ok ⟨firstIndex, lastIndex, kept.map (stageFirstIndexOf firstIndexAt), [], segmentOffset⟩ := by
  rw [newStages, newStagesLoop_eq]
  dsimp only
  split <;> rfl

example : newStages 0 1 0 (· / 10) [⟨.map, [⟨"m", 0⟩]⟩, ⟨.store, [⟨"a", 0⟩, ⟨"b", 20⟩]⟩]
    (some ["a"]) = .error (.message "store config not found: b") := by decide

theorem completedInOrder_of_nil {s : Stages} (h : s.segmentStates = []) : s.CompletedInOrder := by
  intro u hu
  obtain ⟨states, hrow, -⟩ := bind_eq_ok.mp hu
  rw [h, goIndex_eq_ok] at hrow
  simp at hrow

theorem grown_completed_iff {s : Stages} {m : Nat} (v : Unit) :
    (s.grown m).getState v = .ok .completed ↔ s.getState v = .ok .completed :=
  ⟨fun h => (getState_of_grown h).resolve_right (by decide), fun h => getState_grown h m⟩

/-- Writing a cell that neither was nor becomes completed keeps the completed cells. -/
theorem completed_iff_of_setState {s s' : Stages} {u : Unit} {x : UnitState}
    (h : s.setState u x = .ok s') (hx : x ≠ .completed) (hu : s.getState u ≠ .ok .completed)
    (v : Unit) : s'.getState v = .ok .completed ↔ s.getState v = .ok .completed := by
  rw [setState_getState h]
  split
  · rename_i hv
    subst hv
    exact ⟨fun h' => absurd (Except.ok.inj h') hx, fun h' => absurd h' hu⟩
  · rfl

theorem CompletedInOrder.of_completed_iff {s s' : Stages} (hinv : s.CompletedInOrder)
    (hfirst : s'.stageFirstIndex = s.stageFirstIndex)
    (hiff : ∀ v, s'.getState v = .ok .completed ↔ s.getState v = .ok .completed) :
    s'.CompletedInOrder := fun u hu => by
  rw [hfirst, hiff]
  exact hinv u ((hiff u).mp hu)

/-- Completing a unit whose predecessor in its stage is completed keeps the order. -/
theorem CompletedInOrder.setState_completed {s s' : Stages} {u : Unit} (hinv : s.CompletedInOrder)
    (hguard : s.stageFirstIndex[u.stage]? = some u.segment ∨
      s.getState ⟨u.segment - 1, u.stage⟩ = .ok .completed)
    (h : s.setState u .completed = .ok s') : s'.CompletedInOrder := by
  intro v hv
  have hprev : s.getState ⟨v.segment - 1, v.stage⟩ = .ok .completed →
      s'.getState ⟨v.segment - 1, v.stage⟩ = .ok .completed := fun hc => by
    rw [setState_getState h]
    split
    · rfl
    · exact hc
  rw [setState_stageFirstIndex h]
  rw [setState_getState h] at hv
  split at hv
  · rename_i hvu
    subst hvu
    exact hguard.imp_right hprev
  · exact (hinv v hv).imp_right hprev

/-- `NextJob` completes nothing and keeps the first segments. -/
theorem CompletedInOrder.nextJob {range : Nat → Except Panic (Option BlockRange)} {s s' : Stages} {u : Unit}
    {r : Option BlockRange} (hinv : s.CompletedInOrder) (h : s.nextJob range = .ok (s', u, r)) :
    s'.CompletedInOrder := by
  have hg : ∀ m, (s.grown m).CompletedInOrder := fun m => hinv.of_completed_iff rfl grown_completed_iff
  obtain ⟨m, ⟨⟨hp, -⟩, -, -, -, -, -, -, hm, -⟩ | ⟨-, rfl, -, -⟩⟩ := nextJob_spec range h
  · exact (hg m).of_completed_iff (setState_stageFirstIndex hm)
      (completed_iff_of_setState hm (by decide) (by rw [hp]; exact fun h => nomatch h))
  · exact hg m

theorem CompletedInOrder.transition {s s' : Stages} (hinv : s.CompletedInOrder)
    (h : Transition s s') : s'.CompletedInOrder := by
  cases h with
  | partialPresent hu hset | merging hu hset =>
      exact hinv.of_completed_iff (setState_stageFirstIndex hset)
        (completed_iff_of_setState hset (by decide) (by rw [hu]; exact fun h => nomatch h))
  | completed _ hguard hset => exact hinv.setState_completed hguard hset

/-- **Every step keeps the merges in order.** -/
theorem Reachable.completedInOrder {range : Nat → Except Panic (Option BlockRange)} {s₀ s : Stages}
    (h : Reachable range s₀ s) (h₀ : s₀.CompletedInOrder) : s.CompletedInOrder := by
  induction h with
  | start => exact h₀
  | step _ hstep ih =>
      cases hstep with
      | nextJob h => exact ih.nextJob h
      | transition t => exact ih.transition t

/-- With merges in order, a completed unit has its stage completed from the stage's first
segment up to it. -/
theorem CompletedInOrder.down {s : Stages} (hinv : s.CompletedInOrder) {st f : Nat}
    (hf : s.stageFirstIndex[st]? = some f) :
    ∀ {j k : Nat}, s.getState ⟨j, st⟩ = .ok .completed → f ≤ k → k ≤ j →
      s.getState ⟨k, st⟩ = .ok .completed
  | 0, k, hj, _, hk => by rwa [Nat.le_zero.mp hk]
  | j + 1, k, hj, hfk, hk => by
      rcases Nat.lt_or_eq_of_le hk with hk | rfl
      · have h' := hinv ⟨j + 1, st⟩ hj
        simp only [Nat.add_sub_cancel] at h'
        rcases h' with hfirst | hprev
        · have : f = j + 1 := Option.some_inj.mp (hf.symm.trans hfirst)
          omega
        · exact hinv.down hf hprev hfk (by omega)
      · exact hj

/-! ## What `dependenciesCompleted` reads -/

theorem lowerStagesCompleted_eq_true {s : Stages} {segment : Nat} :
    ∀ {i : Nat}, s.lowerStagesCompleted segment i = .ok true →
      ∀ j < i, s.getState ⟨segment, j⟩ = .ok .completed
  | 0, _, _, hj => absurd hj (Nat.not_lt_zero _)
  | i + 1, h, j, hj => by
      obtain ⟨x, hx, h⟩ := bind_eq_ok.mp h
      split at h
      · cases h
      · rename_i hxc
        rcases Nat.lt_succ_iff_lt_or_eq.mp hj with hj | rfl
        · exact lowerStagesCompleted_eq_true h j hj
        · rwa [not_not.mp hxc] at hx

/-- Past its stage's first segment, a unit's dependencies are the lower stages of the
segment before it. -/
theorem dependenciesCompleted_eq_true {s : Stages} {u : Unit} {f : Nat}
    (h : s.dependenciesCompleted u = .ok true) (hf : s.stageFirstIndex[u.stage]? = some f)
    (hlt : f < u.segment) : ∀ j < u.stage, s.getState ⟨u.segment - 1, j⟩ = .ok .completed := by
  obtain ⟨first, hfirst, h⟩ := bind_eq_ok.mp h
  rw [goIndex_natCast, hf, Option.some_inj] at hfirst
  subst hfirst
  rw [if_neg (by omega)] at h
  split at h
  · intro j hj
    omega
  · exact lowerStagesCompleted_eq_true h

/-! ## Units in flight -/

/-- No unit is in flight: every cell is pending or completed. -/
def Quiescent (s : Stages) : Prop :=
  ∀ row ∈ s.segmentStates, ∀ x ∈ row, x = .pending ∨ x = .completed

instance (s : Stages) : Decidable s.Quiescent :=
  inferInstanceAs (Decidable (∀ row ∈ s.segmentStates, ∀ x ∈ row, x = .pending ∨ x = .completed))

theorem getState_mem {s : Stages} {u : Unit} {x : UnitState} (h : s.getState u = .ok x) :
    ∃ row ∈ s.segmentStates, x ∈ row := by
  obtain ⟨states, hrow, hcol⟩ := bind_eq_ok.mp h
  exact ⟨states, List.getElem?_mem (goIndex_eq_ok.mp hrow).2,
    List.getElem?_mem (goIndex_eq_ok.mp hcol).2⟩

/-- Every move starts from a unit in flight, so a quiescent matrix has none. -/
theorem Quiescent.not_transition {s s' : Stages} (hq : s.Quiescent) : ¬ Transition s s' := by
  have key : ∀ {u : Unit} {x : UnitState}, s.getState u = .ok x → x = .pending ∨ x = .completed :=
    fun h => let ⟨row, hrow, hx⟩ := getState_mem h; hq row hrow _ hx
  rintro (⟨h, -⟩ | ⟨h, -⟩ | ⟨h, -, -⟩) <;> rcases key h with h | h <;> cases h

/-- A quiescent matrix on which `NextJob` schedules nothing never changes again. -/
theorem Quiescent.stuck {range : Nat → Except Panic (Option BlockRange)} {s s' : Stages} {u : Unit}
    (hq : s.Quiescent) (h : s.nextJob range = .ok (s, u, none)) (hr : Reachable range s s') :
    s' = s := by
  induction hr with
  | start => rfl
  | step _ hstep ih =>
      subst ih
      cases hstep with
      | nextJob h' =>
          rw [h] at h'
          exact (congrArg Prod.fst (Except.ok.inj h')).symm
      | transition t => exact absurd t hq.not_transition

end Stages

open Stages

/-- **Past its stage's first segment, `NextJob` waits for the lower stages.** On every run
from what `NewStages` builds, with in-order merges, when `NextJob` hands out a unit after its
stage's first segment, every lower stage is completed from its own first segment up to the
segment before the unit's. -/
theorem nextJob_waits_for_lower_stages {range : Nat → Except Panic (Option BlockRange)}
    {firstIndex lastIndex segmentOffset : Nat} {firstIndexAt : Nat → Nat}
    {mods : List StagedModules} {storeConfigs : Option (List String)} {s₀ s s' : Stages} {u : Unit} {b : BlockRange} {f : Nat}
    (hnew : newStages firstIndex lastIndex segmentOffset firstIndexAt mods storeConfigs = .ok s₀)
    (hr : Reachable range s₀ s) (h : s.nextJob range = .ok (s', u, some b))
    (hf : s.stageFirstIndex[u.stage]? = some f) (hlt : f < u.segment) {st k f' : Nat}
    (hst : st < u.stage) (hf' : s.stageFirstIndex[st]? = some f') (hk : f' ≤ k)
    (hku : k < u.segment) : s.getState ⟨k, st⟩ = .ok .completed := by
  have hinv := hr.completedInOrder (completedInOrder_of_nil (newStages_segmentStates hnew))
  obtain ⟨m, ⟨⟨-, -, hd⟩, -⟩ | ⟨-, -, -, hnil⟩⟩ := nextJob_spec range h
  · have hlower := dependenciesCompleted_eq_true hd hf hlt st hst
    exact hinv.down hf' ((grown_completed_iff _).mp hlower) hk (by omega)
  · cases hnil

/-- Two stages from segment 0: once unit `(0, 0)` of the lower stage has been merged,
`NextJob` hands out unit `(1, 1)`, and unit `(0, 0)` is completed. -/
theorem nextJob_waits_after_merge :
    let range : Nat → Except Panic (Option BlockRange) := fun k => .ok (some ⟨k * 10, k * 10 + 10⟩)
    let s : Stages := ⟨0, 1, [0, 0], [[.completed, .scheduled], [.pending, .pending]], 0⟩
    newStages 0 1 0 (· / 10) [⟨.store, [⟨"a", 0⟩]⟩, ⟨.store, [⟨"b", 0⟩]⟩] none = .ok ⟨0, 1, [0, 0], [], 0⟩ ∧
      Stages.Reachable range ⟨0, 1, [0, 0], [], 0⟩ s ∧
      s.nextJob range = .ok (⟨0, 1, [0, 0], [[.completed, .scheduled], [.pending, .scheduled]], 0⟩,
        ⟨1, 1⟩, some ⟨10, 20⟩) ∧
      s.getState ⟨0, 0⟩ = .ok .completed := by
  intro range s
  have hnew : newStages 0 1 0 (· / 10) [⟨.store, [⟨"a", 0⟩]⟩, ⟨.store, [⟨"b", 0⟩]⟩] none =
      .ok ⟨0, 1, [0, 0], [], 0⟩ := by decide
  have hr : Stages.Reachable range ⟨0, 1, [0, 0], [], 0⟩ s :=
    .step (.step (.step (.step (.step .start
      (@Stages.Step.nextJob range _ ⟨0, 1, [0, 0], [[.pending, .scheduled], [.pending, .pending]], 0⟩
        ⟨0, 1⟩ (some ⟨0, 10⟩) (by decide)))
      (@Stages.Step.nextJob range _ ⟨0, 1, [0, 0], [[.scheduled, .scheduled], [.pending, .pending]], 0⟩
        ⟨0, 0⟩ (some ⟨0, 10⟩) (by decide)))
      (.transition (@Stages.Transition.partialPresent _
        ⟨0, 1, [0, 0], [[.partialPresent, .scheduled], [.pending, .pending]], 0⟩ ⟨0, 0⟩
        (by decide) (by decide))))
      (.transition (@Stages.Transition.merging _
        ⟨0, 1, [0, 0], [[.merging, .scheduled], [.pending, .pending]], 0⟩ ⟨0, 0⟩
        (by decide) (by decide))))
      (.transition (@Stages.Transition.completed _ s ⟨0, 0⟩ (by decide) (Or.inl rfl) (by decide)))
  have h : s.nextJob range = .ok (⟨0, 1, [0, 0], [[.completed, .scheduled], [.pending, .scheduled]], 0⟩,
      ⟨1, 1⟩, some ⟨10, 20⟩) := by decide
  exact ⟨hnew, hr, h, @nextJob_waits_for_lower_stages range 0 1 0 (· / 10) _ _ _ s _ ⟨1, 1⟩ ⟨10, 20⟩ 0
    hnew hr h (by decide) (by decide) 0 0 0 (by decide) (by decide) le_rfl (by decide)⟩

/-- Stage 0 starts at segment 0 and stage 1 at segment 2. After two calls, `NextJob` hands
out unit `(2, 1)` while units `(0, 0)` and `(1, 0)` of the lower stage are only
scheduled. -/
theorem nextJob_skips_lower_stages :
    newStages 0 3 0 (· / 10) [⟨.store, [⟨"a", 0⟩]⟩, ⟨.store, [⟨"b", 20⟩]⟩] none = .ok ⟨0, 3, [0, 2], [], 0⟩ ∧
      let range : Nat → Except Panic (Option BlockRange) := fun k => .ok (some ⟨k * 10, k * 10 + 10⟩)
      let s₂ : Stages := ⟨0, 3, [0, 2], [[.scheduled, .pending], [.scheduled, .pending]], 0⟩
      Stages.Reachable range ⟨0, 3, [0, 2], [], 0⟩ s₂ ∧
        (s₂.nextJob range).map (fun p => p.2.1) = .ok ⟨2, 1⟩ ∧
        s₂.getState ⟨0, 0⟩ = .ok .scheduled ∧ s₂.getState ⟨1, 0⟩ = .ok .scheduled := by
  refine ⟨by decide, ?_⟩
  intro range s₂
  refine ⟨.step (.step .start (@Stages.Step.nextJob range _
      ⟨0, 3, [0, 2], [[.scheduled, .pending], [.pending, .pending]], 0⟩ ⟨0, 0⟩
      (some ⟨0, 10⟩) (by decide))) (@Stages.Step.nextJob range _ s₂ ⟨1, 0⟩ (some ⟨10, 20⟩)
      (by decide)), by decide, by decide, by decide⟩

/-- Stage 0 starts at segment 2 and stage 1 at segment 0. Once units `(0, 1)` and `(2, 0)`
have been scheduled and merged, nothing is in flight and unit `(1, 1)` is still pending,
but it waits for unit `(0, 0)`, which lies before stage 0's first segment: `NextJob`
returns no job, and no step changes the matrix again. -/
theorem lower_stage_started_later_deadlocks :
    newStages 0 2 0 (· / 10) [⟨.store, [⟨"a", 20⟩]⟩, ⟨.store, [⟨"b", 0⟩]⟩] none = .ok ⟨0, 2, [2, 0], [], 0⟩ ∧
      let range : Nat → Except Panic (Option BlockRange) := fun k => .ok (some ⟨k * 10, k * 10 + 10⟩)
      let s : Stages := ⟨0, 2, [2, 0], [[.pending, .completed], [.pending, .pending],
        [.completed, .pending], [.pending, .pending]], 0⟩
      Stages.Reachable range ⟨0, 2, [2, 0], [], 0⟩ s ∧ s.Quiescent ∧
        s.getState ⟨1, 1⟩ = .ok .pending ∧ s.nextJob range = .ok (s, ⟨0, 0⟩, none) ∧
        ∀ s', Stages.Reachable range s s' → s' = s := by
  refine ⟨by decide, ?_⟩
  intro range s
  have first : Stages.Reachable range ⟨0, 2, [2, 0], [], 0⟩
      ⟨0, 2, [2, 0], [[.pending, .completed], [.pending, .pending]], 0⟩ :=
    .step (.step (.step (.step .start
      (@Stages.Step.nextJob range _ ⟨0, 2, [2, 0], [[.pending, .scheduled], [.pending, .pending]], 0⟩
        ⟨0, 1⟩ (some ⟨0, 10⟩) (by decide)))
      (.transition (@Stages.Transition.partialPresent _
        ⟨0, 2, [2, 0], [[.pending, .partialPresent], [.pending, .pending]], 0⟩ ⟨0, 1⟩
        (by decide) (by decide))))
      (.transition (@Stages.Transition.merging _
        ⟨0, 2, [2, 0], [[.pending, .merging], [.pending, .pending]], 0⟩ ⟨0, 1⟩
        (by decide) (by decide))))
      (.transition (@Stages.Transition.completed _ _ ⟨0, 1⟩ (by decide) (Or.inl rfl) (by decide)))
  have hq : s.Quiescent := by decide
  have hnone : s.nextJob range = .ok (s, ⟨0, 0⟩, none) := by decide
  refine ⟨.step (.step (.step (.step first
      (@Stages.Step.nextJob range _ ⟨0, 2, [2, 0], [[.pending, .completed], [.pending, .pending],
        [.scheduled, .pending], [.pending, .pending]], 0⟩ ⟨2, 0⟩ (some ⟨20, 30⟩) (by decide)))
      (.transition (@Stages.Transition.partialPresent _
        ⟨0, 2, [2, 0], [[.pending, .completed], [.pending, .pending],
          [.partialPresent, .pending], [.pending, .pending]], 0⟩ ⟨2, 0⟩ (by decide) (by decide))))
      (.transition (@Stages.Transition.merging _
        ⟨0, 2, [2, 0], [[.pending, .completed], [.pending, .pending],
          [.merging, .pending], [.pending, .pending]], 0⟩ ⟨2, 0⟩ (by decide) (by decide))))
      (.transition (@Stages.Transition.completed _ s ⟨2, 0⟩ (by decide) (Or.inl rfl) (by decide))),
    hq, by decide, hnone, fun _ => hq.stuck hnone⟩

end Substreams.Stage
