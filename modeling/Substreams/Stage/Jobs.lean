import Substreams.Stage.Progress
import Substreams.Block.Segmenter

set_option autoImplicit false

/-! # The jobs `NextJob` hands out

Over a run, `NextJob` hands each unit out at most once (`Stages.Run.handed_out`). Two things
follow for the work itself.

No unit starts without a job, and none is handed out twice: from a matrix where nothing has
started, as `NewStages` leaves it, the units that have left `pending` are exactly the units
handed out (`Run.started_iff_handed_out`). That needs a range for every segment up to the
segmenter's last index. Where `Range` gives `nil`, `NextJob` still marks the unit scheduled
but returns `nil` with it, and the unit has started with no job to run it.

The jobs of one stage never share a block. When the ranges `NextJob` returns are those of a
segmenter that does not wrap, two units of one stage handed out along a run have disjoint
ranges (`Run.ranges_disjoint`). They are different segments, and `Range` gives disjoint
ranges at different indices (`Segmenter.range_disjoint`).

And between merges the jobs come in the order of the walk, segment by segment and, within a
segment, from the highest stage down (`nextJob_walk_order`): scheduling a unit completes
nothing, so no unit the walk passed over before can qualify at the next call.
-/

namespace Substreams.Stage

open Substreams.Block

namespace Stages

/-! ## What a step keeps -/

theorem Run.sameShape {range : Nat → Except Panic (Option BlockRange)} {s₀ s : Stages} {H : List Unit}
    (h : Run range s₀ s H) : SameShape s₀ s := by
  induction h with
  | start => rfl
  | job _ hnext ih | idle _ hnext ih => exact ih.trans (nextJob_sameShape range hnext)
  | move _ ht ih => exact ih.trans ht.sameShape

/-! ## What starts a unit -/

theorem Started.of_grown {s : Stages} {u : Unit} {m : Nat} (h : (s.grown m).Started u) :
    s.Started u :=
  let ⟨x, hx, hp⟩ := h
  ⟨x, (getState_of_grown hx).resolve_right hp, hp⟩

/-- A move only changes a unit that has started already. -/
theorem Transition.started_of {s s' : Stages} (h : Transition s s') {v : Unit}
    (hv : s'.Started v) : s.Started v := by
  have key : ∀ {u : Unit} {x y : UnitState}, s.getState u = .ok y → y ≠ .pending →
      s.setState u x = .ok s' → s.Started v := fun {u} {x} {y} hy hyp hset => by
    obtain ⟨z, hz, hzp⟩ := hv
    rw [setState_getState hset] at hz
    split at hz
    · rename_i hvu
      exact hvu ▸ ⟨y, hy, hyp⟩
    · exact ⟨z, hz, hzp⟩
  cases h with
  | partialPresent hu hset | merging hu hset | completed hu _ hset => exact key hu (by decide) hset

/-- A unit started after a `NextJob` call was started before, or is the unit the call
scheduled, at a segment up to the last index, and returned with that segment's range. -/
theorem nextJob_started_of (range : Nat → Except Panic (Option BlockRange)) {s s' : Stages} {u : Unit}
    {r : Option BlockRange} (h : s.nextJob range = .ok (s', u, r)) {v : Unit}
    (hv : s'.Started v) : s.Started v ∨ v = u ∧ u.segment ≤ s.lastIndex ∧ range u.segment = .ok r := by
  obtain ⟨m, ⟨-, -, hlast, -, -, -, hframe, -, hr⟩ | ⟨-, rfl, -, -⟩⟩ := nextJob_spec range h
  · by_cases hvu : v = u
    · exact .inr ⟨hvu, hlast, hr⟩
    · obtain ⟨x, hx, hp⟩ := hv
      rw [hframe v hvu] at hx
      exact .inl (Started.of_grown ⟨x, hx, hp⟩)
  · exact .inl hv.of_grown

/-- Along a run from a matrix where nothing has started, with a range for every segment up to
the last index, every started unit has been handed out. -/
theorem Run.started_mem {range : Nat → Except Panic (Option BlockRange)} {s₀ s : Stages} {H : List Unit}
    (h : Run range s₀ s H) (h₀ : ∀ v, ¬ s₀.Started v)
    (hrange : ∀ k ≤ s₀.lastIndex, range k ≠ .ok none) {v : Unit} (hv : s.Started v) : v ∈ H := by
  induction h with
  | start => exact absurd hv (h₀ v)
  | job _ hnext ih =>
      rcases nextJob_started_of _ hnext hv with hv | ⟨rfl, -, -⟩
      · exact List.mem_append_left _ (ih hv)
      · exact List.mem_append_right _ (List.mem_singleton_self _)
  | idle hrun hnext ih =>
      rcases nextJob_started_of _ hnext hv with hv | ⟨-, hlast, hr⟩
      · exact ih hv
      · exact absurd hr (hrange _ (hrun.sameShape.lastIndex_eq ▸ hlast))
  | move _ ht ih => exact ih (ht.started_of hv)

/-- **Work starts only through `NextJob`, once per unit.** From a matrix where nothing has
started, and with a range for every segment up to the segmenter's last index, the units
that have left `pending` at any point of a run are exactly those `NextJob` has handed out,
and it has handed out none twice. -/
theorem Run.started_iff_handed_out {range : Nat → Except Panic (Option BlockRange)} {s₀ s : Stages}
    {H : List Unit} (h : Run range s₀ s H) (h₀ : ∀ v, ¬ s₀.Started v)
    (hrange : ∀ k ≤ s₀.lastIndex, range k ≠ .ok none) :
    H.Nodup ∧ ∀ v, s.Started v ↔ v ∈ H :=
  ⟨h.handed_out.1, fun _ => ⟨h.started_mem h₀ hrange, h.handed_out.2 _⟩⟩

/-- Where `Range` gives `nil`, the call marks the unit scheduled and hands out no job. -/
example : (⟨0, 0, [0], [], 0⟩ : Stages).nextJob (fun _ => .ok none) =
    .ok (⟨0, 0, [0], [[.scheduled], [.pending]], 0⟩, ⟨0, 0⟩, none) := by decide

/-! ## Jobs come in the order of the walk -/

/-- Two different units come one before the other in `NextJob`'s walk. -/
theorem before_or_before {u v : Unit} (h : u ≠ v) : u.Before v ∨ v.Before u := by
  obtain ⟨a, i⟩ := u
  obtain ⟨b, j⟩ := v
  simp only [Unit.Before, ne_eq, Unit.mk.injEq] at *
  omega

/-- A unit that qualifies once another has been scheduled, and the matrix grown, qualified
before: the scheduled unit was not completed, so no dependency has been completed since. -/
theorem Qualifies.of_setState_scheduled {t t' : Stages} {u v : Unit} {m : Nat}
    (hs : t.setState u .scheduled = .ok t') (hvu : v ≠ u) (hread : ∃ x, t.getState v = .ok x)
    (hq : (t'.grown m).Qualifies v) : t.Qualifies v := by
  obtain ⟨hp, ⟨first, hfirst, hle⟩, hd⟩ := hq
  obtain ⟨x, hx⟩ := hread
  have hx' : t'.getState v = .ok x := by rw [setState_getState hs, if_neg hvu]; exact hx
  obtain rfl : x = .pending := Except.ok.inj ((getState_grown hx' m).symm.trans hp)
  have hsfi := setState_stageFirstIndex hs
  have hf : t'.stageFirstIndex[v.stage]? = some first := goIndex_natCast.mp hfirst
  refine ⟨hx, ⟨first, goIndex_natCast.mpr (hsfi ▸ hf), hle⟩,
    dependenciesCompleted_of_completed (hsfi ▸ hf) fun hlt j hj => ?_⟩
  have hc := (grown_completed_iff _).mp (dependenciesCompleted_eq_true hd hf hlt j hj)
  rw [setState_getState hs] at hc
  split at hc
  · cases hc
  · exact hc

end Stages

/-- **Between merges, jobs come in the order of the walk.** On every run from what `NewStages`
builds, with the offset not past the segmenter's first index, two `NextJob` calls in a row
that both hand out a job hand out units in the order of the walk: the second comes after the
first, in a later segment or in a lower stage of the same one. -/
theorem nextJob_walk_order {range : Nat → Except Panic (Option BlockRange)}
    {firstIndex lastIndex segmentOffset : Nat} {firstIndexAt : Nat → Nat}
    {mods : List StagedModules} {storeConfigs : Option (List String)} {s₀ s s₁ s₂ : Stages} {u u' : Unit} {b b' : BlockRange}
    (hnew : newStages firstIndex lastIndex segmentOffset firstIndexAt mods storeConfigs = .ok s₀)
    (hoff : segmentOffset ≤ firstIndex) (hr : Stages.Reachable range s₀ s)
    (h₁ : s.nextJob range = .ok (s₁, u, some b)) (h₂ : s₁.nextJob range = .ok (s₂, u', some b')) :
    u.Before u' := by
  obtain ⟨l, rfl⟩ := Stages.newStages_eq hnew
  obtain ⟨hshape, hw⟩ := hr.sameShape_rowsWide fun _ h => nomatch h
  have hoffs : s.segmentOffset ≤ s.firstIndex := by rw [hshape]; exact hoff
  obtain ⟨m, ⟨hqu, -, -, -, hmin, hu1, -, hm, -⟩ | ⟨-, -, -, ⟨⟩⟩⟩ := nextJob_spec range h₁
  obtain ⟨m', ⟨hqu', h1', -, hst', -⟩ | ⟨-, -, -, ⟨⟩⟩⟩ := nextJob_spec range h₂
  have hsh := Stages.nextJob_sameShape range h₁
  rw [Stages.SameShape] at hsh
  have hfi : s₁.firstIndex = s.firstIndex := by rw [hsh]
  have hsc : s₁.stageCount = s.stageCount := by rw [hsh]; rfl
  have hne : u' ≠ u := by
    rintro rfl
    cases (Stages.getState_grown hu1 m').symm.trans hqu'.1
  rcases Stages.before_or_before hne with hb | hb
  · have hseg : u'.segment ≤ u.segment := by rcases hb with hb | ⟨hb, -⟩ <;> omega
    obtain ⟨x, hx⟩ := Stages.getState_of_rowsWide (Stages.rowsWide_grown hw m) hqu.1
      (show s.segmentOffset ≤ u'.segment by omega) hseg (hsc ▸ hst')
    exact absurd (Stages.Qualifies.of_setState_scheduled hm hne ⟨x, hx⟩ hqu')
      (hmin u' (hfi ▸ h1') (hsc ▸ hst') hb)
  · exact hb

/-- Two stages from segment `0`: the first call hands out unit `(0, 1)` and the second, before
any merge, unit `(0, 0)` of the same segment, one stage lower. -/
theorem nextJob_walk_order_same_segment :
    let range : Nat → Except Panic (Option BlockRange) := fun k => .ok (some ⟨k * 10, k * 10 + 10⟩)
    newStages 0 1 0 (· / 10) [⟨.store, [⟨"a", 0⟩]⟩, ⟨.store, [⟨"b", 0⟩]⟩] none = .ok ⟨0, 1, [0, 0], [], 0⟩ ∧
      (⟨0, 1, [0, 0], [], 0⟩ : Stages).nextJob range =
        .ok (⟨0, 1, [0, 0], [[.pending, .scheduled], [.pending, .pending]], 0⟩, ⟨0, 1⟩, some ⟨0, 10⟩) ∧
      (⟨0, 1, [0, 0], [[.pending, .scheduled], [.pending, .pending]], 0⟩ : Stages).nextJob range =
        .ok (⟨0, 1, [0, 0], [[.scheduled, .scheduled], [.pending, .pending]], 0⟩, ⟨0, 0⟩,
          some ⟨0, 10⟩) ∧
      Unit.Before ⟨0, 1⟩ ⟨0, 0⟩ := by
  intro range
  have hnew : newStages 0 1 0 (· / 10) [⟨.store, [⟨"a", 0⟩]⟩, ⟨.store, [⟨"b", 0⟩]⟩] none =
      .ok ⟨0, 1, [0, 0], [], 0⟩ := by decide
  have h₁ : (⟨0, 1, [0, 0], [], 0⟩ : Stages).nextJob range =
      .ok (⟨0, 1, [0, 0], [[.pending, .scheduled], [.pending, .pending]], 0⟩, ⟨0, 1⟩, some ⟨0, 10⟩) := by
    decide
  have h₂ : (⟨0, 1, [0, 0], [[.pending, .scheduled], [.pending, .pending]], 0⟩ : Stages).nextJob range =
      .ok (⟨0, 1, [0, 0], [[.scheduled, .scheduled], [.pending, .pending]], 0⟩, ⟨0, 0⟩,
        some ⟨0, 10⟩) := by
    decide
  exact ⟨hnew, h₁, h₂, nextJob_walk_order hnew le_rfl .start h₁ h₂⟩

/-- Nothing has started in a matrix with no rows. -/
theorem not_started_of_nil {s : Stages} (h : s.segmentStates = []) (v : Unit) : ¬ s.Started v :=
  fun ⟨_, hx, _⟩ => by
    obtain ⟨_, hrow, -⟩ := bind_eq_ok.mp hx
    rw [h] at hrow
    exact absurd (goIndex_eq_ok.mp hrow).2 (by rw [List.getElem?_nil]; exact Option.noConfusion)

/-- One store stage from what `NewStages` builds, over segments `0` and `1`: two calls hand
out both units, the only ones started. -/
theorem started_iff_handed_out_two_calls :
    let range : Nat → Except Panic (Option BlockRange) := fun k => .ok (some ⟨k * 10, k * 10 + 10⟩)
    Stages.Run range ⟨0, 1, [0], [], 0⟩ ⟨0, 1, [0], [[.scheduled], [.scheduled]], 0⟩
        [⟨0, 0⟩, ⟨1, 0⟩] ∧
      (∀ v, ¬ (⟨0, 1, [0], [], 0⟩ : Stages).Started v) ∧
      (∀ k ≤ (⟨0, 1, [0], [], 0⟩ : Stages).lastIndex, range k ≠ .ok none) ∧
      ([⟨0, 0⟩, ⟨1, 0⟩] : List Unit).Nodup ∧
      ∀ v, (⟨0, 1, [0], [[.scheduled], [.scheduled]], 0⟩ : Stages).Started v ↔
        v ∈ ([⟨0, 0⟩, ⟨1, 0⟩] : List Unit) := by
  intro range
  have hrun : Stages.Run range ⟨0, 1, [0], [], 0⟩ ⟨0, 1, [0], [[.scheduled], [.scheduled]], 0⟩
      [⟨0, 0⟩, ⟨1, 0⟩] :=
    @Stages.Run.job range _ ⟨0, 1, [0], [[.scheduled], [.pending]], 0⟩ _ ⟨1, 0⟩ ⟨10, 20⟩ [⟨0, 0⟩]
      (@Stages.Run.job range _ _ _ ⟨0, 0⟩ ⟨0, 10⟩ [] .start (by decide)) (by decide)
  have h₀ := @not_started_of_nil ⟨0, 1, [0], [], 0⟩ rfl
  have hrange : ∀ k ≤ (⟨0, 1, [0], [], 0⟩ : Stages).lastIndex, range k ≠ .ok none :=
    fun _ _ h => Option.noConfusion (Except.ok.inj h)
  exact ⟨hrun, h₀, hrange, Stages.Run.started_iff_handed_out hrun h₀ hrange⟩

/-- **The jobs of one stage never share a block.** When every range `NextJob` returns is the
one a segmenter that does not wrap gives for the segment, any two jobs of one stage handed
out along a run, the earlier and the later, have ranges with no block in common. -/
theorem Stages.Run.ranges_disjoint {seg : Segmenter} (hfit : seg.Fits)
    (hle : seg.initialBlock ≤ seg.exclusiveEndBlock) {range : Nat → Except Panic (Option BlockRange)}
    (hrange : ∀ k r, range k = .ok (some r) → seg.range k = .ok (some r)) {s₀ s : Stages}
    {H : List Unit} (h : Stages.Run range s₀ s H) :
    H.Pairwise fun u v => u.stage = v.stage → ∀ ru rv : BlockRange, range u.segment = .ok (some ru) →
      range v.segment = .ok (some rv) → ∀ n, ¬ (ru.Contains n ∧ rv.Contains n) :=
  h.handed_out.1.imp fun {u v} huv hst _ _ hru hrv =>
    seg.range_disjoint hfit hle (fun he => huv (by cases u; cases v; simp_all))
      (hrange _ _ hru) (hrange _ _ hrv)

/-- The segmenter of blocks `0` to `20` in intervals of `10`, and `NextJob` returning its
ranges: the two jobs of the one stage are `[0, 10)` and `[10, 20)`. -/
theorem ranges_disjoint_two_calls :
    let seg : Segmenter := ⟨10, 0, 20, by decide⟩
    let range : Nat → Except Panic (Option BlockRange) := fun k => seg.range k
    seg.Fits ∧ seg.initialBlock ≤ seg.exclusiveEndBlock ∧
      (∀ k r, range k = .ok (some r) → seg.range k = .ok (some r)) ∧
      Stages.Run range ⟨0, 1, [0], [], 0⟩ ⟨0, 1, [0], [[.scheduled], [.scheduled]], 0⟩
        [⟨0, 0⟩, ⟨1, 0⟩] ∧
      ([⟨0, 0⟩, ⟨1, 0⟩] : List Unit).Pairwise fun u v => u.stage = v.stage →
        ∀ ru rv : BlockRange, range u.segment = .ok (some ru) → range v.segment = .ok (some rv) →
          ∀ n, ¬ (ru.Contains n ∧ rv.Contains n) := by
  intro seg range
  have hfit : seg.Fits := by unfold Segmenter.Fits Segmenter.lastSegment; decide
  have hrange : ∀ k r, range k = .ok (some r) → seg.range k = .ok (some r) := fun _ _ h => h
  have hrun : Stages.Run range ⟨0, 1, [0], [], 0⟩ ⟨0, 1, [0], [[.scheduled], [.scheduled]], 0⟩
      [⟨0, 0⟩, ⟨1, 0⟩] :=
    @Stages.Run.job range _ ⟨0, 1, [0], [[.scheduled], [.pending]], 0⟩ _ ⟨1, 0⟩ ⟨10, 20⟩ [⟨0, 0⟩]
      (@Stages.Run.job range _ _ _ ⟨0, 0⟩ ⟨0, 10⟩ [] .start (by decide)) (by decide)
  exact ⟨hfit, by decide, hrange, hrun, Stages.Run.ranges_disjoint hfit (by decide) hrange hrun⟩

end Substreams.Stage
