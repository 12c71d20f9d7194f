import Substreams.Orchestrator.MergeTrace

set_option autoImplicit false

/-! # What a failed squash leaves

The merge loop keeps two pieces of bookkeeping: `nextExpectedStartBlock`, where the merges
stand, and the pending list `ranges`. A pass moves the first and then pops the head of the
second, with a `WriteState` in between. `MergedOff s s'` says the two agree: what `s'` has
taken off the head of `s`'s list is a chain from `s`'s next expected block, and the next
expected block of `s'` is the end of that chain.

`squash_error_bookkeeping` says what every error leaves. A range below the module's initial
block is rejected before anything changes, since the pieces of a range come in increasing
order and the first is checked first. A cancellation or a failing `LoadFrom` or `Merge`
leaves the bookkeeping in agreement. A failing `WriteState` does not: the range just merged
is counted as merged and is still at the head of the list
(`writeState_failure_leaves_head`), where no later pass can merge it.

The pending list can also hold a range the merges have passed with no error at all: a job
squashed twice adds its pieces again after they were merged (`duplicate_squash_stalls`).
-/

namespace Substreams.Orchestrator

open Substreams.Block

namespace Squashable

/-- `s'` has taken off the head of `s`'s pending list exactly the ranges its
`nextExpectedStartBlock` has moved past: a chain `M` from `s`'s next expected block. -/
def MergedOff (s s' : Squashable) : Prop :=
  ∃ M, s.ranges = M ++ s'.ranges ∧ Chain s.nextExpectedStartBlock M ∧
    s'.nextExpectedStartBlock = reach s.nextExpectedStartBlock M

theorem MergedOff.refl (s : Squashable) : s.MergedOff s := ⟨[], rfl, trivial, rfl⟩

theorem MergedOff.trans {s s' s'' : Squashable} (h : s.MergedOff s') (h' : s'.MergedOff s'') :
    s.MergedOff s'' := by
  obtain ⟨M, hr, hc, hn⟩ := h
  obtain ⟨M', hr', hc', hn'⟩ := h'
  exact ⟨M ++ M', by rw [hr, hr', List.append_assoc], chain_append.mpr ⟨hc, hn ▸ hc'⟩,
    by rw [hn', hn, reach_append]⟩

/-- The bookkeeping a failed `WriteState` leaves: the merges agree with the list once its
head `r` is popped, and `nextExpectedStartBlock` is already at the end of `r`. -/
def WriteFailedAt (s s' : Squashable) : Prop :=
  ∃ r rest, s'.ranges = r :: rest ∧ s.MergedOff { s' with ranges := rest } ∧
    r.startBlock < r.exclusiveEndBlock ∧ r.exclusiveEndBlock = s'.nextExpectedStartBlock

theorem MergedOff.writeFailedAt {s s' s'' : Squashable} (h : s.MergedOff s')
    (h' : s'.WriteFailedAt s'') : s.WriteFailedAt s'' := by
  obtain ⟨r, rest, hr, hm, hne, hend⟩ := h'
  exact ⟨r, rest, hr, h.trans hm, hne, hend⟩

/-- **One run of the merge loop.** At a positive interval, unless it ends in a failed
`WriteState`, the loop pops exactly the ranges it merges. -/
theorem mergeLoop_bookkeeping (w : Nat → Reply) (notifier : Bool) (i : Nat) (s : Squashable)
    (hI : 0 < s.storeSaveInterval) (hs : s.PendingNonempty) :
    ((mergeLoop w notifier i s.ranges s).err ≠ some .writingState →
      s.MergedOff (mergeLoop w notifier i s.ranges s).squashable) ∧
    ((mergeLoop w notifier i s.ranges s).err = some .writingState →
      s.WriteFailedAt (mergeLoop w notifier i s.ranges s).squashable) := by
  obtain ⟨M, rest, o, hsplit, hchain, hend, heq⟩ := mergeLoop_inv w notifier s.ranges i s rfl
  have hc := hchain hs
  rw [heq]
  dsimp only
  rcases hend with ⟨he, hsq, -⟩ | ⟨he, hsq, -⟩ |
    ⟨r, hr, hstart, ⟨he, hsq, -⟩ | ⟨he, hsq, -⟩ | ⟨h0, -⟩ | ⟨-, he, hsq, -⟩⟩
  pick_goal 5
  · omega
  all_goals rw [he, hsq]
  all_goals try exact ⟨fun _ => ⟨M, hsplit, hc, rfl⟩, fun h => nomatch h⟩
  refine ⟨fun h => absurd rfl h, fun _ => ?_⟩
  cases rest with
  | nil => cases hr
  | cons q rest =>
      obtain rfl : r = q := (Option.some_injective _ hr).symm
      have hne : r.startBlock < r.exclusiveEndBlock :=
        hs r (hsplit ▸ List.mem_append_right M (List.mem_cons_self r rest))
      refine ⟨r, rest, rfl, ⟨M ++ [r], by simp [hsplit, advance], ?_, ?_⟩, hne, rfl⟩
      · exact chain_append.mpr ⟨hc, hstart, hstart ▸ hne, trivial⟩
      · rw [reach_append]; rfl

end Squashable

/-- The cause a squash error wraps, when it comes from the merge loop. -/
def SquashError.cause : SquashError → Option MergeError
  | .squashingRange _ _ cause => some cause
  | .divideByZero => some .divideByZero
  | _ => none

@[simp] theorem SquashError.cause_ofMerge (br : BlockRange) (e : MergeError) :
    (SquashError.ofMerge br e).cause = some e := by
  cases e <;> rfl

namespace Squashable

/-- **The merge loop once per piece.** At a positive interval, every error comes from the
merge loop; unless it is a failed `WriteState`, the merges and the list agree. -/
theorem mergePieces_bookkeeping (w : World) (notifier : Bool) :
    ∀ (P : List BlockRange) (j : Nat) (s : Squashable), 0 < s.storeSaveInterval →
      s.PendingNonempty →
      (∀ e ∈ (mergePieces w notifier j P s).err, e.cause.isSome) ∧
      ((mergePieces w notifier j P s).err.bind SquashError.cause ≠ some .writingState →
        s.MergedOff (mergePieces w notifier j P s).squashable) ∧
      ((mergePieces w notifier j P s).err.bind SquashError.cause = some .writingState →
        s.WriteFailedAt (mergePieces w notifier j P s).squashable)
  | [], _, s, _, _ => ⟨fun _ h => (nomatch h), fun _ => MergedOff.refl s, fun h => nomatch h⟩
  | _ :: P, j, s, hI, hs => by
      obtain ⟨hok, hwf⟩ := mergeLoop_bookkeeping (w j) notifier 0 s hI hs
      unfold mergePieces mergeAvailablePartials
      dsimp only
      split
      · rename_i e he
        rw [he] at hok hwf
        exact ⟨fun _ h => by cases h; simp, fun h => hok (by simpa using h),
          fun h => hwf (by simpa using h)⟩
      · rename_i he
        have hm := hok (by rw [he]; exact fun h => nomatch h)
        have hf := mergeLoop_follows (w j) notifier 0 s hI hs
        obtain ⟨h1, h2, h3⟩ := mergePieces_bookkeeping w notifier P (j + 1) _ (hf.2.1.2.2.1 ▸ hI)
          hf.2.2.1
        exact ⟨h1, fun h => hm.trans (h2 h), fun h => hm.writeFailedAt (h3 h)⟩

end Squashable

open Squashable

/-- **What a failed squash leaves.** A squash of a range below the module's initial block
changes nothing. Against the squashable after the pieces are cumulated, any other error
except a failed `WriteState` leaves the merges and the pending list in agreement, and a
failed `WriteState` leaves the range it was writing at the head of the list, counted as
merged. -/
theorem squash_error_bookkeeping (w : World) (notifier : Bool) (s : Squashable) (br : BlockRange)
    (hI : 0 < s.storeSaveInterval) (hs : s.PendingNonempty) (e : SquashError)
    (he : (s.squash w notifier br).err = some e) :
    (∀ name startBlock initialBlock, e = .beforeInitialBlock name startBlock initialBlock →
      (s.squash w notifier br).squashable = s) ∧
    (e.cause ≠ some .writingState →
      (s.cumulatePieces (br.split s.storeSaveInterval)).2.MergedOff (s.squash w notifier br).squashable) ∧
    (e.cause = some .writingState →
      (s.cumulatePieces (br.split s.storeSaveInterval)).2.WriteFailedAt
        (s.squash w notifier br).squashable) := by
  by_cases hle : ∀ p ∈ br.split s.storeSaveInterval, s.builder.moduleInitialBlock ≤ p.startBlock
  · obtain ⟨rs, hrs, hmem⟩ := s.cumulatePieces_eq (br.split s.storeSaveInterval)
    have hs₁ : (s.cumulatePieces (br.split s.storeSaveInterval)).2.PendingNonempty := by
      rw [hrs]
      exact fun r hr => (hmem r hr).elim (hs r) ((split_chain hI br).1.nonempty r)
    have hI₁ : 0 < (s.cumulatePieces (br.split s.storeSaveInterval)).2.storeSaveInterval := by
      rw [hrs]; exact hI
    rw [squash_of_le s w notifier br hle] at he ⊢
    obtain ⟨hcause, hok, hwf⟩ := mergePieces_bookkeeping w notifier _ 0 _ hI₁ hs₁
    rw [he] at hcause hok hwf
    refine ⟨fun _ _ _ h => absurd (hcause e rfl) (by simp [h, SquashError.cause]), hok, hwf⟩
  · push_neg at hle
    obtain ⟨p, hp, hlt⟩ := hle
    have hne : br.startBlock < br.exclusiveEndBlock :=
      lt_of_not_le fun h => by rw [split_eq_nil h] at hp; cases hp
    have hlt' := lt_of_le_of_lt (split_le_start hI br p hp) hlt
    rw [squash_of_lt s w notifier br hI hne hlt'] at he ⊢
    cases he
    rw [cumulatePieces_split_of_lt s br hI hne hlt']
    exact ⟨fun _ _ _ _ => rfl, fun _ => MergedOff.refl s, fun h => nomatch h⟩

/-- A squash whose `WriteState` fails, with the error bookkeeping it leaves. -/
theorem squash_error_bookkeeping_of_failed_write :
    let s := newSquashable ⟨"store", 0, 0⟩ 20 10 0
    let w : World := fun _ _ => ⟨false, true, true, false⟩
    let e := SquashError.squashingRange 0 10 .writingState
    0 < s.storeSaveInterval ∧ s.PendingNonempty ∧ (s.squash w false ⟨0, 10⟩).err = some e ∧
      (∀ name startBlock initialBlock, e = .beforeInitialBlock name startBlock initialBlock →
        (s.squash w false ⟨0, 10⟩).squashable = s) ∧
      (e.cause ≠ some .writingState →
        (s.cumulatePieces (BlockRange.split ⟨0, 10⟩ s.storeSaveInterval)).2.MergedOff
          (s.squash w false ⟨0, 10⟩).squashable) ∧
      (e.cause = some .writingState →
        (s.cumulatePieces (BlockRange.split ⟨0, 10⟩ s.storeSaveInterval)).2.WriteFailedAt
          (s.squash w false ⟨0, 10⟩).squashable) :=
  ⟨by decide, fun r h => absurd h (List.not_mem_nil r), by decide,
    squash_error_bookkeeping _ false _ ⟨0, 10⟩ (by decide) (fun r h => absurd h (List.not_mem_nil r)) _
      (by decide)⟩

/-- A failed `WriteState` on `[0, 10)`: the merges stand at `10`, and `[0, 10)` is still the
head of the pending list. -/
theorem writeState_failure_leaves_head :
    let o := (newSquashable ⟨"store", 0, 0⟩ 20 10 0).squash (fun _ _ => ⟨false, true, true, false⟩)
      false ⟨0, 10⟩
    o.err = some (.squashingRange 0 10 .writingState) ∧ o.squashable.nextExpectedStartBlock = 10 ∧
      o.squashable.ranges = [⟨0, 10⟩] := by
  decide

/-! ## A range squashed twice -/

/-- A job over `[0, 10)` squashed twice, then the rest of the target: every call returns
`nil`, but the second copy of `[0, 10)` stays at the head of the pending list, behind the
merges, and nothing after it is ever merged. -/
theorem duplicate_squash_stalls :
    newSquashableFor ⟨fun _ => some 0, fun _ _ => true⟩ 10 30 ⟨"store", 0, 0⟩ =
        .ok (newSquashable ⟨"store", 0, 0⟩ 30 10 0) ∧
      let run := (newSquashable ⟨"store", 0, 0⟩ 30 10 0).squashAll false
        [(⟨0, 10⟩, fun _ _ => Reply.ok), (⟨0, 10⟩, fun _ _ => Reply.ok),
          (⟨10, 20⟩, fun _ _ => Reply.ok), (⟨20, 30⟩, fun _ _ => Reply.ok)]
      run.2.2 = [none, none, none, none] ∧ run.1.nextExpectedStartBlock = 10 ∧
        run.1.ranges = [⟨0, 10⟩, ⟨10, 20⟩, ⟨20, 30⟩] ∧ run.1.targetReached = false := by
  decide

end Substreams.Orchestrator
