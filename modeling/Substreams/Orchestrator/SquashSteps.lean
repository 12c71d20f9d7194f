import Substreams.Orchestrator.Squasher

set_option autoImplicit false

/-! # What each step of a squash can do

One lemma per function of `Orchestrator/Squasher.lean`, so that the proofs about whole
runs never unfold the model again:

* `cumulatePieces_of_le` and `cumulatePieces_of_lt`: the first loop of `squash` either adds
  every piece that survives the `StoreInitialBlock` bound and sorts, or stops at a piece
  below the module's initial block;
* `mergeLoop_inv`: a run of the merge loop merges some prefix `M` of the pending list, a
  chain from `nextExpectedStartBlock`, and then ends in one of the ways `LoopEnd` lists;
* `Frame`: no step changes the module, the store, the save interval or the target.
-/

namespace Substreams.Orchestrator

open Substreams.Block

namespace Squashable

variable (s : Squashable)

/-- The squashable after merging the ranges `M` off its head, `rest` left pending. -/
def advance (M rest : List BlockRange) : Squashable :=
  { s with
    nextExpectedStartBlock := reach s.nextExpectedStartBlock M
    ranges := rest
    targetReached := s.targetReached || M.any (fun r => r.exclusiveEndBlock = s.targetExclusiveBlock) }

/-- `s'` squashes the same module, into the same store, towards the same target as `s`. -/
def Frame (s' : Squashable) : Prop :=
  s'.name = s.name ∧ s'.builder = s.builder ∧ s'.storeSaveInterval = s.storeSaveInterval ∧
    s'.targetExclusiveBlock = s.targetExclusiveBlock

theorem Frame.refl : s.Frame s := ⟨rfl, rfl, rfl, rfl⟩

variable {s}

theorem Frame.trans {s' s'' : Squashable} (h : s.Frame s') (h' : s'.Frame s'') : s.Frame s'' :=
  ⟨h'.1.trans h.1, h'.2.1.trans h.2.1, h'.2.2.1.trans h.2.2.1, h'.2.2.2.trans h.2.2.2⟩

theorem Frame.symm {s' : Squashable} (h : s.Frame s') : s'.Frame s :=
  ⟨h.1.symm, h.2.1.symm, h.2.2.1.symm, h.2.2.2.symm⟩

theorem mergedEffects_congr {s' : Squashable} (h : s.Frame s') (notifier : Bool) :
    s'.mergedEffects notifier = s.mergedEffects notifier := by
  obtain ⟨-, hb, hI, hT⟩ := h
  funext r
  simp only [mergedEffects, hb, hI, hT]

variable (s)

@[simp] theorem advance_frame (M rest : List BlockRange) : s.Frame (s.advance M rest) :=
  Frame.refl s

theorem advance_nil : s.advance [] s.ranges = s := by
  simp [advance]

theorem popMerged_advance (r : BlockRange) (rest' M rest : List BlockRange) :
    (s.popMerged r rest').advance M rest = s.advance (r :: M) rest := by
  simp [advance, popMerged, Bool.or_assoc]

theorem popMerged_frame (r : BlockRange) (rest : List BlockRange) : s.Frame (s.popMerged r rest) :=
  Frame.refl s

/-! ## Cumulating pieces -/

theorem cumulateBoundedRange_eq (r : BlockRange) :
    s.cumulateBoundedRange r =
      { s with ranges := (if r.exclusiveEndBlock ≤ s.builder.storeInitialBlock then s.ranges
          else sortRanges (s.ranges ++ [r])) } := by
  unfold cumulateBoundedRange
  split <;> rfl

/-- **Cumulating.** When no piece starts before the module's initial block, the first loop
of `squash` returns no error and leaves the sorted list of the pending ranges and the
pieces that end after the store's initial block. -/
theorem cumulatePieces_of_le (P : List BlockRange) (hs : s.ranges.Sorted (· ≤ ·))
    (hP : ∀ p ∈ P, s.builder.moduleInitialBlock ≤ p.startBlock) :
    s.cumulatePieces P = (none, { s with ranges := sortRanges (s.ranges ++
      P.filter (fun p => s.builder.storeInitialBlock < p.exclusiveEndBlock)) }) := by
  induction P generalizing s with
  | nil => simp [cumulatePieces, sortRanges_of_sorted hs]
  | cons p P ih =>
      have hp := hP p (List.mem_cons_self p P)
      rw [cumulatePieces, if_neg (not_lt.mpr hp), cumulateBoundedRange_eq]
      split
      · rw [ih _ hs (fun q hq => hP q (List.mem_cons_of_mem p hq))]
        simp [List.filter_cons, *]
      · rename_i hkeep
        rw [ih { s with ranges := sortRanges (s.ranges ++ [p]) } (sortRanges_sorted _)
          (fun q hq => hP q (List.mem_cons_of_mem p hq))]
        have hperm : (sortRanges (s.ranges ++ [p]) ++ P.filter
            (fun q => s.builder.storeInitialBlock < q.exclusiveEndBlock)).Perm
            (s.ranges ++ p :: P.filter (fun q => s.builder.storeInitialBlock < q.exclusiveEndBlock)) := by
          simpa using (sortRanges_perm (s.ranges ++ [p])).append_right _
        simp only [List.filter_cons, not_le.mp hkeep, decide_True, if_true, sortRanges_congr hperm]

theorem cumulatePieces_of_lt (p : BlockRange) (P : List BlockRange)
    (hp : p.startBlock < s.builder.moduleInitialBlock) :
    s.cumulatePieces (p :: P) =
      (some (.beforeInitialBlock s.name p.startBlock s.builder.moduleInitialBlock), s) := by
  rw [cumulatePieces, if_pos hp]

/-- Cumulating changes only the pending list, and only by adding pieces. -/
theorem cumulatePieces_eq (P : List BlockRange) :
    ∃ rs, (s.cumulatePieces P).2 = { s with ranges := rs } ∧ ∀ r ∈ rs, r ∈ s.ranges ∨ r ∈ P := by
  induction P generalizing s with
  | nil => exact ⟨s.ranges, rfl, fun r hr => Or.inl hr⟩
  | cons p P ih =>
      rw [cumulatePieces]
      split
      · exact ⟨s.ranges, rfl, fun r hr => Or.inl hr⟩
      obtain ⟨rs, hrs, hmem⟩ := ih (s.cumulateBoundedRange p)
      refine ⟨rs, by rw [hrs, cumulateBoundedRange_eq], fun r hr => ?_⟩
      rcases hmem r hr with h | h
      · rw [cumulateBoundedRange_eq] at h
        split at h
        · exact Or.inl h
        · rcases List.mem_append.mp ((sortRanges_perm _).subset h) with h | h
          · exact Or.inl h
          · exact Or.inr (List.mem_cons.mpr (Or.inl (List.mem_singleton.mp h)))
      · exact Or.inr (List.mem_cons_of_mem p h)

@[simp] theorem cumulateBoundedRange_builder (r : BlockRange) :
    (s.cumulateBoundedRange r).builder = s.builder := by
  unfold cumulateBoundedRange
  split <;> rfl

/-- The first loop returns no error when no piece starts before the module's initial
block, whatever the pending list. -/
theorem cumulatePieces_fst_of_le (P : List BlockRange)
    (hP : ∀ p ∈ P, s.builder.moduleInitialBlock ≤ p.startBlock) : (s.cumulatePieces P).1 = none := by
  induction P generalizing s with
  | nil => rfl
  | cons p P ih =>
      rw [cumulatePieces, if_neg (not_lt.mpr (hP p (List.mem_cons_self p P)))]
      exact ih _ (fun q hq => (cumulateBoundedRange_builder s p).symm ▸ hP q (List.mem_cons_of_mem p hq))

/-! ## The merge loop -/

/-- The ways a run of the merge loop can end once it has merged `M`, with `rest` left:
`o` is the end of the run, what follows the effects of the merges. Either the loop stops
without error (the list is empty, or its head does not start where the merges end), or
the context is canceled, or `LoadFrom`, `Merge` or `WriteState` fails on the head. A
failing `WriteState` comes after `nextExpectedStartBlock` has moved past the head and
before the head is popped. -/
def LoopEnd (M rest : List BlockRange) (o : Outcome MergeError) : Prop :=
  (o.err = none ∧ o.squashable = s.advance M rest ∧ o.effects = [] ∧
      ∀ r ∈ rest.head?, r.startBlock ≠ reach s.nextExpectedStartBlock M) ∨
  (o.err = some .canceled ∧ o.squashable = s.advance M rest ∧ o.effects = []) ∨
  ∃ r ∈ rest.head?, r.startBlock = reach s.nextExpectedStartBlock M ∧
    ((o.err = some (.loadFrom s.name) ∧ o.squashable = s.advance M rest ∧
        o.effects = [.loadFrom r false]) ∨
      (o.err = some .merging ∧ o.squashable = s.advance M rest ∧
        o.effects = [.loadFrom r true, .merge r false]) ∨
      (s.storeSaveInterval = 0 ∧ o.err = some .divideByZero ∧
        o.squashable = { s.advance M rest with nextExpectedStartBlock := r.exclusiveEndBlock } ∧
        o.effects = [.loadFrom r true, .merge r true]) ∨
      (r.exclusiveEndBlock % s.storeSaveInterval = 0 ∧ o.err = some .writingState ∧
        o.squashable = { s.advance M rest with nextExpectedStartBlock := r.exclusiveEndBlock } ∧
        o.effects = [.loadFrom r true, .merge r true, .writeState r.exclusiveEndBlock false]))

variable {s} in
theorem loopEnd_congr {s' : Squashable} (h : s.Frame s') {M M' rest : List BlockRange}
    {o : Outcome MergeError} (hadv : s'.advance M rest = s.advance M' rest)
    (hreach : reach s'.nextExpectedStartBlock M = reach s.nextExpectedStartBlock M')
    (hend : s'.LoopEnd M rest o) : s.LoopEnd M' rest o := by
  obtain ⟨hname, -, hI, -⟩ := h
  unfold LoopEnd at *
  rw [hadv, hreach, hname, hI] at hend
  exact hend

/-- **One pass of the merge loop** on a head that starts at `nextExpectedStartBlock`: a
failing `LoadFrom`, `Merge` or `WriteState` ends the loop as `LoopEnd` says, nothing merged;
otherwise the head is merged and popped. -/
theorem mergeHead_cases (reply : Reply) (notifier : Bool) {r : BlockRange}
    {rest : List BlockRange} (hs : s.ranges = r :: rest)
    (hstart : r.startBlock = s.nextExpectedStartBlock) :
    (∃ e s' effects, s.mergeHead reply notifier r rest = .inl (e, s', effects) ∧
        s.LoopEnd [] (r :: rest) ⟨some e, s', effects⟩) ∨
      s.mergeHead reply notifier r rest = .inr (s.popMerged r rest, s.mergedEffects notifier r) := by
  have hadv : s.advance [] (r :: rest) = s := hs ▸ advance_nil s
  unfold mergeHead
  cases reply.loadFrom
  · exact .inl ⟨_, _, _, rfl, Or.inr (Or.inr ⟨r, rfl, hstart, Or.inl ⟨rfl, hadv.symm, rfl⟩⟩)⟩
  cases reply.merge
  · exact .inl ⟨_, _, _, rfl,
      Or.inr (Or.inr ⟨r, rfl, hstart, Or.inr (Or.inl ⟨rfl, hadv.symm, rfl⟩)⟩)⟩
  by_cases hI : s.storeSaveInterval = 0
  · exact .inl ⟨.divideByZero, { s with nextExpectedStartBlock := r.exclusiveEndBlock },
      [.loadFrom r true, .merge r true], by simp [hI],
      Or.inr (Or.inr ⟨r, rfl, hstart, Or.inr (Or.inr (Or.inl ⟨hI, rfl, by rw [hadv], rfl⟩))⟩)⟩
  by_cases hwrite : r.exclusiveEndBlock % s.storeSaveInterval = 0 ∧ reply.writeState = false
  · exact .inl ⟨.writingState, { s with nextExpectedStartBlock := r.exclusiveEndBlock },
      [.loadFrom r true, .merge r true, .writeState r.exclusiveEndBlock false], by simp [hI, hwrite],
      Or.inr (Or.inr ⟨r, rfl, hstart, Or.inr (Or.inr (Or.inr ⟨hwrite.1, rfl, by rw [hadv], rfl⟩))⟩)⟩
  · have hcont : ¬ (r.exclusiveEndBlock % s.storeSaveInterval = 0 ∧
        (!reply.writeState) = true) := by simpa using hwrite
    exact .inr (by simp only [Bool.not_true, Bool.false_eq_true, if_false, hI, hcont])

/-- **The merge loop.** Whatever the world answers, a run of the merge loop over the pending
list merges a prefix `M` of it, makes the calls of those merges, and ends as `LoopEnd`
says. Each merged range starts where the previous one ends, the first at
`nextExpectedStartBlock`: when the pending ranges are non-empty, `M` is a chain. -/
theorem mergeLoop_inv (w : Nat → Reply) (notifier : Bool) :
    ∀ (pending : List BlockRange) (i : Nat) (s : Squashable), s.ranges = pending →
      ∃ M rest o, pending = M ++ rest ∧
        ((∀ r ∈ pending, r.startBlock < r.exclusiveEndBlock) → Chain s.nextExpectedStartBlock M) ∧
        s.LoopEnd M rest o ∧
        mergeLoop w notifier i pending s =
          ⟨o.err, o.squashable, M.flatMap (s.mergedEffects notifier) ++ o.effects⟩
  | [], i, s, hs => by
      refine ⟨[], [], ⟨if (w i).done then some .canceled else none, s, []⟩, rfl, fun _ => trivial,
        ?_, ?_⟩
      · have hadv : s.advance [] [] = s := hs ▸ advance_nil s
        unfold LoopEnd
        cases (w i).done <;> simp [hadv]
      · unfold mergeLoop; cases (w i).done <;> rfl
  | r :: rest, i, s, hs => by
      have hadv : s.advance [] (r :: rest) = s := hs ▸ advance_nil s
      unfold mergeLoop
      by_cases hdone : (w i).done
      · refine ⟨[], r :: rest, ⟨some .canceled, s, []⟩, rfl, fun _ => trivial, ?_, by simp [hdone]⟩
        exact Or.inr (Or.inl ⟨rfl, hadv.symm, rfl⟩)
      rw [if_neg hdone]
      by_cases hnext : s.nextExpectedStartBlock = r.startBlock
      swap
      · refine ⟨[], r :: rest, ⟨none, s, []⟩, rfl, fun _ => trivial, ?_, by simp [hnext]⟩
        exact Or.inl ⟨rfl, hadv.symm, rfl, by simpa [eq_comm] using hnext⟩
      rw [if_neg (not_not.mpr hnext)]
      rcases s.mergeHead_cases (w i) notifier hs hnext.symm with ⟨e, s', effects, hh, hend⟩ | hh
      · exact ⟨[], r :: rest, ⟨some e, s', effects⟩, rfl, fun _ => trivial, hend, by simp [hh]⟩
      rw [hh]
      dsimp only
      obtain ⟨M, rest', o, hsplit, hchain, hend, heq⟩ :=
        mergeLoop_inv w notifier rest (i + 1) (s.popMerged r rest) rfl
      refine ⟨r :: M, rest', o, by rw [hsplit]; rfl, fun hne =>
        ⟨hnext.symm, hnext ▸ hne r (List.mem_cons_self r rest),
          hchain (fun q hq => hne q (List.mem_cons_of_mem r hq))⟩, ?_, ?_⟩
      · exact loopEnd_congr (popMerged_frame s r rest) (popMerged_advance s r rest M rest') rfl hend
      · rw [heq, mergedEffects_congr (popMerged_frame s r rest)]
        simp

/-- A pass that finds the head not starting at `nextExpectedStartBlock` stops the loop
with nothing done. -/
theorem mergeLoop_of_head_ne (w : Nat → Reply) (notifier : Bool) (i : Nat)
    (hdone : (w i).done = false)
    (hhead : ∀ r ∈ s.ranges.head?, r.startBlock ≠ s.nextExpectedStartBlock) :
    mergeLoop w notifier i s.ranges s = ⟨none, s, []⟩ := by
  cases h : s.ranges with
  | nil => simp [mergeLoop, hdone]
  | cons r rest =>
      rw [h] at hhead
      simp [mergeLoop, hdone, Ne.symm (hhead r rfl)]

/-! ## A squash call -/

/-- **A range that starts before the module's initial block** is rejected by its first
piece, before anything is cumulated. -/
theorem cumulatePieces_split_of_lt (br : BlockRange) (hI : 0 < s.storeSaveInterval)
    (hne : br.startBlock < br.exclusiveEndBlock) (hlt : br.startBlock < s.builder.moduleInitialBlock) :
    s.cumulatePieces (br.split s.storeSaveInterval) =
      (some (.beforeInitialBlock s.name br.startBlock s.builder.moduleInitialBlock), s) := by
  obtain ⟨hc, hr⟩ := split_chain hI br
  cases hP : br.split s.storeSaveInterval with
  | nil =>
      rw [hP, reach_nil] at hr
      omega
  | cons p P =>
      rw [hP] at hc
      rw [cumulatePieces_of_lt s p P (hc.1 ▸ hlt), hc.1]

/-- Such a squash call changes nothing. -/
theorem squash_of_lt (w : World) (notifier : Bool) (br : BlockRange) (hI : 0 < s.storeSaveInterval)
    (hne : br.startBlock < br.exclusiveEndBlock) (hlt : br.startBlock < s.builder.moduleInitialBlock) :
    s.squash w notifier br =
      ⟨some (.beforeInitialBlock s.name br.startBlock s.builder.moduleInitialBlock), s, []⟩ := by
  unfold squash
  dsimp only
  rw [cumulatePieces_split_of_lt s br hI hne hlt]

/-- When no piece starts before the module's initial block, the range is cumulated whole and
its pieces are merged. -/
theorem squash_of_le (w : World) (notifier : Bool) (br : BlockRange)
    (hle : ∀ p ∈ br.split s.storeSaveInterval, s.builder.moduleInitialBlock ≤ p.startBlock) :
    s.squash w notifier br = mergePieces w notifier 0 (br.split s.storeSaveInterval)
      (s.cumulatePieces (br.split s.storeSaveInterval)).2 := by
  have h := s.cumulatePieces_fst_of_le _ hle
  unfold squash
  dsimp only
  cases hc : s.cumulatePieces (br.split s.storeSaveInterval) with
  | mk e s' =>
      rw [hc] at h
      cases h
      rfl

end Squashable

end Substreams.Orchestrator
