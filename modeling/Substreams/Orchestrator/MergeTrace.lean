import Substreams.Orchestrator.SquashSteps

set_option autoImplicit false

/-! # The calls a squashable makes

Whatever storage answers, the calls a squashable makes follow one protocol, `Trace`: a run
is a sequence of passes, each at the end `c` of the merges so far. A pass either merges a
non-empty range starting at `c` (and moves `c` to its end), or fails in `LoadFrom` or
`Merge` on such a range (and leaves `c`), or merges it and fails in `WriteState`.

`squashAll_follows` is the refinement: at a positive save interval, every run of squash
calls, in every world, produces a `Trace`. The properties of the protocol are proved once, on `Trace`: the successful merges
form a chain (`Trace.chain`), every call is made at the right block (`Trace.replay`),
`WriteState` is called once per boundary the merges reach (`Trace.written_eq`), and the target
is notified at most once (`Trace.notify_count`).

What the protocol does not promise is that `LoadFrom` and `Merge` see every range once: a
pass that fails leaves its range at the head of the list, and the next squash call tries it
again (`retry_reloads`). A failing `WriteState` leaves the bookkeeping half done
(`writeState_failure_leaves_head`); `squash_error_bookkeeping` says exactly what each
error leaves.
-/

namespace Substreams.Orchestrator

open Substreams.Block

/-! ## Reading a list of calls -/

/-- The range of a successful `Merge`. -/
def Effect.mergedRange : Effect → Option BlockRange
  | .merge r true => some r
  | _ => none

/-- The block of a `WriteState`, whether it succeeds or not. -/
def Effect.writtenBlock : Effect → Option Nat
  | .writeState b _ => some b
  | _ => none

/-- The range handed to `LoadFrom`, whether it succeeds or not. -/
def Effect.loadedRange : Effect → Option BlockRange
  | .loadFrom r _ => some r
  | _ => none

/-- The call is a `Notify`. -/
def Effect.isNotify : Effect → Bool
  | .notify _ _ => true
  | _ => false

/-- The ranges merged, in order. -/
def mergedRanges (E : List Effect) : List BlockRange := E.filterMap Effect.mergedRange

/-- The blocks `WriteState` is called at, in order. -/
def writtenBlocks (E : List Effect) : List Nat := E.filterMap Effect.writtenBlock

@[simp] theorem mergedRanges_nil : mergedRanges [] = [] := rfl

@[simp] theorem mergedRanges_append (E F : List Effect) :
    mergedRanges (E ++ F) = mergedRanges E ++ mergedRanges F :=
  List.filterMap_append _ _ _

@[simp] theorem writtenBlocks_append (E F : List Effect) :
    writtenBlocks (E ++ F) = writtenBlocks E ++ writtenBlocks F :=
  List.filterMap_append _ _ _

/-- The block a complete store is written at after merging `r`, if `r` ends on a boundary. -/
def boundaryEnd (I : Nat) (r : BlockRange) : Option Nat :=
  if r.exclusiveEndBlock % I = 0 then some r.exclusiveEndBlock else none

/-- What a call of `s` must satisfy when the successful merges before it end at `c`:
`LoadFrom` and `Merge` are handed a range that starts at `c`, `WriteState` and
`DeletePartialFile` act at `c`, `WriteState` only on a boundary, and `Notify` names the
module and the target once the merges have reached it. -/
def CallOk (s : Squashable) (c : Nat) : Effect → Prop
  | .loadFrom r _ => r.startBlock = c
  | .merge r _ => r.startBlock = c
  | .writeState e _ => e = c ∧ e % s.storeSaveInterval = 0
  | .deletePartialFile e => e = c
  | .notify m e => m = s.builder.name ∧ e = s.targetExclusiveBlock ∧ c = s.targetExclusiveBlock

/-- Reading the calls in order, `c` the end of the merges so far: every call satisfies
`ok` at the end of the merges before it. -/
def Replay (ok : Nat → Effect → Prop) : Nat → List Effect → Prop
  | _, [] => True
  | c, x :: E => ok c x ∧ Replay ok (reach c (mergedRanges [x])) E

theorem replay_append (ok : Nat → Effect → Prop) (c : Nat) (E F : List Effect) :
    Replay ok c (E ++ F) ↔ Replay ok c E ∧ Replay ok (reach c (mergedRanges E)) F := by
  induction E generalizing c with
  | nil => simp [Replay]
  | cons x E ih =>
      have h : mergedRanges (x :: E) = mergedRanges [x] ++ mergedRanges E :=
        mergedRanges_append [x] E
      rw [List.cons_append, Replay, Replay, ih, h, reach_append, and_assoc]

/-! ## The protocol -/

/-- **The protocol of a squashable `s`**, from merges ending at `c` to merges ending at
`c'`: passes that merge a non-empty range starting at `c`, with the calls `mergedEffects`
lists; passes whose `LoadFrom` or `Merge` fails on a range starting at `c`; and passes that
merge such a range and then fail to write the complete store at its end. -/
inductive Trace (s : Squashable) (notifier : Bool) : Nat → Nat → List Effect → Prop
  | nil (c : Nat) : Trace s notifier c c []
  | merged {c c' : Nat} {r : BlockRange} {E : List Effect} :
      r.startBlock = c → c < r.exclusiveEndBlock → Trace s notifier r.exclusiveEndBlock c' E →
      Trace s notifier c c' (s.mergedEffects notifier r ++ E)
  | loadFailed {c c' : Nat} {r : BlockRange} {E : List Effect} :
      r.startBlock = c → Trace s notifier c c' E → Trace s notifier c c' (.loadFrom r false :: E)
  | mergeFailed {c c' : Nat} {r : BlockRange} {E : List Effect} :
      r.startBlock = c → Trace s notifier c c' E →
      Trace s notifier c c' (.loadFrom r true :: .merge r false :: E)
  | writeFailed {c c' : Nat} {r : BlockRange} {E : List Effect} :
      r.startBlock = c → c < r.exclusiveEndBlock → r.exclusiveEndBlock % s.storeSaveInterval = 0 →
      Trace s notifier r.exclusiveEndBlock c' E →
      Trace s notifier c c'
        (.loadFrom r true :: .merge r true :: .writeState r.exclusiveEndBlock false :: E)

namespace Trace

variable {s : Squashable} {notifier : Bool}

theorem append {c c' c'' : Nat} {E F : List Effect} (h : Trace s notifier c c' E)
    (h' : Trace s notifier c' c'' F) : Trace s notifier c c'' (E ++ F) := by
  induction h with
  | nil => exact h'
  | merged hs hlt _ ih => rw [List.append_assoc]; exact merged hs hlt (ih h')
  | loadFailed hs _ ih => exact loadFailed hs (ih h')
  | mergeFailed hs _ ih => exact mergeFailed hs (ih h')
  | writeFailed hs hlt hb _ ih => exact writeFailed hs hlt hb (ih h')

theorem congr {s' : Squashable} (hf : s.Frame s') {c c' : Nat} {E : List Effect}
    (h : Trace s notifier c c' E) : Trace s' notifier c c' E := by
  induction h with
  | nil c => exact nil c
  | merged hs hlt _ ih =>
      rw [← Squashable.mergedEffects_congr hf notifier]; exact merged hs hlt ih
  | loadFailed hs _ ih => exact loadFailed hs ih
  | mergeFailed hs _ ih => exact mergeFailed hs ih
  | writeFailed hs hlt hb _ ih => exact writeFailed hs hlt (hf.2.2.1 ▸ hb) ih

/-- A chain of successful passes. -/
theorem of_chain {c : Nat} {M : List BlockRange} (h : Chain c M) :
    Trace s notifier c (reach c M) (M.flatMap (s.mergedEffects notifier)) := by
  induction M generalizing c with
  | nil => exact nil c
  | cons r M ih => exact merged h.1 (h.1 ▸ h.2.1) (ih h.2.2)

/-! ## What the protocol promises -/

theorem mergedRanges_mergedEffects (r : BlockRange) :
    mergedRanges (s.mergedEffects notifier r) = [r] := by
  unfold Squashable.mergedEffects
  split <;> split <;> rfl

/-- **The merges form a chain** from where the trace starts to where it ends. -/
theorem chain {c c' : Nat} {E : List Effect} (h : Trace s notifier c c' E) :
    Chain c (mergedRanges E) ∧ reach c (mergedRanges E) = c' := by
  induction h with
  | nil => exact ⟨trivial, rfl⟩
  | merged hs hlt _ ih =>
      rw [mergedRanges_append, mergedRanges_mergedEffects]
      exact ⟨⟨hs, hlt, ih.1⟩, ih.2⟩
  | loadFailed _ _ ih => exact ih
  | mergeFailed _ _ ih => exact ih
  | writeFailed hs hlt _ _ ih => exact ⟨⟨hs, hlt, ih.1⟩, ih.2⟩

/-- **Every call is made at the right block.** -/
theorem replay {c c' : Nat} {E : List Effect} (h : Trace s notifier c c' E) :
    Replay (CallOk s) c E := by
  induction h with
  | nil => trivial
  | @merged c c' r E hs _ _ ih =>
      rw [replay_append, mergedRanges_mergedEffects]
      refine ⟨?_, ih⟩
      unfold Squashable.mergedEffects
      split <;> split <;>
        simp_all [Replay, CallOk, mergedRanges, Effect.mergedRange]
  | loadFailed hs _ ih => exact ⟨hs, ih⟩
  | mergeFailed hs _ ih => exact ⟨hs, hs, ih⟩
  | writeFailed hs _ hb _ ih => exact ⟨hs, hs, ⟨rfl, hb⟩, ih⟩

/-- **`WriteState` is called once for each boundary the merges reach**, in order, and
nowhere else. -/
theorem written_eq {c c' : Nat} {E : List Effect} (h : Trace s notifier c c' E) :
    writtenBlocks E = (mergedRanges E).filterMap (boundaryEnd s.storeSaveInterval) := by
  induction h with
  | nil => rfl
  | @merged c c' r E _ _ _ ih =>
      rw [writtenBlocks_append, mergedRanges_append, mergedRanges_mergedEffects, List.filterMap_append, ih]
      congr 1
      unfold Squashable.mergedEffects boundaryEnd
      split <;> split <;> simp_all [writtenBlocks, Effect.writtenBlock]
  | loadFailed _ _ ih => exact ih
  | mergeFailed _ _ ih => exact ih
  | writeFailed _ _ hb _ ih =>
      simp only [writtenBlocks, mergedRanges, List.filterMap_cons, Effect.writtenBlock,
        Effect.mergedRange] at ih ⊢
      rw [ih]; simp [boundaryEnd, hb]

/-- **The target is notified at most once**, and not at all once the merges have passed
it. -/
theorem notify_count {c c' : Nat} {E : List Effect} (h : Trace s notifier c c' E) :
    E.countP Effect.isNotify ≤ if c < s.targetExclusiveBlock then 1 else 0 := by
  induction h with
  | nil => exact Nat.zero_le _
  | @merged c c' r E _ hlt _ ih =>
      have hhead : (s.mergedEffects notifier r).countP Effect.isNotify =
          if r.exclusiveEndBlock = s.targetExclusiveBlock ∧ notifier = true then 1 else 0 := by
        unfold Squashable.mergedEffects
        split <;> split <;> simp_all [Effect.isNotify]
      rw [List.countP_append, hhead]
      split_ifs at ih ⊢ <;> omega
  | loadFailed _ _ ih => simpa [Effect.isNotify] using ih
  | mergeFailed _ _ ih => simpa [Effect.isNotify] using ih
  | writeFailed _ hlt _ _ ih =>
      simp only [List.countP_cons, Effect.isNotify, Bool.false_eq_true, if_false, Nat.add_zero]
      split_ifs at ih ⊢ <;> omega

end Trace

/-! ## Every run follows the protocol -/

/-- Every pending range holds a block; `squash` keeps it so (`squash_follows`). -/
def Squashable.PendingNonempty (s : Squashable) : Prop :=
  ∀ r ∈ s.ranges, r.startBlock < r.exclusiveEndBlock

theorem mergedRanges_flatMap_mergedEffects (s : Squashable) (notifier : Bool) (M : List BlockRange) :
    mergedRanges (M.flatMap (s.mergedEffects notifier)) = M := by
  induction M with
  | nil => rfl
  | cons r M ih =>
      rw [List.flatMap_cons, mergedRanges_append, Trace.mergedRanges_mergedEffects, ih]; rfl

namespace Squashable

variable {s : Squashable}

/-- The last pass of a loop run follows the protocol from where the merges end; at a
positive interval the pass does not panic. -/
theorem LoopEnd.trace {M rest : List BlockRange} {o : Outcome MergeError} (h : s.LoopEnd M rest o)
    (hI : 0 < s.storeSaveInterval) (hrest : ∀ r ∈ rest, r.startBlock < r.exclusiveEndBlock)
    (notifier : Bool) :
    Trace s notifier (reach s.nextExpectedStartBlock M) o.squashable.nextExpectedStartBlock
        o.effects ∧
      o.squashable.ranges = rest ∧ o.squashable.targetReached = (s.advance M rest).targetReached ∧
      s.Frame o.squashable := by
  rcases h with ⟨-, hsq, heff, -⟩ | ⟨-, hsq, heff⟩ |
    ⟨r, hr, hstart, ⟨-, hsq, heff⟩ | ⟨-, hsq, heff⟩ | ⟨h0, -, hsq, heff⟩ | ⟨hb, -, hsq, heff⟩⟩ <;>
    rw [hsq, heff] <;> refine ⟨?_, rfl, rfl, Frame.refl s⟩
  · exact .nil _
  · exact .nil _
  · exact .loadFailed hstart (.nil _)
  · exact .mergeFailed hstart (.nil _)
  · omega
  · have hne := hrest r (List.mem_of_mem_head? hr)
    exact .writeFailed hstart (hstart ▸ hne) hb (.nil _)

end Squashable

/-- What a call leaves behind, as far as the protocol is concerned: its calls follow the
protocol from where the merges stood to where they stand after it, the module, store and
target are unchanged, the pending ranges stay non-empty, and the target is only marked
once a merge has ended on it. -/
def Squashable.Follows (s : Squashable) (notifier : Bool) (s' : Squashable) (E : List Effect) :
    Prop :=
  Trace s notifier s.nextExpectedStartBlock s'.nextExpectedStartBlock E ∧ s.Frame s' ∧
    s'.PendingNonempty ∧
    (s'.targetReached = true → s.targetReached = true ∨
      ∃ r ∈ mergedRanges E, r.exclusiveEndBlock = s.targetExclusiveBlock)

theorem Squashable.Follows.trans {s s' s'' : Squashable} {notifier : Bool} {E F : List Effect}
    (h : s.Follows notifier s' E) (h' : s'.Follows notifier s'' F) :
    s.Follows notifier s'' (E ++ F) := by
  obtain ⟨ht, hf, -, hr⟩ := h
  obtain ⟨ht', hf', hp', hr'⟩ := h'
  refine ⟨ht.append (ht'.congr hf.symm), hf.trans hf', hp', fun hreach => ?_⟩
  rcases hr' hreach with h | ⟨r, hr, hT⟩
  · rcases hr h with h | ⟨r, hr, hT⟩
    · exact Or.inl h
    · exact Or.inr ⟨r, by simp [hr], hT⟩
  · exact Or.inr ⟨r, by simp [hr], hf.2.2.2 ▸ hT⟩

theorem mergeLoop_follows (w : Nat → Reply) (notifier : Bool) (i : Nat) (s : Squashable)
    (hI : 0 < s.storeSaveInterval) (hs : s.PendingNonempty) :
    s.Follows notifier (mergeLoop w notifier i s.ranges s).squashable
      (mergeLoop w notifier i s.ranges s).effects := by
  obtain ⟨M, rest, o, hsplit, hchain, hend, heq⟩ := Squashable.mergeLoop_inv w notifier s.ranges i s rfl
  have hrest : ∀ r ∈ rest, r.startBlock < r.exclusiveEndBlock :=
    fun r hr => hs r (hsplit ▸ List.mem_append_right M hr)
  obtain ⟨ht, hranges, hreached, hf⟩ := hend.trace hI hrest notifier
  rw [heq]
  refine ⟨(Trace.of_chain (hchain hs)).append ht, hf, fun r hr => hrest r (hranges ▸ hr), fun h => ?_⟩
  simp only [hreached, Squashable.advance, Bool.or_eq_true, List.any_eq_true,
    decide_eq_true_eq] at h
  rcases h with h | ⟨r, hr, hT⟩
  · exact Or.inl h
  · exact Or.inr ⟨r, by simp [mergedRanges_flatMap_mergedEffects, hr], hT⟩

theorem mergePieces_follows (w : World) (notifier : Bool) :
    ∀ (pieces : List BlockRange) (j : Nat) (s : Squashable), 0 < s.storeSaveInterval →
      s.PendingNonempty →
      s.Follows notifier (Squashable.mergePieces w notifier j pieces s).squashable
        (Squashable.mergePieces w notifier j pieces s).effects
  | [], _, s, _, hs => ⟨.nil _, Squashable.Frame.refl s, hs, Or.inl⟩
  | _ :: rest, j, s, hI, hs => by
      have h1 := mergeLoop_follows (w j) notifier 0 s hI hs
      unfold Squashable.mergePieces Squashable.mergeAvailablePartials
      dsimp only
      split
      · exact h1
      · exact h1.trans (mergePieces_follows w notifier rest (j + 1) _ (h1.2.1.2.2.1 ▸ hI) h1.2.2.1)

theorem squash_follows (w : World) (notifier : Bool) (s : Squashable) (br : BlockRange)
    (hI : 0 < s.storeSaveInterval) (hs : s.PendingNonempty) :
    s.Follows notifier (s.squash w notifier br).squashable (s.squash w notifier br).effects := by
  obtain ⟨rs, hrs, hmem⟩ := s.cumulatePieces_eq (br.split s.storeSaveInterval)
  have hfr : s.Follows notifier { s with ranges := rs } [] :=
    ⟨.nil _, Squashable.Frame.refl s, fun r hr => (hmem r hr).elim (hs r)
      ((split_chain hI br).1.nonempty r), Or.inl⟩
  unfold Squashable.squash
  dsimp only
  split <;> rename_i hc <;> simp only [hc] at hrs <;> subst hrs
  · exact hfr
  · exact hfr.trans (mergePieces_follows w notifier _ 0 _ hI hfr.2.2.1)

theorem squashAll_follows (notifier : Bool) :
    ∀ (calls : List (BlockRange × World)) (s : Squashable), 0 < s.storeSaveInterval →
      s.PendingNonempty → s.Follows notifier (s.squashAll notifier calls).1 (s.squashAll notifier calls).2.1
  | [], s, _, hs => ⟨.nil _, Squashable.Frame.refl s, hs, Or.inl⟩
  | (r, w) :: calls, s, hI, hs => by
      have h1 := squash_follows w notifier s r hI hs
      exact h1.trans (squashAll_follows notifier calls _ (h1.2.1.2.2.1 ▸ hI) h1.2.2.1)

/-- **The calls of every run.** From a new squashable starting at `b`, over any squash calls
with any ranges and in any world: the successful merges form a chain from `b`, so no block
is merged twice; every `LoadFrom`, `Merge`, `WriteState` and `DeletePartialFile` is made at
the end of the successful merges before it; `WriteState` is called exactly at the ends of
the merges that fall on a boundary, in order; the target is notified at most once, and
only once the merges have reached it; and the target is marked reached only if a merge has
ended on it. -/
theorem squashAll_calls_follow_merges (notifier : Bool) (builder : Store)
    (targetExclusiveBlock storeSaveInterval b : Nat) (hI : 0 < storeSaveInterval)
    (calls : List (BlockRange × World)) :
    let s₀ := newSquashable builder targetExclusiveBlock storeSaveInterval b
    let run := s₀.squashAll notifier calls
    Chain b (mergedRanges run.2.1) ∧ Replay (CallOk s₀) b run.2.1 ∧
      writtenBlocks run.2.1 = (mergedRanges run.2.1).filterMap (boundaryEnd storeSaveInterval) ∧
      run.2.1.countP Effect.isNotify ≤ 1 ∧
      (run.1.targetReached = true →
        ∃ r ∈ mergedRanges run.2.1, r.exclusiveEndBlock = targetExclusiveBlock) := by
  intro s₀ run
  obtain ⟨ht, -, -, hreached⟩ := squashAll_follows notifier calls s₀ hI (fun r hr => nomatch hr)
  refine ⟨ht.chain.1, ht.replay, ht.written_eq, le_trans ht.notify_count (by split <;> omega),
    fun h => (hreached h).resolve_left Bool.false_ne_true⟩

/-- Two calls on `[0, 10)` and `[10, 20)`, the first with a failing `LoadFrom`. -/
theorem squashAll_calls_follow_merges_of_retry :
    let s₀ := newSquashable ⟨"store", 0, 0⟩ 20 10 0
    let run := s₀.squashAll false
      [(⟨0, 10⟩, fun _ _ => ⟨false, false, true, true⟩), (⟨10, 20⟩, fun _ _ => Reply.ok)]
    0 < 10 ∧ Chain 0 (mergedRanges run.2.1) ∧ Replay (CallOk s₀) 0 run.2.1 ∧
      writtenBlocks run.2.1 = (mergedRanges run.2.1).filterMap (boundaryEnd 10) ∧
      run.2.1.countP Effect.isNotify ≤ 1 ∧
      (run.1.targetReached = true → ∃ r ∈ mergedRanges run.2.1, r.exclusiveEndBlock = 20) :=
  ⟨by decide, squashAll_calls_follow_merges false ⟨"store", 0, 0⟩ 20 10 0 (by decide) _⟩

/-- A run whose first `LoadFrom` fails: the next call loads `[0, 10)` again, so the ranges
handed to `LoadFrom` do not form a chain. -/
theorem retry_reloads :
    let E := ((newSquashable ⟨"store", 0, 0⟩ 20 10 0).squashAll false
      [(⟨0, 10⟩, fun _ _ => ⟨false, false, true, true⟩), (⟨10, 20⟩, fun _ _ => Reply.ok)]).2.1
    E.filterMap Effect.loadedRange = [⟨0, 10⟩, ⟨0, 10⟩, ⟨10, 20⟩] ∧
      ¬ Chain 0 (E.filterMap Effect.loadedRange) := by
  decide

end Substreams.Orchestrator
