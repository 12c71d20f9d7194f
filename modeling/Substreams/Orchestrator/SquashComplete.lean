import Substreams.Orchestrator.MergeTrace

set_option autoImplicit false

/-! # Squashing every segment, in any order

When every call to storage succeeds, a squashable merges every segment of `[b, T)` once and
in order, however the segments arrive and however they are grouped into squash calls.

The state after some of the segments have arrived is determined by which have arrived,
not by the order: with `D` the pieces delivered so far, the merges stand at the end of the
longest run of delivered segments from `b` (`segs.takeWhile (· ∈ D)`), and the pending
list holds the delivered segments after that run, in order. A squash call adds its pieces
to the list, and the sort puts them where they belong among the segments
(`sortRanges_pending`); the merge loop then merges from the head for as long as it can,
which is exactly up to the first segment still missing (`chain_filter_split`).
`squashAll_complete` puts the two together over every run.
-/

namespace Substreams.Orchestrator

open Substreams.Block

/-! ## When every call succeeds -/

/-- The world in which the context stays live and every call succeeds. -/
def allOk : World := fun _ _ => Reply.ok

namespace Squashable

theorem mergeLoop_ok_err (notifier : Bool) (j : Nat) :
    ∀ (pending : List BlockRange) (i : Nat) (s : Squashable), 0 < s.storeSaveInterval →
      (mergeLoop (allOk j) notifier i pending s).err = none
  | [], _, _, _ => rfl
  | r :: rest, i, s, hI => by
      by_cases h : s.nextExpectedStartBlock = r.startBlock
      · simp only [mergeLoop, allOk, Reply.ok, mergeHead, h, ne_eq, not_true_eq_false, if_false,
          Bool.not_true, Bool.false_eq_true, and_false, Nat.pos_iff_ne_zero.mp hI]
        exact mergeLoop_ok_err notifier j rest (i + 1) _ hI
      · simp [mergeLoop, allOk, Reply.ok, h]

/-- **The merge loop when every call succeeds**, at a positive interval, merges a prefix `M`
of the pending list, a chain from `nextExpectedStartBlock`, and stops at a head that does not
start where `M` ends. -/
theorem mergeLoop_ok (notifier : Bool) (j i : Nat) (s : Squashable) (hI : 0 < s.storeSaveInterval) :
    ∃ M rest, s.ranges = M ++ rest ∧ (s.PendingNonempty → Chain s.nextExpectedStartBlock M) ∧
      (∀ r ∈ rest.head?, r.startBlock ≠ reach s.nextExpectedStartBlock M) ∧
      mergeLoop (allOk j) notifier i s.ranges s =
        ⟨none, s.advance M rest, M.flatMap (s.mergedEffects notifier)⟩ := by
  obtain ⟨M, rest, o, hsplit, hchain, hend, heq⟩ := mergeLoop_inv (allOk j) notifier s.ranges i s rfl
  have herr : o.err = none := by rw [← mergeLoop_ok_err notifier j s.ranges i s hI, heq]
  rcases hend with ⟨-, hsq, heff, hhead⟩ | ⟨h, -⟩ |
    ⟨_, -, -, ⟨h, -⟩ | ⟨h, -⟩ | ⟨-, h, -⟩ | ⟨-, h, -⟩⟩
  · exact ⟨M, rest, hsplit, hchain, hhead, by rw [heq, herr, hsq, heff, List.append_nil]⟩
  all_goals rw [herr] at h; cases h

theorem mergePieces_of_head_ne (notifier : Bool) :
    ∀ (P : List BlockRange) (j : Nat) (s : Squashable),
      (∀ r ∈ s.ranges.head?, r.startBlock ≠ s.nextExpectedStartBlock) →
      mergePieces allOk notifier j P s = ⟨none, s, []⟩
  | [], _, _, _ => rfl
  | _ :: P, j, s, h => by
      simp only [mergePieces, mergeAvailablePartials, mergeLoop_of_head_ne s (allOk j) notifier 0 rfl h,
        mergePieces_of_head_ne notifier P (j + 1) s h, List.nil_append]

/-- When every call succeeds, the first piece's loop does all the merging; the loops of the
other pieces find the head blocked and do nothing. -/
theorem mergePieces_ok (notifier : Bool) (j : Nat) (p : BlockRange) (P : List BlockRange)
    (s : Squashable) (hI : 0 < s.storeSaveInterval) :
    ∃ M rest, s.ranges = M ++ rest ∧ (s.PendingNonempty → Chain s.nextExpectedStartBlock M) ∧
      (∀ r ∈ rest.head?, r.startBlock ≠ reach s.nextExpectedStartBlock M) ∧
      mergePieces allOk notifier j (p :: P) s =
        ⟨none, s.advance M rest, M.flatMap (s.mergedEffects notifier)⟩ := by
  obtain ⟨M, rest, hsplit, hchain, hhead, heq⟩ := mergeLoop_ok notifier j 0 s hI
  refine ⟨M, rest, hsplit, hchain, hhead, ?_⟩
  simp only [mergePieces, mergeAvailablePartials, heq,
    mergePieces_of_head_ne notifier P (j + 1) (s.advance M rest) hhead, List.append_nil]

end Squashable

/-! ## Runs of delivered segments -/

section TakeWhile

variable {α : Type} {p q : α → Bool}

/-- Growing the predicate of a `takeWhile` carries on from where the smaller one stopped. -/
theorem takeWhile_append_of_imp (h : ∀ a, p a → q a) :
    ∀ l : List α, l.takeWhile p ++ (l.dropWhile p).takeWhile q = l.takeWhile q ∧
      (l.dropWhile p).dropWhile q = l.dropWhile q
  | [] => ⟨rfl, rfl⟩
  | a :: l => by
      cases hp : p a
      · simp [hp]
      · simp [hp, h a hp, takeWhile_append_of_imp h l]

end TakeWhile

/-- **What a loop over a filtered chain merges.** A chain `c` from `x` filtered by `Q`
splits into a chain `M` from `x` and a rest whose head does not start where `M` ends only
as the run of `c` that `Q` keeps from the start, and what `Q` keeps after it. -/
theorem chain_filter_split (Q : BlockRange → Bool) :
    ∀ {x : Nat} {c M rest : List BlockRange}, Chain x c → c.filter Q = M ++ rest →
      Chain x M → (∀ r ∈ rest.head?, r.startBlock ≠ reach x M) →
      M = c.takeWhile Q ∧ rest = (c.dropWhile Q).filter Q
  | _, [], M, rest, _, h, _, _ => by
      obtain ⟨rfl, rfl⟩ := List.append_eq_nil.mp h.symm
      exact ⟨rfl, rfl⟩
  | x, a :: c, M, rest, hc, h, hM, hhead => by
      obtain ⟨ha, hlt, hc'⟩ := hc
      cases hQ : Q a with
      | false =>
          rw [List.filter_cons_of_neg (by simp [hQ])] at h
          cases M with
          | nil =>
              subst h
              simp [hQ]
          | cons m M =>
              have hm : m ∈ c := (List.mem_filter.mp (h ▸ List.mem_cons_self m _ :
                m ∈ c.filter Q)).1
              have := (hc'.le_start m hm).1
              have := hM.1
              omega
      | true =>
          rw [List.filter_cons_of_pos hQ] at h
          cases M with
          | nil => exact absurd ha (hhead a (by rw [← List.nil_append rest, ← h]; rfl))
          | cons m M =>
              obtain ⟨rfl, h'⟩ := List.cons.inj h
              obtain ⟨rfl, rfl⟩ := chain_filter_split Q hc' h' hM.2.2 hhead
              simp [hQ]

/-- A call's pieces, none delivered before, sort into the pending list where they belong
among the segments. -/
theorem sortRanges_pending {b : Nat} {segs D P : List BlockRange} (hc : Chain b segs)
    (hnodup : (D ++ P).Nodup) (hsub : ∀ p ∈ P, p ∈ segs) :
    sortRanges ((segs.dropWhile (· ∈ D)).filter (· ∈ D) ++ P) =
      (segs.dropWhile (· ∈ D)).filter (· ∈ D ++ P) := by
  obtain ⟨-, hP, hdisj⟩ := List.nodup_append.mp hnodup
  have hdrop := hc.nodup.sublist (List.dropWhile_sublist (· ∈ D))
  have hmemP : ∀ a ∈ P, a ∈ segs.dropWhile (· ∈ D) := fun a ha => by
    have h := hsub a ha
    rw [← List.takeWhile_append_dropWhile (· ∈ D) segs, List.mem_append] at h
    exact h.resolve_left fun ht => hdisj (by simpa using List.mem_takeWhile_imp ht) ha
  refine sortRanges_eq_of_perm ?_ ((hc.sorted.sublist (List.dropWhile_sublist _)).filter _)
  refine (List.perm_ext_iff_of_nodup (List.nodup_append.mpr ⟨hdrop.filter _, hP,
    fun a ha hb => hdisj (by simpa using (List.mem_filter.mp ha).2) hb⟩) (hdrop.filter _)).mpr
    fun a => ?_
  simp only [List.mem_append, List.mem_filter, decide_eq_true_eq]
  exact ⟨fun h => h.elim (fun ⟨ha, hD⟩ => ⟨ha, .inl hD⟩) fun hb => ⟨hmemP a hb, .inr hb⟩,
    fun ⟨ha, h⟩ => h.imp (fun hD => ⟨ha, hD⟩) id⟩

/-! ## The state after some segments have arrived -/

/-- The squashable after the pieces `D` of the segments `segs` from `b` have arrived: the
merges stand at the end of the longest run of delivered segments from `b`, the pending list
holds the delivered segments after that run, in order, and the target is marked exactly
when a merged segment ends on it. -/
def Squashable.Delivered (b : Nat) (segs D : List BlockRange) (s : Squashable) : Prop :=
  s.nextExpectedStartBlock = reach b (segs.takeWhile (· ∈ D)) ∧
    s.ranges = (segs.dropWhile (· ∈ D)).filter (· ∈ D) ∧
    s.targetReached = (segs.takeWhile (· ∈ D)).any (·.exclusiveEndBlock = s.targetExclusiveBlock)

open Squashable

/-- **One squash call when every call succeeds.** A call whose pieces are segments not
delivered before returns no error, and leaves the state its pieces, added to the delivered
ones, determine; its merges carry the run of delivered segments on. -/
theorem squash_delivered (notifier : Bool) (s : Squashable) (b : Nat) (segs D : List BlockRange)
    (br : BlockRange) (hI : 0 < s.storeSaveInterval) (hc : Chain b segs)
    (hMIB : s.builder.moduleInitialBlock ≤ b)
    (hSIB : s.builder.storeInitialBlock ≤ b) (hnodup : (D ++ br.split s.storeSaveInterval).Nodup)
    (hsub : ∀ p ∈ br.split s.storeSaveInterval, p ∈ segs) (hD : s.Delivered b segs D) :
    (s.squash allOk notifier br).err = none ∧ s.Frame (s.squash allOk notifier br).squashable ∧
      (s.squash allOk notifier br).squashable.Delivered b segs (D ++ br.split s.storeSaveInterval) ∧
      segs.takeWhile (· ∈ D) ++ mergedRanges (s.squash allOk notifier br).effects =
        segs.takeWhile (· ∈ D ++ br.split s.storeSaveInterval) := by
  obtain ⟨hnext, hranges, hreached⟩ := hD
  have hstart : ∀ p ∈ br.split s.storeSaveInterval, b ≤ p.startBlock ∧ b < p.exclusiveEndBlock :=
    fun p hp => hc.le_start p (hsub p hp)
  have hsorted : s.ranges.Sorted (· ≤ ·) :=
    hranges ▸ (hc.sorted.sublist (List.dropWhile_sublist _)).filter _
  have hcum := s.cumulatePieces_of_le _ hsorted (fun p hp => hMIB.trans (hstart p hp).1)
  rw [List.filter_eq_self.mpr (fun p hp => decide_eq_true (hSIB.trans_lt (hstart p hp).2)),
    hranges, sortRanges_pending hc hnodup hsub] at hcum
  rw [squash_of_le s allOk notifier br (fun p hp => hMIB.trans (hstart p hp).1), hcum]
  generalize br.split s.storeSaveInterval = P at *
  have hc' : Chain s.nextExpectedStartBlock (segs.dropWhile (· ∈ D)) := by
    have h := hc
    rw [← List.takeWhile_append_dropWhile (· ∈ D) segs, chain_append] at h
    exact hnext ▸ h.2
  obtain ⟨htake, hdrop⟩ := takeWhile_append_of_imp (p := (· ∈ D)) (q := (· ∈ D ++ P))
    (fun a h => by simp only [decide_eq_true_eq, List.mem_append] at h ⊢; exact Or.inl h) segs
  cases P with
  | nil =>
      simp only [List.append_nil] at htake hdrop ⊢
      exact ⟨rfl, Frame.refl s, ⟨hnext, rfl, hreached⟩, List.append_nil _⟩
  | cons p P =>
      obtain ⟨M, rest, hsplit, hchain, hhead, heq⟩ := mergePieces_ok notifier 0 p P
        { s with ranges := (segs.dropWhile (· ∈ D)).filter (· ∈ D ++ p :: P) } hI
      rw [heq]
      obtain ⟨rfl, rfl⟩ := chain_filter_split _ hc' hsplit
        (hchain fun r hr => hc'.nonempty r (List.mem_filter.mp hr).1) hhead
      refine ⟨rfl, Frame.refl s, ⟨?_, by rw [← hdrop]; rfl, ?_⟩, by
        rw [mergedRanges_flatMap_mergedEffects, htake]⟩
      · show reach s.nextExpectedStartBlock _ = _
        rw [hnext, ← reach_append, htake]
      · simp only [advance, hreached, ← htake, List.any_append]

/-- **Every run when every call succeeds**, by induction on the calls: no call returns an
error, the module, store and target stay, and the state and the merges are those the
delivered pieces determine. -/
theorem squashAll_delivered (notifier : Bool) (b I : Nat) (segs : List BlockRange)
    (hc : Chain b segs) (hI : 0 < I) :
    ∀ (calls : List BlockRange) (s : Squashable) (D : List BlockRange), s.storeSaveInterval = I →
      s.builder.moduleInitialBlock ≤ b → s.builder.storeInitialBlock ≤ b →
      (D ++ calls.flatMap (·.split I)).Nodup → (∀ p ∈ calls.flatMap (·.split I), p ∈ segs) →
      s.Delivered b segs D →
      (∀ e ∈ (s.squashAll notifier (calls.map (·, allOk))).2.2, e = none) ∧
        s.Frame (s.squashAll notifier (calls.map (·, allOk))).1 ∧
        (s.squashAll notifier (calls.map (·, allOk))).1.Delivered b segs
          (D ++ calls.flatMap (·.split I)) ∧
        segs.takeWhile (· ∈ D) ++ mergedRanges (s.squashAll notifier (calls.map (·, allOk))).2.1 =
          segs.takeWhile (· ∈ D ++ calls.flatMap (·.split I))
  | [], s, D, _, _, _, _, _, hD => by simpa [squashAll] using ⟨Frame.refl s, hD⟩
  | br :: calls, s, D, hsI, hMIB, hSIB, hnodup, hsub, hD => by
      subst hsI
      rw [List.flatMap_cons] at hnodup hsub ⊢
      rw [← List.append_assoc] at hnodup ⊢
      obtain ⟨herr, hf, hD', hm⟩ := squash_delivered notifier s b segs D br hI hc hMIB hSIB
        (hnodup.sublist (List.sublist_append_left _ _))
        (fun p hp => hsub p (List.mem_append_left _ hp)) hD
      obtain ⟨herrs, hf', hD'', hm'⟩ := squashAll_delivered notifier b _ segs hc hI calls _ _ hf.2.2.1
        (hf.2.1 ▸ hMIB) (hf.2.1 ▸ hSIB) hnodup (fun p hp => hsub p (List.mem_append_right _ hp)) hD'
      simp only [List.map_cons, squashAll, mergedRanges_append, ← List.append_assoc, hm, hm']
      exact ⟨fun e he => (List.mem_cons.mp he).elim (fun h => h.trans herr) (herrs e), hf.trans hf',
        hD'', trivial⟩

/-- What `NewSquasher` builds for one builder, when its complete snapshot, if any, ends after
the module's initial block: an empty squashable whose store and merges start at or before
its next expected block. -/
theorem newSquashableFor_ok {st : Storage} {I T : Nat} {builder : Store} {s₀ : Squashable}
    (hnew : newSquashableFor st I T builder = .ok s₀)
    (hsnap : ∀ last, st.lastKVSavedBlock builder = some last →
      last = 0 ∨ builder.moduleInitialBlock < last) :
    s₀.ranges = [] ∧ s₀.targetReached = false ∧ s₀.storeSaveInterval = I ∧
      s₀.targetExclusiveBlock = T ∧ s₀.builder.moduleInitialBlock ≤ s₀.nextExpectedStartBlock ∧
      s₀.builder.storeInitialBlock ≤ s₀.nextExpectedStartBlock := by
  unfold newSquashableFor at hnew
  split at hnew
  · cases hnew
  · cases hnew
    exact ⟨rfl, rfl, rfl, rfl, le_rfl, le_rfl⟩
  · rename_i last hne hlast
    dsimp only at hnew
    split at hnew
    · cases hnew
      have := (hsnap last hlast).resolve_left hne
      exact ⟨rfl, rfl, rfl, rfl, this.le, this.le⟩
    · cases hnew

/-- The runs from what `NewSquasher` builds, when every call to storage succeeds, over calls
whose pieces are segments of `[b, T)`, each at most once: no call returns an error, the target
stays, and the state and the merges are those the delivered pieces determine. -/
theorem squashAll_delivered_new {st : Storage} {builder : Store} {I T : Nat} {s₀ : Squashable}
    (notifier : Bool) (hI : 0 < I) (hnew : newSquashableFor st I T builder = .ok s₀)
    (hsnap : ∀ last, st.lastKVSavedBlock builder = some last →
      last = 0 ∨ builder.moduleInitialBlock < last)
    (calls : List BlockRange) (hnodup : (calls.flatMap (·.split I)).Nodup)
    (hsub : ∀ p ∈ calls.flatMap (·.split I),
      p ∈ BlockRange.split ⟨s₀.nextExpectedStartBlock, T⟩ I) :
    (∀ e ∈ (s₀.squashAll notifier (calls.map (·, allOk))).2.2, e = none) ∧
      (s₀.squashAll notifier (calls.map (·, allOk))).1.targetExclusiveBlock = T ∧
      (s₀.squashAll notifier (calls.map (·, allOk))).1.Delivered s₀.nextExpectedStartBlock
        (BlockRange.split ⟨s₀.nextExpectedStartBlock, T⟩ I) (calls.flatMap (·.split I)) ∧
      mergedRanges (s₀.squashAll notifier (calls.map (·, allOk))).2.1 =
        (BlockRange.split ⟨s₀.nextExpectedStartBlock, T⟩ I).takeWhile
          (· ∈ calls.flatMap (·.split I)) := by
  obtain ⟨hr, htr, hsI, hsT, hMIB, hSIB⟩ := newSquashableFor_ok hnew hsnap
  obtain ⟨hc, -⟩ := split_chain hI ⟨s₀.nextExpectedStartBlock, T⟩
  have hnil : ∀ l : List BlockRange, l.takeWhile (· ∈ ([] : List BlockRange)) = [] := fun l => by
    cases l <;> simp
  have h₀ : s₀.Delivered s₀.nextExpectedStartBlock (BlockRange.split ⟨s₀.nextExpectedStartBlock, T⟩ I) [] :=
    ⟨by rw [hnil]; rfl, by simp [hr], by rw [htr, hnil]; rfl⟩
  obtain ⟨herr, hf, hD, hm⟩ :=
    squashAll_delivered notifier _ _ _ hc hI calls s₀ [] hsI hMIB hSIB hnodup hsub h₀
  simp only [List.nil_append, hnil] at hD hm
  exact ⟨herr, hf.2.2.2.trans hsT, hD, hm⟩

/-- The end of a run from what `NewSquasher` builds, whose calls deliver every segment of
`[b, T)` once, when every call to storage succeeds: no call has returned an error, the merges
stand at `T` and are the segments in order, the target is marked reached and the pending list
is empty. -/
theorem squashAll_ready {st : Storage} {builder : Store} {I T : Nat} {s₀ : Squashable}
    (notifier : Bool) (hI : 0 < I) (hnew : newSquashableFor st I T builder = .ok s₀)
    (hsnap : ∀ last, st.lastKVSavedBlock builder = some last →
      last = 0 ∨ builder.moduleInitialBlock < last)
    (hT : s₀.nextExpectedStartBlock < T) (calls : List BlockRange)
    (hcalls : (calls.flatMap (·.split I)).Perm (BlockRange.split ⟨s₀.nextExpectedStartBlock, T⟩ I)) :
    (∀ e ∈ (s₀.squashAll notifier (calls.map (·, allOk))).2.2, e = none) ∧
      (s₀.squashAll notifier (calls.map (·, allOk))).1.nextExpectedStartBlock = T ∧
      (s₀.squashAll notifier (calls.map (·, allOk))).1.targetReached = true ∧
      (s₀.squashAll notifier (calls.map (·, allOk))).1.ranges = [] ∧
      mergedRanges (s₀.squashAll notifier (calls.map (·, allOk))).2.1 =
        BlockRange.split ⟨s₀.nextExpectedStartBlock, T⟩ I := by
  obtain ⟨hc, hreach⟩ := split_chain hI ⟨s₀.nextExpectedStartBlock, T⟩
  obtain ⟨herr, hsT, ⟨hnext, hranges, hreached⟩, hm⟩ := squashAll_delivered_new notifier hI hnew
    hsnap calls (hcalls.nodup_iff.mpr hc.nodup) fun p hp => hcalls.subset hp
  have hall : ∀ x ∈ BlockRange.split ⟨s₀.nextExpectedStartBlock, T⟩ I,
      decide (x ∈ calls.flatMap (·.split I)) = true :=
    fun x hx => decide_eq_true (hcalls.mem_iff.mpr hx)
  rw [List.takeWhile_eq_self_iff.mpr hall] at hnext hreached hm
  rw [List.dropWhile_eq_nil_iff.mpr hall] at hranges
  have hend : reach s₀.nextExpectedStartBlock (BlockRange.split ⟨s₀.nextExpectedStartBlock, T⟩ I) = T :=
    hreach.trans (max_eq_right hT.le)
  refine ⟨herr, hnext.trans hend, ?_, hranges, hm⟩
  rw [hreached, hsT, List.any_eq_true]
  rcases reach_eq_or_mem s₀.nextExpectedStartBlock (BlockRange.split ⟨s₀.nextExpectedStartBlock, T⟩ I)
    with h | ⟨r, hr, h⟩
  · omega
  · exact ⟨r, hr, decide_eq_true (h.trans hend)⟩

/-- **Completeness and order independence.** Take the squashable `NewSquasher` builds for
a builder whose complete snapshot, if any, ends after the module's initial block, starting
at `b < T`, and squash calls whose pieces are the segments of `[b, T)`, each once, in any
order and grouped in any way, with every call to storage succeeding. After every call, no
call has returned an error, the merges stand at the end of the longest run of delivered
segments from `b`, the pending list holds exactly the delivered segments after that run,
in order, and the merges so far are that run. After the last call the merges stand at `T`,
the target is marked reached, the pending list is empty, so `StoresReady` has nothing to
report, and the segments have been merged each once, in order. -/
theorem squashAll_complete (st : Storage) (builder : Store)
    (storeSaveInterval targetExclusiveBlock : Nat) (s₀ : Squashable) (notifier : Bool)
    (hI : 0 < storeSaveInterval)
    (hnew : newSquashableFor st storeSaveInterval targetExclusiveBlock builder = .ok s₀)
    (hsnap : ∀ last, st.lastKVSavedBlock builder = some last →
      last = 0 ∨ builder.moduleInitialBlock < last)
    (hT : s₀.nextExpectedStartBlock < targetExclusiveBlock) (calls : List BlockRange)
    (hcalls : (calls.flatMap (·.split storeSaveInterval)).Perm
      (BlockRange.split ⟨s₀.nextExpectedStartBlock, targetExclusiveBlock⟩ storeSaveInterval)) :
    let segs := BlockRange.split ⟨s₀.nextExpectedStartBlock, targetExclusiveBlock⟩ storeSaveInterval
    (∀ k, let D := (calls.take k).flatMap (·.split storeSaveInterval);
      let run := s₀.squashAll notifier ((calls.take k).map (·, allOk));
      (∀ e ∈ run.2.2, e = none) ∧
        run.1.nextExpectedStartBlock = reach s₀.nextExpectedStartBlock (segs.takeWhile (· ∈ D)) ∧
        run.1.ranges = (segs.dropWhile (· ∈ D)).filter (· ∈ D) ∧
        mergedRanges run.2.1 = segs.takeWhile (· ∈ D)) ∧
    (let run := s₀.squashAll notifier (calls.map (·, allOk));
      run.1.nextExpectedStartBlock = targetExclusiveBlock ∧ run.1.targetReached = true ∧
        run.1.ranges = [] ∧ run.1.readyErrors = [] ∧ mergedRanges run.2.1 = segs) := by
  intro segs
  obtain ⟨hc, -⟩ := split_chain hI ⟨s₀.nextExpectedStartBlock, targetExclusiveBlock⟩
  have hnodup := hcalls.nodup_iff.mpr hc.nodup
  refine ⟨fun k => ?_, ?_⟩
  · have hk : List.Sublist ((calls.take k).flatMap (·.split storeSaveInterval))
        (calls.flatMap (·.split storeSaveInterval)) := by
      conv_rhs => rw [← List.take_append_drop k calls]
      rw [List.flatMap_append]
      exact List.sublist_append_left _ _
    obtain ⟨herr, -, ⟨hnext, hranges, -⟩, hm⟩ := squashAll_delivered_new notifier hI hnew hsnap _
      (hnodup.sublist hk) fun p hp => hcalls.subset (hk.subset hp)
    exact ⟨herr, hnext, hranges, hm⟩
  · obtain ⟨-, hnext, htarget, hranges, hm⟩ :=
      squashAll_ready notifier hI hnew hsnap hT calls hcalls
    exact ⟨hnext, htarget, hranges, (readyErrors_eq_nil_iff _).mpr ⟨htarget, hranges⟩, hm⟩

/-- The three segments of `[0, 25)` arriving in two calls, the later segments first. -/
theorem squashAll_complete_out_of_order :
    let st : Storage := ⟨fun _ => some 0, fun _ _ => true⟩
    let s₀ := newSquashable ⟨"store", 0, 0⟩ 25 10 0
    let calls : List BlockRange := [⟨10, 25⟩, ⟨0, 10⟩]
    let segs := BlockRange.split ⟨s₀.nextExpectedStartBlock, 25⟩ 10
    0 < 10 ∧ newSquashableFor st 10 25 ⟨"store", 0, 0⟩ = .ok s₀ ∧
      (∀ last, st.lastKVSavedBlock ⟨"store", 0, 0⟩ = some last → last = 0 ∨ 0 < last) ∧
      s₀.nextExpectedStartBlock < 25 ∧ (calls.flatMap (·.split 10)).Perm segs ∧
      (∀ k, let D := (calls.take k).flatMap (·.split 10);
        let run := s₀.squashAll false ((calls.take k).map (·, allOk));
        (∀ e ∈ run.2.2, e = none) ∧
          run.1.nextExpectedStartBlock = reach s₀.nextExpectedStartBlock (segs.takeWhile (· ∈ D)) ∧
          run.1.ranges = (segs.dropWhile (· ∈ D)).filter (· ∈ D) ∧
          mergedRanges run.2.1 = segs.takeWhile (· ∈ D)) ∧
      (let run := s₀.squashAll false (calls.map (·, allOk));
        run.1.nextExpectedStartBlock = 25 ∧ run.1.targetReached = true ∧
          run.1.ranges = [] ∧ run.1.readyErrors = [] ∧ mergedRanges run.2.1 = segs) :=
  ⟨by decide, rfl, fun _ h => Or.inl (Option.some_injective _ h).symm, by decide, by decide,
    squashAll_complete ⟨fun _ => some 0, fun _ _ => true⟩ ⟨"store", 0, 0⟩ 10 25 _ false (by decide) rfl
      (fun _ h => Or.inl (Option.some_injective _ h).symm) (by decide) [⟨10, 25⟩, ⟨0, 10⟩] (by decide)⟩

end Substreams.Orchestrator
