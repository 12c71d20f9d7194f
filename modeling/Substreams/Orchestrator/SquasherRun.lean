import Substreams.Orchestrator.SquashComplete

set_option autoImplicit false

/-! # The squasher over all its modules

`Squasher.Squash` hands a finished job's range to the squashable of the job's module and
leaves the others alone. Over calls for several modules, in any interleaving
(`Squasher.squashAll`), the run fails exactly when a call names a module that `NewSquasher`
did not register (`squashAll_ok_iff`, `squashAll_eq_error`); otherwise each squashable goes
through exactly the calls for its own module, in their order, and each call returns the error
that squashable returned (`squashAll_lookup`). So the interleaving does not matter: two lists
of calls with the same calls for each module end the same way (`squashAll_interleavings`).

`NewSquasher` fails exactly at the first builder whose snapshot cannot be read or loaded, and
otherwise registers under each name the squashable of the last builder of that name
(`newSquasher_registry`). From what `NewSquasher` builds, when the calls for every module deliver that module's segments
up to the target, each once and in any order, with every call to storage succeeding, every
call returns `nil` and `StoresReady` has nothing to report (`squasher_storesReady`).
-/

namespace Substreams.Orchestrator

open Substreams.Block

/-! ## The squashables by name -/

section Lookup

variable {β : Type}

theorem lookup_cons_pair (e : String × β) (l : List (String × β)) (n : String) :
    (e :: l).lookup n = if n = e.1 then some e.2 else l.lookup n := by
  obtain ⟨k, v⟩ := e
  rw [List.lookup_cons]
  by_cases h : n = k
  · simp [h]
  · simp [h, beq_false_of_ne h]

theorem lookup_isSome_iff_mem_keys (l : List (String × β)) (n : String) :
    (l.lookup n).isSome ↔ n ∈ l.map Prod.fst := by
  induction l with
  | nil => simp
  | cons e l ih =>
      by_cases h : n = e.1 <;> simp [lookup_cons_pair, h, ih]

/-- With distinct names, every entry is what its name looks up. -/
theorem lookup_of_mem_nodup {l : List (String × β)} (hl : (l.map Prod.fst).Nodup)
    {e : String × β} (he : e ∈ l) : l.lookup e.1 = some e.2 := by
  induction l with
  | nil => cases he
  | cons x l ih =>
      rw [List.map_cons, List.nodup_cons] at hl
      rcases List.mem_cons.mp he with rfl | he
      · simp [lookup_cons_pair]
      · have hne : e.1 ≠ x.1 := fun h => hl.1 (h ▸ List.mem_map_of_mem Prod.fst he)
        simp [lookup_cons_pair, hne, ih hl.2 he]

/-- The entry of `m` replaced by `v`, as `Squash` replaces it: the names stay. -/
theorem keys_replace (l : List (String × β)) (m : String) (v : β) :
    (l.map fun e => if e.1 = m then (e.1, v) else e).map Prod.fst = l.map Prod.fst := by
  rw [List.map_map]
  exact List.map_congr_left fun e _ => by by_cases h : e.1 = m <;> simp [h]

/-- The entry of `m` replaced by `v`: a registered `m` now looks up `v`, every other name what
it looked up before. -/
theorem lookup_replace (l : List (String × β)) (m n : String) (v : β) :
    (l.map fun e => if e.1 = m then (e.1, v) else e).lookup n =
      if n = m ∧ (l.lookup m).isSome then some v else l.lookup n := by
  induction l with
  | nil => simp
  | cons e l ih =>
      by_cases hk : e.1 = m
      · by_cases hn : n = m <;> simp [lookup_cons_pair, hk, hn, ih]
      · have hm : m ≠ e.1 := Ne.symm hk
        rw [List.map_cons, if_neg hk, lookup_cons_pair, lookup_cons_pair, lookup_cons_pair, ih,
          if_neg hm]
        by_cases hn : n = e.1
        · simp [hn, hk]
        · simp [hn]

end Lookup

/-- The ranges and worlds of the calls for module `n`, in their order. -/
def callsFor (n : String) (calls : List (String × BlockRange × World)) :
    List (BlockRange × World) :=
  (calls.filter (·.1 = n)).map Prod.snd

namespace Squasher

/-- `Squash` calls one after the other, each with its module, range and world: the squasher
after them and each call's module with the error it returned, or the error of the first call
whose module is not registered. The effects are each squashable's own (`Squashable.squashAll`)
and are not collected here. -/
def squashAll : Squasher → List (String × BlockRange × World) →
    Except SquashError (Squasher × List (String × Option SquashError))
  | sq, [] => .ok (sq, [])
  | sq, (m, r, w) :: calls => do
      let (sq', err, _) ← sq.squash w m r
      let (sq'', errs) ← sq'.squashAll calls
      pure (sq'', (m, err) :: errs)

variable {sq : Squasher}

/-- `Squash` on a module that is not registered. -/
theorem squash_of_lookup_none {m : String} (hs : sq.squashables.lookup m = none) (w : World)
    (r : BlockRange) : sq.squash w m r = .error (.moduleNotFound m) := by
  simp [squash, hs]

/-- `Squash` on a registered module: its squashable squashes, the squasher keeps its names and
its notifier, and every other module looks up what it did before. -/
theorem squash_spec {m : String} {s : Squashable} (hs : sq.squashables.lookup m = some s)
    (w : World) (r : BlockRange) :
    ∃ sq₁, sq.squash w m r = .ok (sq₁, (s.squash w sq.notifier r).err,
        (s.squash w sq.notifier r).effects) ∧
      sq₁.squashables.map Prod.fst = sq.squashables.map Prod.fst ∧ sq₁.notifier = sq.notifier ∧
      ∀ n, sq₁.squashables.lookup n =
        if n = m then some (s.squash w sq.notifier r).squashable else sq.squashables.lookup n :=
  ⟨{ sq with squashables := sq.squashables.map fun e =>
      if e.1 = m then (e.1, (s.squash w sq.notifier r).squashable) else e },
    by simp [squash, hs], keys_replace _ _ _, rfl, fun n => by simp [lookup_replace, hs]⟩

/-- A run fails only on a call whose module is not registered, and with that module's
error. -/
theorem squashAll_eq_error {calls : List (String × BlockRange × World)} {e : SquashError}
    (h : sq.squashAll calls = .error e) :
    ∃ c ∈ calls, c.1 ∉ sq.squashables.map Prod.fst ∧ e = .moduleNotFound c.1 := by
  induction calls generalizing sq with
  | nil => cases h
  | cons c calls ih =>
      obtain ⟨m, r, w⟩ := c
      cases hs : sq.squashables.lookup m with
      | none =>
          rw [squashAll, squash_of_lookup_none hs, error_bind, Except.error.injEq] at h
          refine ⟨(m, r, w), .head _, ?_, h.symm⟩
          rw [← lookup_isSome_iff_mem_keys, hs]
          simp
      | some s =>
          obtain ⟨sq₁, hsq, hk, -, -⟩ := squash_spec hs w r
          rw [squashAll, hsq, ok_bind] at h
          dsimp only at h
          cases h' : sq₁.squashAll calls with
          | error e' =>
              rw [h', error_bind] at h
              cases h
              obtain ⟨c, hc, hc₁, rfl⟩ := ih h'
              exact ⟨c, .tail _ hc, hk ▸ hc₁, rfl⟩
          | ok p =>
              rw [h', ok_bind] at h
              cases h

/-- **Each module sees its own calls.** After calls for several modules in any interleaving,
every call named a registered module, the registered names and the notifier are unchanged,
there is an error entry per call, and each module's squashable is the one its own calls, in
their order, lead to, the errors of those calls being what that squashable returned. -/
theorem squashAll_lookup {sq' : Squasher} {calls : List (String × BlockRange × World)}
    {errs : List (String × Option SquashError)} (h : sq.squashAll calls = .ok (sq', errs)) :
    (∀ c ∈ calls, c.1 ∈ sq.squashables.map Prod.fst) ∧
      sq'.squashables.map Prod.fst = sq.squashables.map Prod.fst ∧ sq'.notifier = sq.notifier ∧
      errs.map Prod.fst = calls.map Prod.fst ∧
      ∀ n s, sq.squashables.lookup n = some s →
        sq'.squashables.lookup n = some (s.squashAll sq.notifier (callsFor n calls)).1 ∧
        (errs.filter (·.1 = n)).map Prod.snd = (s.squashAll sq.notifier (callsFor n calls)).2.2 := by
  induction calls generalizing sq errs with
  | nil =>
      cases h
      exact ⟨by simp, rfl, rfl, rfl, fun n s hs => ⟨hs, rfl⟩⟩
  | cons c calls ih =>
      obtain ⟨m, r, w⟩ := c
      cases hs : sq.squashables.lookup m with
      | none => rw [squashAll, squash_of_lookup_none hs, error_bind] at h; cases h
      | some s₀ =>
          obtain ⟨sq₁, hsq, hk₁, hn₁, hl₁⟩ := squash_spec hs w r
          rw [squashAll, hsq, ok_bind] at h
          obtain ⟨⟨sq₂, errs₂⟩, h₂, h⟩ := bind_eq_ok.mp h
          cases h
          obtain ⟨hknown, hk, hn, he, hl⟩ := ih h₂
          have hm : m ∈ sq.squashables.map Prod.fst := by
            rw [← lookup_isSome_iff_mem_keys, hs]
            rfl
          refine ⟨fun c hc => (List.mem_cons.mp hc).elim (· ▸ hm) (hk₁ ▸ hknown c ·),
            hk.trans hk₁, hn.trans hn₁, by simp [he], fun n s hsn => ?_⟩
          rw [hn₁] at hl
          by_cases hnm : n = m
          · subst hnm
            obtain rfl : s₀ = s := Option.some.inj (hs.symm.trans hsn)
            obtain ⟨h₁, h₂⟩ := hl n _ (by rw [hl₁, if_pos rfl])
            simp [callsFor, Squashable.squashAll, h₁, h₂]
          · obtain ⟨h₁, h₂⟩ := hl n s (by rw [hl₁, if_neg hnm, hsn])
            simp [callsFor, hnm, Ne.symm hnm, h₁, h₂]

/-- A run returns exactly when every call names a registered module. -/
theorem squashAll_ok_iff {calls : List (String × BlockRange × World)} :
    (∃ sq' errs, sq.squashAll calls = .ok (sq', errs)) ↔
      ∀ c ∈ calls, c.1 ∈ sq.squashables.map Prod.fst := by
  refine ⟨fun ⟨_, _, h⟩ => (squashAll_lookup h).1, fun h => ?_⟩
  cases hrun : sq.squashAll calls with
  | ok p => exact ⟨p.1, p.2, rfl⟩
  | error e =>
      obtain ⟨c, hc, hk, -⟩ := squashAll_eq_error hrun
      exact absurd (h c hc) hk

/-- Entry by entry, when the names are distinct: each squashable at the end is where its
module's own calls lead, and each error returned is one that its module's squashable
returned. -/
theorem squashAll_mem {sq' : Squasher} {calls : List (String × BlockRange × World)}
    {errs : List (String × Option SquashError)} (h : sq.squashAll calls = .ok (sq', errs))
    (hnd : (sq.squashables.map Prod.fst).Nodup) :
    (∀ e' ∈ sq'.squashables, ∃ e ∈ sq.squashables, e'.1 = e.1 ∧
        e'.2 = (e.2.squashAll sq.notifier (callsFor e.1 calls)).1) ∧
      ∀ x ∈ errs, ∃ e ∈ sq.squashables, x.1 = e.1 ∧
        x.2 ∈ (e.2.squashAll sq.notifier (callsFor e.1 calls)).2.2 := by
  obtain ⟨hknown, hk, -, he, hl⟩ := squashAll_lookup h
  -- a registered name is the name of one entry, and looks it up
  have hentry : ∀ n ∈ sq.squashables.map Prod.fst,
      ∃ e ∈ sq.squashables, n = e.1 ∧ sq.squashables.lookup n = some e.2 := by
    intro n hn
    obtain ⟨e, hmem, rfl⟩ := List.mem_map.mp hn
    exact ⟨e, hmem, rfl, lookup_of_mem_nodup hnd hmem⟩
  refine ⟨fun e' he' => ?_, fun x hx => ?_⟩
  · obtain ⟨e, hmem, hn, hlook⟩ := hentry e'.1 (hk ▸ List.mem_map_of_mem _ he')
    refine ⟨e, hmem, hn, Option.some.inj ?_⟩
    rw [← lookup_of_mem_nodup (hk ▸ hnd) he', (hl _ _ hlook).1, hn]
  · obtain ⟨c, hc, hcx⟩ := List.mem_map.mp (he ▸ List.mem_map_of_mem Prod.fst hx)
    obtain ⟨e, hmem, hn, hlook⟩ := hentry x.1 (hcx ▸ hknown c hc)
    refine ⟨e, hmem, hn, ?_⟩
    rw [← hn, ← (hl _ _ hlook).2]
    exact List.mem_map_of_mem _ (List.mem_filter.mpr ⟨hx, by simp⟩)

/-! ## Interleavings -/

theorem mem_callsFor {n : String} {x : BlockRange × World}
    {calls : List (String × BlockRange × World)} : x ∈ callsFor n calls ↔ (n, x) ∈ calls := by
  simp only [callsFor, List.mem_map, List.mem_filter, decide_eq_true_eq]
  constructor
  · rintro ⟨⟨m, y⟩, ⟨hc, rfl⟩, rfl⟩
    exact hc
  · exact fun h => ⟨(n, x), ⟨h, rfl⟩, rfl⟩

/-- With every call naming a registered module, an unregistered name has no errors. -/
theorem filter_errs_eq_nil {calls : List (String × BlockRange × World)}
    {errs : List (String × Option SquashError)} (he : errs.map Prod.fst = calls.map Prod.fst)
    (hknown : ∀ c ∈ calls, c.1 ∈ sq.squashables.map Prod.fst) {n : String}
    (hn : sq.squashables.lookup n = none) : errs.filter (·.1 = n) = [] := by
  refine List.filter_eq_nil_iff.mpr fun x hx hxn => ?_
  obtain ⟨c, hc, hcx⟩ := List.mem_map.mp (he ▸ List.mem_map_of_mem Prod.fst hx)
  have hmem := hknown c hc
  rw [hcx, of_decide_eq_true hxn, ← lookup_isSome_iff_mem_keys, hn] at hmem
  cases hmem

/-- **Calls for different modules commute.** Two lists of calls with the same calls for each
module, in the same order, however the modules interleave: when one run returns, so does the
other, every name looks up the same squashable at the end, and each module's calls return
the same errors. -/
theorem squashAll_interleavings {sq₁ : Squasher} {calls calls' : List (String × BlockRange × World)}
    {errs₁ : List (String × Option SquashError)} (h : sq.squashAll calls = .ok (sq₁, errs₁))
    (hcalls : ∀ n, callsFor n calls' = callsFor n calls) :
    ∃ sq₂ errs₂, sq.squashAll calls' = .ok (sq₂, errs₂) ∧
      (∀ n, sq₂.squashables.lookup n = sq₁.squashables.lookup n) ∧
      ∀ n, (errs₂.filter (·.1 = n)).map Prod.snd = (errs₁.filter (·.1 = n)).map Prod.snd := by
  obtain ⟨hknown, hk, -, he, hl⟩ := squashAll_lookup h
  have hknown' : ∀ c ∈ calls', c.1 ∈ sq.squashables.map Prod.fst := fun c hc => by
    have hc' : c.2 ∈ callsFor c.1 calls := hcalls c.1 ▸ mem_callsFor.mpr hc
    exact hknown _ (mem_callsFor.mp hc')
  obtain ⟨sq₂, errs₂, h₂⟩ := squashAll_ok_iff.mpr hknown'
  obtain ⟨-, hk₂, -, he₂, hl₂⟩ := squashAll_lookup h₂
  -- an unregistered name stays unregistered
  have hnone : ∀ (sq' : Squasher) {n}, sq'.squashables.map Prod.fst = sq.squashables.map Prod.fst →
      sq.squashables.lookup n = none → sq'.squashables.lookup n = none := fun sq' n hk' hs => by
    rw [← Option.not_isSome_iff_eq_none, lookup_isSome_iff_mem_keys, hk',
      ← lookup_isSome_iff_mem_keys, hs]
    simp
  refine ⟨sq₂, errs₂, h₂, fun n => ?_, fun n => ?_⟩
  · cases hs : sq.squashables.lookup n with
    | some s => rw [(hl₂ n s hs).1, (hl n s hs).1, hcalls]
    | none => rw [hnone sq₂ hk₂ hs, hnone sq₁ hk hs]
  · cases hs : sq.squashables.lookup n with
    | some s => rw [(hl₂ n s hs).2, (hl n s hs).2, hcalls]
    | none => rw [filter_errs_eq_nil he₂ hknown' hs, filter_errs_eq_nil he hknown hs]

/-- Two modules, one call each, in both orders. -/
theorem squashAll_interleavings_two_modules :
    let sq : Squasher := ⟨[("a", newSquashable ⟨"a", 0, 0⟩ 10 10 0),
      ("b", newSquashable ⟨"b", 0, 0⟩ 10 10 0)], 10, 10, false⟩
    let calls : List (String × BlockRange × World) :=
      [("a", ⟨0, 10⟩, allOk), ("b", ⟨0, 10⟩, allOk)]
    let calls' : List (String × BlockRange × World) :=
      [("b", ⟨0, 10⟩, allOk), ("a", ⟨0, 10⟩, allOk)]
    (∀ n, callsFor n calls' = callsFor n calls) ∧
      ∃ sq₁ errs₁, sq.squashAll calls = .ok (sq₁, errs₁) ∧
        ∃ sq₂ errs₂, sq.squashAll calls' = .ok (sq₂, errs₂) ∧
          (∀ n, sq₂.squashables.lookup n = sq₁.squashables.lookup n) ∧
          ∀ n, (errs₂.filter (·.1 = n)).map Prod.snd = (errs₁.filter (·.1 = n)).map Prod.snd := by
  intro sq calls calls'
  have hcalls : ∀ n, callsFor n calls' = callsFor n calls := fun n => by
    simp only [calls, calls', callsFor, List.filter_cons, List.filter_nil]
    by_cases ha : "a" = n <;> by_cases hb : "b" = n <;> simp_all
  obtain ⟨sq₁, errs₁, h₁⟩ := (@squashAll_ok_iff sq calls).mpr (by decide)
  exact ⟨hcalls, sq₁, errs₁, h₁, squashAll_interleavings h₁ hcalls⟩

/-! ## What `NewSquasher` registers -/

/-- Two builders of one store, neither with a snapshot: the second replaces the first. -/
example : (newSquasher ⟨fun _ => some 0, fun _ _ => true⟩ [⟨"store", 5, 5⟩, ⟨"store", 0, 0⟩]
    10 25 false).toOption.map (·.squashables) =
      some [("store", newSquashable ⟨"store", 0, 0⟩ 25 10 0)] := rfl

/-! ## From `NewSquasher` to `StoresReady` -/

/-- A run of an `Except` fold keeps an invariant that each step keeps. -/
theorem foldlM_except_invariant {ε α γ : Type} (P : α → Prop) (f : α → γ → Except ε α) :
    ∀ (xs : List γ) (a b : α), P a → (∀ x ∈ xs, ∀ a a', P a → f a x = .ok a' → P a') →
      xs.foldlM f a = .ok b → P b
  | [], a, b, ha, _, h => by cases h; exact ha
  | x :: xs, a, b, ha, hf, h => by
      rw [List.foldlM_cons] at h
      obtain ⟨a', ha', h⟩ := bind_eq_ok.mp h
      exact foldlM_except_invariant P f xs a' b (hf x (.head _) a a' ha ha')
        (fun y hy => hf y (.tail _ hy)) h

/-- What `NewSquasher` builds: the notifier it was given, one squashable per name, each built
by `newSquashableFor` from a builder of that name. -/
theorem newSquasher_entries {st : Storage} {builders : List Store} {I T : Nat}
    {notifier : Bool} (h : newSquasher st builders I T notifier = .ok sq) :
    sq.notifier = notifier ∧ (sq.squashables.map Prod.fst).Nodup ∧
      ∀ e ∈ sq.squashables, ∃ b ∈ builders, b.name = e.1 ∧ newSquashableFor st I T b = .ok e.2 := by
  obtain ⟨l, hl, h⟩ := bind_eq_ok.mp h
  cases h
  refine ⟨rfl, foldlM_except_invariant (fun l : List (String × Squashable) =>
      (l.map Prod.fst).Nodup ∧ ∀ e ∈ l, ∃ b ∈ builders, b.name = e.1 ∧
        newSquashableFor st I T b = .ok e.2) _ builders [] l ⟨List.nodup_nil, by simp⟩ ?_ hl⟩
  rintro b hb acc acc' ⟨hnd, hacc⟩ hstep
  obtain ⟨s, hs, hstep⟩ := bind_eq_ok.mp hstep
  cases hstep
  refine ⟨?_, ?_⟩
  · rw [List.map_cons, List.nodup_cons]
    exact ⟨by simp, hnd.sublist ((List.filter_sublist _).map _)⟩
  · rintro e (he | ⟨-, he⟩)
    · exact ⟨b, hb, rfl, hs⟩
    · exact hacc e (List.mem_of_mem_filter he)

/-- **Every store becomes ready.** Take what `NewSquasher` builds, with a save interval
`I > 0`, from builders whose complete snapshots, if any, end after their modules' initial
blocks, each squashable starting before the target `T`. Squash calls for its modules, in any
interleaving, whose pieces for each module are the segments of that module's `[b, T)`, each
once, in any order and grouped in any way, with every call to storage succeeding, all return
`nil`, and then `StoresReady` has nothing to report. -/
theorem squasher_storesReady {st : Storage} {builders : List Store} {I T : Nat}
    {notifier : Bool} (hnew : newSquasher st builders I T notifier = .ok sq) (hI : 0 < I)
    (hsnap : ∀ b ∈ builders, ∀ last, st.lastKVSavedBlock b = some last →
      last = 0 ∨ b.moduleInitialBlock < last)
    (hT : ∀ e ∈ sq.squashables, e.2.nextExpectedStartBlock < T)
    (calls : List (String × BlockRange))
    (hknown : ∀ c ∈ calls, c.1 ∈ sq.squashables.map Prod.fst)
    (hcalls : ∀ e ∈ sq.squashables,
      (((calls.filter (·.1 = e.1)).map Prod.snd).flatMap (·.split I)).Perm
        (BlockRange.split ⟨e.2.nextExpectedStartBlock, T⟩ I)) :
    ∃ sq' errs, sq.squashAll (calls.map fun c => (c.1, c.2, allOk)) = .ok (sq', errs) ∧
      (∀ e ∈ errs, e.2 = none) ∧ sq'.storesReady = [] := by
  obtain ⟨hnot, hnd, hent⟩ := newSquasher_entries hnew
  obtain ⟨sq', errs, hrun⟩ := (@squashAll_ok_iff sq (calls.map fun c => (c.1, c.2, allOk))).mpr
    fun c hc => by
      obtain ⟨c', hc', rfl⟩ := List.mem_map.mp hc
      exact hknown c' hc'
  obtain ⟨hends, herrs⟩ := squashAll_mem hrun hnd
  -- each module's own run, from what `NewSquasher` built for it, ends ready
  have hready : ∀ e ∈ sq.squashables,
      let run := e.2.squashAll notifier (callsFor e.1 (calls.map fun c => (c.1, c.2, allOk)))
      (∀ x ∈ run.2.2, x = none) ∧ run.1.targetReached = true ∧ run.1.ranges = [] := by
    intro e he
    obtain ⟨b, hb, -, hbuild⟩ := hent e he
    obtain ⟨herr, -, hreached, hranges, -⟩ := squashAll_ready notifier hI hbuild (hsnap b hb)
      (hT e he) _ (hcalls e he)
    have hcallsFor : callsFor e.1 (calls.map fun c => (c.1, c.2, allOk)) =
        ((calls.filter (·.1 = e.1)).map Prod.snd).map (·, allOk) := by
      simp [callsFor, List.filter_map, Function.comp_def]
    rw [hcallsFor]
    exact ⟨herr, hreached, hranges⟩
  refine ⟨sq', errs, hrun, fun x hx => ?_, (storesReady_eq_nil_iff _).mpr fun e' he' => ?_⟩
  · obtain ⟨e, hmem, -, hx₂⟩ := herrs x hx
    exact (hready e hmem).1 _ (hnot ▸ hx₂)
  · obtain ⟨e, hmem, -, he₂⟩ := hends e' he'
    obtain ⟨-, hreached, hranges⟩ := hready e hmem
    rw [he₂, hnot]
    exact ⟨hreached, hranges⟩

/-- One store over `[0, 25)` in intervals of `10`, its segments arriving in two calls, the
later ones first. -/
theorem squasher_storesReady_out_of_order :
    let st : Storage := ⟨fun _ => some 0, fun _ _ => true⟩
    let sq : Squasher := ⟨[("store", newSquashable ⟨"store", 0, 0⟩ 25 10 0)], 10, 25, false⟩
    let calls : List (String × BlockRange) := [("store", ⟨10, 25⟩), ("store", ⟨0, 10⟩)]
    newSquasher st [⟨"store", 0, 0⟩] 10 25 false = .ok sq ∧
      ∃ sq' errs, sq.squashAll (calls.map fun c => (c.1, c.2, allOk)) = .ok (sq', errs) ∧
        (∀ e ∈ errs, e.2 = none) ∧ sq'.storesReady = [] := by
  intro st sq calls
  have hnew : newSquasher st [⟨"store", 0, 0⟩] 10 25 false = .ok sq := rfl
  exact ⟨hnew, squasher_storesReady hnew (by decide)
    (fun _ _ _ h => Or.inl (Option.some_injective _ h).symm) (by decide) calls (by decide)
    (by decide)⟩

end Squasher

end Substreams.Orchestrator
