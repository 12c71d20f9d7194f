import Substreams.Block.Range

set_option autoImplicit false

/-! # Flushing the stores at boundaries

`Stores.flushStores(ctx, blockNum)` saves a snapshot of every store at each boundary that the
store boundary reports for `blockNum`, boundary by boundary, and stops at the first failure.
For one boundary, `saveStoresSnapshots` goes over the store map, skipping the stores the
request marks `SkipSnapshotSave`; `saveStoreSnapshot` calls the store's `Save` and the
writer's `Write` and, for a store whose partials the request returns, records the file's
range in `partialsWritten` and rolls the store if it is a partial store.

`GetStoreFlushRanges`, the stores' `Save` and `Write` and the store map are not in the
source. The boundaries are a list, the stores' answers are the world (`SaveWorld`), and the
order in which `StoreMap.All()` lists the stores is a parameter for each boundary, a Go map
being listed in a new order each time.

The two nested loops are one loop over the saves the flush attempts, in order (`attempts`,
`flushStores_eq`). So a flush fails exactly when one of those saves fails, with the error of
the first that does, naming its boundary and its store; the partials of the saves before it
stay recorded (`flushStores_spec`).
-/

namespace Substreams.Pipeline

open Substreams.Block

/-- A store of the store map, with what `saveStoreSnapshot` reads of it: its name, and
whether it is a `store.PartialStore`. -/
structure StoreInfo where
  name : String
  isPartial : Bool
deriving DecidableEq, Repr

/-- What the flush reads of the request's details: `SkipSnapshotSave(name)` and
`ShouldReturnWrittenPartials(name)`. -/
structure Details where
  skipSnapshotSave : String → Bool
  shouldReturnWrittenPartials : String → Bool

/-- What a store answers when it is saved at a boundary: whether `Save` succeeds, the range
of the file it returns, and whether the writer's `Write` succeeds. -/
structure SaveReply where
  save : Bool
  fileRange : BlockRange
  write : Bool
deriving DecidableEq, Repr

/-- The answers of every store, by name, at every boundary. -/
abbrev SaveWorld := Nat → String → SaveReply

/-- The errors of `saveStoreSnapshot`. -/
inductive SaveError
  /-- `saving store %q at boundary %d: %w` -/
  | saving (name : String) (boundary : Nat)
  /-- `failed to write store: %w`, which does not name the store -/
  | writing
deriving DecidableEq, Repr

/-- The error of `flushStores`: `saving stores snapshot at bound %d: %w`, around the
`save store snapshot: %w` of `saveStoresSnapshots`. -/
structure FlushError where
  boundary : Nat
  cause : SaveError
deriving DecidableEq, Repr

/-- The text of a save error, the wrapped errors of the world left out. -/
def SaveError.message : SaveError → String
  | .saving name boundary =>
      "saving store \"" ++ name ++ "\" at boundary " ++ toString boundary
  | .writing => "failed to write store"

/-- The text of a flush error. -/
def FlushError.message (e : FlushError) : String :=
  "saving stores snapshot at bound " ++ toString e.boundary ++ ": save store snapshot: " ++
    e.cause.message

/-- `pipeline.Stores`, with what the flush changes: `partialsWritten`, and the partial stores
rolled, with the boundary, in order. -/
structure Stores where
  partialsWritten : List BlockRange
  rolled : List (String × Nat)
deriving DecidableEq, Repr

namespace Stores

variable (w : SaveWorld) (d : Details)

/-- `saveStoreSnapshot(ctx, saveStore, boundaryBlock)`. -/
def saveStoreSnapshot (s : Stores) (st : StoreInfo) (boundary : Nat) : Option SaveError × Stores :=
  let reply := w boundary st.name
  if !reply.save then (some (.saving st.name boundary), s)
  else if !reply.write then (some .writing, s)
  else if d.shouldReturnWrittenPartials st.name then
    (none, ⟨s.partialsWritten ++ [reply.fileRange],
      if st.isPartial then s.rolled ++ [(st.name, boundary)] else s.rolled⟩)
  else (none, s)

/-- `saveStoresSnapshots(ctx, boundaryBlock)`, over the stores in the order `StoreMap.All()`
lists them. -/
def saveStoresSnapshots (boundary : Nat) : List StoreInfo → Stores → Option SaveError × Stores
  | [], s => (none, s)
  | st :: rest, s =>
      if d.skipSnapshotSave st.name then saveStoresSnapshots boundary rest s
      else
        match s.saveStoreSnapshot w d st boundary with
        | (some e, s') => (some e, s')
        | (none, s') => saveStoresSnapshots boundary rest s'

/-- `flushStores(ctx, blockNum)`, with `boundaries` what `GetStoreFlushRanges` returns for
`blockNum`, and `order b` the order in which the store map is listed at boundary `b`. -/
def flushStores (order : Nat → List StoreInfo) : List Nat → Stores → Option FlushError × Stores
  | [], s => (none, s)
  | b :: bs, s =>
      match saveStoresSnapshots w d b (order b) s with
      | (some e, s') => (some ⟨b, e⟩, s')
      | (none, s') => flushStores order bs s'

/-! ## One loop over the saves -/

/-- The saves a flush attempts, in order: at each boundary, the stores not skipped. -/
def attempts (order : Nat → List StoreInfo) (boundaries : List Nat) : List (Nat × StoreInfo) :=
  boundaries.flatMap fun b => ((order b).filter fun st => !d.skipSnapshotSave st.name).map (b, ·)

/-- The saves in order, stopping at the first that fails, with its boundary. -/
def saveAll : List (Nat × StoreInfo) → Stores → Option FlushError × Stores
  | [], s => (none, s)
  | (b, st) :: rest, s =>
      match s.saveStoreSnapshot w d st b with
      | (some e, s') => (some ⟨b, e⟩, s')
      | (none, s') => saveAll rest s'

theorem saveAll_append (xs ys : List (Nat × StoreInfo)) (s : Stores) :
    saveAll w d (xs ++ ys) s =
      match saveAll w d xs s with
      | (some e, s') => (some e, s')
      | (none, s') => saveAll w d ys s' := by
  induction xs generalizing s with
  | nil => rfl
  | cons x xs ih =>
      obtain ⟨b, st⟩ := x
      simp only [List.cons_append, saveAll]
      split <;> simp only [List.append_eq, ih]

/-- The stores of one boundary are the saves of that boundary. -/
theorem saveStoresSnapshots_eq (b : Nat) (stores : List StoreInfo) (s : Stores) :
    saveStoresSnapshots w d b stores s =
      match saveAll w d ((stores.filter fun st => !d.skipSnapshotSave st.name).map (b, ·)) s with
      | (some e, s') => (some e.cause, s')
      | (none, s') => (none, s') := by
  induction stores generalizing s with
  | nil => rfl
  | cons st stores ih =>
      by_cases hskip : d.skipSnapshotSave st.name
      · simp only [saveStoresSnapshots, hskip, if_true, ih, List.filter_cons, Bool.not_true,
          Bool.false_eq_true, if_false]
      · simp only [saveStoresSnapshots, hskip, if_false, Bool.false_eq_true, List.filter_cons,
          Bool.not_false, if_true, List.map_cons, saveAll]
        split <;> simp only [ih]

/-- The saves of one boundary fail only with that boundary. -/
theorem saveAll_map_boundary (b : Nat) (l : List StoreInfo) (s : Stores) {e : FlushError}
    {s' : Stores} (h : saveAll w d (l.map (b, ·)) s = (some e, s')) : e.boundary = b := by
  induction l generalizing s with
  | nil => cases h
  | cons st l ih =>
      simp only [List.map_cons, saveAll] at h
      split at h
      · cases h
        rfl
      · exact ih _ h

/-- **The flush is one loop over the saves it attempts.** -/
theorem flushStores_eq (order : Nat → List StoreInfo) (boundaries : List Nat) (s : Stores) :
    flushStores w d order boundaries s = saveAll w d (attempts d order boundaries) s := by
  induction boundaries generalizing s with
  | nil => rfl
  | cons b bs ih =>
      rw [flushStores, saveStoresSnapshots_eq, attempts, List.flatMap_cons, saveAll_append]
      rcases h : saveAll w d (((order b).filter fun st => !d.skipSnapshotSave st.name).map (b, ·)) s
        with ⟨_ | e, s'⟩
      · simp only [h]
        exact ih s'
      · have hb := saveAll_map_boundary w d b _ s h
        simp only [h]
        rw [← hb]

/-! ## What a flush does -/

/-- A save succeeds: the store's `Save` and the writer's `Write` both do. -/
def succeeds (p : Nat × StoreInfo) : Bool := (w p.1 p.2.name).save && (w p.1 p.2.name).write

/-- The error of a save that fails: `Save`'s, or else `Write`'s. -/
def failure (p : Nat × StoreInfo) : SaveError :=
  if !(w p.1 p.2.name).save then .saving p.2.name p.1 else .writing

/-- The ranges the saves record in `partialsWritten`: the files of the stores whose partials
the request returns. -/
def recorded (xs : List (Nat × StoreInfo)) : List BlockRange :=
  (xs.filter fun p => d.shouldReturnWrittenPartials p.2.name).map fun p => (w p.1 p.2.name).fileRange

/-- The stores the saves roll, with the boundary: the partial stores among those whose
partials the request returns. -/
def rolledBy (xs : List (Nat × StoreInfo)) : List (String × Nat) :=
  (xs.filter fun p => d.shouldReturnWrittenPartials p.2.name && p.2.isPartial).map
    fun p => (p.2.name, p.1)

theorem recorded_append (xs ys : List (Nat × StoreInfo)) :
    recorded w d (xs ++ ys) = recorded w d xs ++ recorded w d ys := by
  simp [recorded]

theorem rolledBy_append (xs ys : List (Nat × StoreInfo)) :
    rolledBy d (xs ++ ys) = rolledBy d xs ++ rolledBy d ys := by
  simp [rolledBy]

theorem saveStoreSnapshot_of_succeeds {s : Stores} {b : Nat} {st : StoreInfo}
    (h : succeeds w (b, st) = true) :
    s.saveStoreSnapshot w d st b =
      (none, ⟨s.partialsWritten ++ recorded w d [(b, st)], s.rolled ++ rolledBy d [(b, st)]⟩) := by
  simp only [succeeds, Bool.and_eq_true] at h
  by_cases hr : d.shouldReturnWrittenPartials st.name <;> cases hp : st.isPartial <;>
    simp [saveStoreSnapshot, recorded, rolledBy, h, hr, hp]

theorem saveStoreSnapshot_of_fails {s : Stores} {b : Nat} {st : StoreInfo}
    (h : succeeds w (b, st) = false) :
    s.saveStoreSnapshot w d st b = (some (failure w (b, st)), s) := by
  simp only [succeeds] at h
  cases hs : (w b st.name).save <;> cases hw : (w b st.name).write <;>
    simp_all [saveStoreSnapshot, failure]

/-- **The loop over the saves**: it saves up to the first save that fails, records what the
saves before it record, and returns that save's error with its boundary. -/
theorem saveAll_eq (xs : List (Nat × StoreInfo)) (s : Stores) :
    saveAll w d xs s =
      (((xs.dropWhile (succeeds w)).head?.map fun p => ⟨p.1, failure w p⟩),
        ⟨s.partialsWritten ++ recorded w d (xs.takeWhile (succeeds w)),
          s.rolled ++ rolledBy d (xs.takeWhile (succeeds w))⟩) := by
  induction xs generalizing s with
  | nil => simp [saveAll, recorded, rolledBy]
  | cons p xs ih =>
      obtain ⟨b, st⟩ := p
      cases h : succeeds w (b, st)
      · simp [saveAll, saveStoreSnapshot_of_fails w d h, List.dropWhile_cons, List.takeWhile_cons, h,
          recorded, rolledBy]
      · have htake : ((b, st) :: xs).takeWhile (succeeds w) = [(b, st)] ++ xs.takeWhile (succeeds w) := by
          simp [List.takeWhile_cons, h]
        rw [saveAll, saveStoreSnapshot_of_succeeds w d h]
        dsimp only
        rw [ih, htake, List.dropWhile_cons_of_pos h, recorded_append, rolledBy_append,
          List.append_assoc, List.append_assoc]

/-- **What a flush does.** Either every save the flush attempts succeeds, and the flush
returns no error having recorded what all of them record; or the saves succeed up to one
that fails, and the flush returns that save's boundary and error, having recorded what the
saves before it record, which stays recorded. -/
theorem flushStores_spec (order : Nat → List StoreInfo) (boundaries : List Nat) (s : Stores) :
    ((∀ p ∈ attempts d order boundaries, succeeds w p = true) ∧
        flushStores w d order boundaries s =
          (none, ⟨s.partialsWritten ++ recorded w d (attempts d order boundaries),
            s.rolled ++ rolledBy d (attempts d order boundaries)⟩)) ∨
      ∃ pre p post, attempts d order boundaries = pre ++ p :: post ∧
        (∀ q ∈ pre, succeeds w q = true) ∧ succeeds w p = false ∧
        flushStores w d order boundaries s =
          (some ⟨p.1, failure w p⟩, ⟨s.partialsWritten ++ recorded w d pre, s.rolled ++ rolledBy d pre⟩) := by
  rw [flushStores_eq, saveAll_eq]
  have hsplit := List.takeWhile_append_dropWhile (succeeds w) (attempts d order boundaries)
  cases hdrop : (attempts d order boundaries).dropWhile (succeeds w) with
  | nil =>
      rw [hdrop, List.append_nil] at hsplit
      exact .inl ⟨List.dropWhile_eq_nil_iff.mp hdrop, by rw [hsplit]; rfl⟩
  | cons p post =>
      rw [hdrop] at hsplit
      have hp := List.head_dropWhile_not (succeeds w) _ (by rw [hdrop]; exact List.cons_ne_nil _ _)
      simp only [hdrop, List.head_cons] at hp
      exact .inr ⟨_, p, post, hsplit.symm, fun q hq => List.mem_takeWhile_imp hq, hp, rfl⟩

end Stores

end Substreams.Pipeline
