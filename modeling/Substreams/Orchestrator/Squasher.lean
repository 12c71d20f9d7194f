import Substreams.Block.Range

set_option autoImplicit false

/-! # The squasher

`orchestrator.Squasher` turns the partial stores that backfill jobs write into complete
stores, one `Squashable` per store module. A finished job hands its range to `squash`,
which splits it at multiples of the save interval, adds the pieces to the sorted pending
list `ranges`, and lets `mergeAvailablePartials` merge from the head of that list for as
long as the head starts at `nextExpectedStartBlock`. A merge that ends on a boundary
writes a complete store; one that ends at `targetExclusiveBlock` marks the squashable
done and notifies the scheduler.

The store contents, durable storage and the context live outside the squasher. They are
modelled as the *world*: a `Reply` per pass of the merge loop says whether the context is
done and whether `LoadFrom`, `Merge` and `WriteState` succeed, and each call the squasher
makes is recorded, with its answer, as an `Effect`. A squash call is then a function of
the squashable, the world and the range, returning the error, the new squashable and the
effects (`Outcome`); every property below is stated over all worlds or over the world
where every call succeeds (`Reply.ok`).

`NewSquasher` does not refuse a save interval of `0`. The first merge then panics on
`ExclusiveEndBlock % storeSaveInterval` (`MergeError.divideByZero`), and `squash` passes the
panic on unwrapped; every result below that merges assumes a positive interval. `Split`, which
is not in the source, is modelled at `0` by division as `Nat` has it: its pieces then end at
block `0`, and `cumulateBoundedRange` keeps none of them.

The loops of the source are structural recursions here: `mergeLoop` runs over the pending
list (each pass that goes on pops its head), `cumulatePieces` and `mergePieces` over the
split pieces.
-/

namespace Substreams.Orchestrator

open Substreams.Block

/-! ## Stores and the world -/

/-- The fields of `state.Store` the squasher reads. -/
structure Store where
  name : String
  moduleInitialBlock : Nat
  storeInitialBlock : Nat
deriving DecidableEq, Repr

/-- Modelled from the spec: `Store.Clone(initialBlock)` is not in the source. The clone is
the same module's store started over at `initialBlock`. -/
def Store.clone (b : Store) (initialBlock : Nat) : Store :=
  { b with storeInitialBlock := initialBlock }

/-- Modelled from the spec: `Store.LoadFrom(ctx, r)` is not in the source. A complete
snapshot is "a store's state from `moduleInitialBlock` to a multiple-of-`I` endpoint"
(glossary): the loaded store is the module's store started at `r`'s start. -/
def Store.loadFrom (b : Store) (r : BlockRange) : Store := b.clone r.startBlock

/-- What the world answers during one pass of the merge loop: whether `ctx.Done()` has
fired, and whether `LoadFrom`, `Merge` and `WriteState` succeed. A failing
`DeletePartialFile` is only logged, so it has no answer here. -/
structure Reply where
  done : Bool
  loadFrom : Bool
  merge : Bool
  writeState : Bool
deriving DecidableEq, Repr

/-- The context stays live and every call succeeds. -/
def Reply.ok : Reply := ⟨false, true, true, true⟩

/-- The world of one squash call: `w j i` answers pass `i` of the `j`-th call of
`mergeAvailablePartials`. -/
abbrev World := Nat → Nat → Reply

/-- A call the squasher makes outside itself, with the world's answer. -/
inductive Effect
  | loadFrom (r : BlockRange) (ok : Bool)
  | merge (r : BlockRange) (ok : Bool)
  | writeState (block : Nat) (ok : Bool)
  | deletePartialFile (block : Nat)
  | notify (module : String) (block : Nat)
deriving DecidableEq, Repr

/-! ## Errors -/

/-- The errors of `mergeAvailablePartials`. -/
inductive MergeError
  /-- `ctx.Err()` -/
  | canceled
  /-- `initializing next partial builder %q: %w` -/
  | loadFrom (name : String)
  /-- `merging: %s` -/
  | merging
  /-- `writing state: %w` -/
  | writingState
  /-- Not an error value: `ExclusiveEndBlock % storeSaveInterval` at an interval of `0` is a
  runtime panic ("integer divide by zero"), which unwinds the call. -/
  | divideByZero
deriving DecidableEq, Repr

/-- The errors of `Squashable.squash` and `Squasher.Squash`. -/
inductive SquashError
  /-- `module %q: received a squash request for a start block %d prior to the module's
  initial block %d` -/
  | beforeInitialBlock (name : String) (startBlock initialBlock : Nat)
  /-- `squashing range %d-%d: %w` -/
  | squashingRange (startBlock exclusiveEndBlock : Nat) (cause : MergeError)
  /-- `module %q was not found in squashables module registry` -/
  | moduleNotFound (name : String)
  /-- The divide-by-zero panic of the merge loop, passed on as it is. -/
  | divideByZero
deriving DecidableEq, Repr

/-- The text of a merge error, the wrapped errors of the world left out. -/
def MergeError.message : MergeError → String
  | .canceled => "context canceled"
  | .loadFrom name => "initializing next partial builder \"" ++ name ++ "\""
  | .merging => "merging"
  | .writingState => "writing state"
  | .divideByZero => "runtime error: integer divide by zero"

/-- The text of a squash error. -/
def SquashError.message : SquashError → String
  | .beforeInitialBlock name start initial =>
      "module \"" ++ name ++ "\": received a squash request for a start block " ++
        toString start ++ " prior to the module's initial block " ++ toString initial
  | .squashingRange start stop cause =>
      "squashing range " ++ toString start ++ "-" ++ toString stop ++ ": " ++ cause.message
  | .moduleNotFound name =>
      "module \"" ++ name ++ "\" was not found in squashables module registry"
  | .divideByZero => "runtime error: integer divide by zero"

/-- What `squash` makes of an error of the merge loop on the piece `br`: the error wrapped with
the piece's bounds. A panic is no error value, and goes on unwrapped. -/
def SquashError.ofMerge (br : BlockRange) : MergeError → SquashError
  | .divideByZero => .divideByZero
  | e => .squashingRange br.startBlock br.exclusiveEndBlock e

/-! ## `Squashable` -/

/-- `orchestrator.Squashable`: the store being built (`builder`), the pending pieces sorted
by start (`ranges`), and where the next merge must start. -/
structure Squashable where
  name : String
  builder : Store
  ranges : List BlockRange
  storeSaveInterval : Nat
  targetExclusiveBlock : Nat
  nextExpectedStartBlock : Nat
  targetReached : Bool
deriving DecidableEq, Repr

/-- `NewSquashable(initialBuilder, targetExclusiveBlock, storeSaveInterval,
nextExpectedStartBlock)`. -/
def newSquashable (initialBuilder : Store)
    (targetExclusiveBlock storeSaveInterval nextExpectedStartBlock : Nat) : Squashable where
  name := initialBuilder.name
  builder := initialBuilder
  ranges := []
  storeSaveInterval := storeSaveInterval
  targetExclusiveBlock := targetExclusiveBlock
  nextExpectedStartBlock := nextExpectedStartBlock
  targetReached := false

/-- What a call leaves: the error it returns (`none` is `nil`), the squashable after it,
and the calls it made, in order. -/
structure Outcome (ε : Type) where
  err : Option ε
  squashable : Squashable
  effects : List Effect

namespace Squashable

variable (s : Squashable)

/-- `cumulateBoundedRange`: a piece that ends at or before the store's initial block is
dropped; any other is added and the list sorted again. -/
def cumulateBoundedRange (r : BlockRange) : Squashable :=
  if r.exclusiveEndBlock ≤ s.builder.storeInitialBlock then s
  else { s with ranges := sortRanges (s.ranges ++ [r]) }

/-- The effects of a pass that merges `r`: `LoadFrom` and `Merge` succeed, then either a
complete store is written at a boundary or the partial file is deleted, and reaching the
target notifies. -/
def mergedEffects (notifier : Bool) (r : BlockRange) : List Effect :=
  [.loadFrom r true, .merge r true,
    if r.exclusiveEndBlock % s.storeSaveInterval = 0 then .writeState r.exclusiveEndBlock true
    else .deletePartialFile r.exclusiveEndBlock] ++
  (if r.exclusiveEndBlock = s.targetExclusiveBlock ∧ notifier then
    [.notify s.builder.name r.exclusiveEndBlock] else [])

/-- The squashable after a pass that merges its head `r` and pops it, leaving `rest`. -/
def popMerged (r : BlockRange) (rest : List BlockRange) : Squashable :=
  { s with
    nextExpectedStartBlock := r.exclusiveEndBlock
    ranges := rest
    targetReached := s.targetReached || decide (r.exclusiveEndBlock = s.targetExclusiveBlock) }

/-- One pass of the merge loop on the head `r` (the head already starts at
`nextExpectedStartBlock`): `LoadFrom`, `Merge`, advance `nextExpectedStartBlock`, test for a
boundary (a divide-by-zero panic at an interval of `0`), `WriteState` at a boundary, pop,
mark the target. `.inl` ends the loop with an error or the panic, `.inr` goes on. -/
def mergeHead (reply : Reply) (notifier : Bool) (r : BlockRange) (rest : List BlockRange) :
    (MergeError × Squashable × List Effect) ⊕ (Squashable × List Effect) :=
  if !reply.loadFrom then .inl (.loadFrom s.name, s, [.loadFrom r false])
  else if !reply.merge then .inl (.merging, s, [.loadFrom r true, .merge r false])
  else if s.storeSaveInterval = 0 then
    .inl (.divideByZero, { s with nextExpectedStartBlock := r.exclusiveEndBlock },
      [.loadFrom r true, .merge r true])
  else if r.exclusiveEndBlock % s.storeSaveInterval = 0 ∧ !reply.writeState then
    .inl (.writingState, { s with nextExpectedStartBlock := r.exclusiveEndBlock },
      [.loadFrom r true, .merge r true, .writeState r.exclusiveEndBlock false])
  else .inr (s.popMerged r rest, s.mergedEffects notifier r)

end Squashable

open Squashable in
/-- The `for` loop of `mergeAvailablePartials` from pass `i` on, over `pending`, which is
the squashable's `ranges`: the context is checked first, the loop stops without error on
an empty list or a head that does not start at `nextExpectedStartBlock`. -/
def mergeLoop (w : Nat → Reply) (notifier : Bool) :
    Nat → List BlockRange → Squashable → Outcome MergeError
  | i, [], s => if (w i).done then ⟨some .canceled, s, []⟩ else ⟨none, s, []⟩
  | i, r :: rest, s =>
      if (w i).done then ⟨some .canceled, s, []⟩
      else if s.nextExpectedStartBlock ≠ r.startBlock then ⟨none, s, []⟩
      else
        match s.mergeHead (w i) notifier r rest with
        | .inl (e, s', effects) => ⟨some e, s', effects⟩
        | .inr (s', effects) =>
            let o := mergeLoop w notifier (i + 1) rest s'
            ⟨o.err, o.squashable, effects ++ o.effects⟩

namespace Squashable

variable (s : Squashable)

/-- `mergeAvailablePartials(ctx, notifier)`. -/
def mergeAvailablePartials (w : Nat → Reply) (notifier : Bool) : Outcome MergeError :=
  mergeLoop w notifier 0 s.ranges s

/-- At a save interval of `0`, the first merge of a pending range panics. -/
example : ((⟨"s", ⟨"s", 0, 0⟩, [⟨0, 10⟩], 0, 10, 0, false⟩ : Squashable).mergeAvailablePartials
    (fun _ => Reply.ok) false).err = some .divideByZero := by decide

/-- The first loop of `squash`: every piece is checked against the module's initial block
and cumulated. The first piece that starts before it ends the call, the pieces before it
already cumulated. -/
def cumulatePieces : Squashable → List BlockRange → Option SquashError × Squashable
  | s, [] => (none, s)
  | s, br :: rest =>
      if br.startBlock < s.builder.moduleInitialBlock then
        (some (.beforeInitialBlock s.name br.startBlock s.builder.moduleInitialBlock), s)
      else cumulatePieces (s.cumulateBoundedRange br) rest

/-- The second loop of `squash`: `mergeAvailablePartials` once per piece, the `j`-th call
in the world `w j`; an error is wrapped with the piece's bounds and ends the call, as does the
panic, unwrapped. -/
def mergePieces (w : World) (notifier : Bool) :
    Nat → List BlockRange → Squashable → Outcome SquashError
  | _, [], s => ⟨none, s, []⟩
  | j, br :: rest, s =>
      let o := s.mergeAvailablePartials (w j) notifier
      match o.err with
      | some e => ⟨some (SquashError.ofMerge br e), o.squashable, o.effects⟩
      | none =>
          let o' := mergePieces w notifier (j + 1) rest o.squashable
          ⟨o'.err, o'.squashable, o.effects ++ o'.effects⟩

/-- `squash(ctx, blockRange, notifier)`. -/
def squash (w : World) (notifier : Bool) (blockRange : BlockRange) : Outcome SquashError :=
  let pieces := blockRange.split s.storeSaveInterval
  match s.cumulatePieces pieces with
  | (some e, s') => ⟨some e, s', []⟩
  | (none, s') => mergePieces w notifier 0 pieces s'

/-- Squash calls one after the other, each with its own world: the squashable after them,
all their effects in order, and the error of each. -/
def squashAll (notifier : Bool) :
    Squashable → List (BlockRange × World) → Squashable × List Effect × List (Option SquashError)
  | s, [] => (s, [], [])
  | s, (r, w) :: calls =>
      let o := s.squash w notifier r
      let run := squashAll notifier o.squashable calls
      (run.1, o.effects ++ run.2.1, o.err :: run.2.2)

/-! ## Readiness -/

end Squashable

/-- The complaints of `StoresReady` about one squashable. -/
inductive ReadyError
  /-- `module %q target not reached` -/
  | targetNotReached (name : String)
  /-- `module %q missing ranges %s` -/
  | missingRanges (name : String) (ranges : List BlockRange)
deriving DecidableEq, Repr

/-- What `StoresReady` says about one squashable: its target must be reached (`targetReached`)
and its pending list empty (`IsEmpty`). -/
def Squashable.readyErrors (s : Squashable) : List ReadyError :=
  (if s.targetReached then [] else [.targetNotReached s.name]) ++
    (if s.ranges = [] then [] else [.missingRanges s.name s.ranges])

theorem Squashable.readyErrors_eq_nil_iff (s : Squashable) :
    s.readyErrors = [] ↔ s.targetReached = true ∧ s.ranges = [] := by
  unfold Squashable.readyErrors
  cases s.targetReached <;> by_cases h : s.ranges = [] <;> simp [h]

/-! ## `Squasher` -/

/-- `orchestrator.Squasher`: the squashables by module name, the save interval, the
target and whether a notifier was given. The map is an association list; Go's map has no
order, and nothing below depends on one. -/
structure Squasher where
  squashables : List (String × Squashable)
  storeSaveInterval : Nat
  targetExclusiveBlock : Nat
  notifier : Bool

/-- What `NewSquasher` learns from storage about one builder: `Info` (the end of the
last complete snapshot, `0` when there is none) or its failure, and whether `LoadFrom`
of that snapshot succeeds. -/
structure Storage where
  lastKVSavedBlock : Store → Option Nat
  loads : Store → BlockRange → Bool

/-- The errors of `NewSquasher`. -/
inductive NewSquasherError
  /-- `getting info for %s: %w` -/
  | info (name : String)
  /-- `loading store %q: range %s: %w` -/
  | loading (name : String) (r : BlockRange)
deriving DecidableEq, Repr

/-- The body of `NewSquasher`'s loop for one builder: with no complete snapshot the
squashable starts at the module's initial block, otherwise the snapshot is loaded and the
squashable starts at its end. -/
def newSquashableFor (st : Storage) (storeSaveInterval targetExclusiveBlock : Nat)
    (builder : Store) : Except NewSquasherError Squashable :=
  match st.lastKVSavedBlock builder with
  | none => .error (.info builder.name)
  | some 0 =>
      .ok (newSquashable (builder.clone builder.moduleInitialBlock) targetExclusiveBlock
        storeSaveInterval builder.moduleInitialBlock)
  | some last =>
      let r : BlockRange := ⟨builder.moduleInitialBlock, last⟩
      if st.loads builder r then
        .ok (newSquashable (builder.loadFrom r) targetExclusiveBlock storeSaveInterval last)
      else .error (.loading builder.name r)

/-- `NewSquasher(ctx, builders, outputCaches, storeSaveInterval, targetExclusiveBlock,
opts...)`; the notifier option is the flag `notifier`. A later builder of the same name
replaces an earlier one, as a map assignment does. -/
def newSquasher (st : Storage) (builders : List Store)
    (storeSaveInterval targetExclusiveBlock : Nat) (notifier : Bool) :
    Except NewSquasherError Squasher := do
  let squashables ← builders.foldlM (fun acc builder => do
      let sq ← newSquashableFor st storeSaveInterval targetExclusiveBlock builder
      pure ((builder.name, sq) :: acc.filter (·.1 ≠ builder.name))) []
  pure ⟨squashables, storeSaveInterval, targetExclusiveBlock, notifier⟩

namespace Squasher

variable (sq : Squasher)

/-- `Squash(ctx, moduleName, outgoingReqRange)`: the named squashable squashes, the others
are left alone. -/
def squash (w : World) (moduleName : String) (r : BlockRange) :
    Except SquashError (Squasher × Option SquashError × List Effect) :=
  match sq.squashables.lookup moduleName with
  | none => .error (.moduleNotFound moduleName)
  | some s =>
      let o := s.squash w sq.notifier r
      .ok ({ sq with
        squashables := sq.squashables.map fun e => if e.1 = moduleName then (e.1, o.squashable) else e },
        o.err, o.effects)

/-- `StoresReady()`: `nil` (here `[]`) when every squashable is ready, otherwise the
complaints, joined by `"; "` in the source. -/
def storesReady : List ReadyError := sq.squashables.flatMap (·.2.readyErrors)

theorem storesReady_eq_nil_iff :
    sq.storesReady = [] ↔ ∀ e ∈ sq.squashables, e.2.targetReached = true ∧ e.2.ranges = [] := by
  simp [storesReady, Squashable.readyErrors_eq_nil_iff]

end Squasher

end Substreams.Orchestrator
