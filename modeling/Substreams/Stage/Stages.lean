import Substreams.Block.Range

set_option autoImplicit false

/-! # The stage scheduler

`stage.Stages` schedules backfill work as a matrix of *units*: a unit is a segment of the
block range and a stage of the module graph, and the matrix `segmentStates` holds each
unit's state, one row per segment from `segmentOffset` on. `NextJob` walks the segments
from the segmenter's first index and, within a segment, the stages from the highest down,
and schedules the first unit that is pending, not before its stage's first segment, and
whose dependencies are completed; the matrix grows by `growSegments` as the walk goes.

Part of what `stages.go` calls is not in the source: the segmenter's `FirstIndex`,
`LastIndex` and `Range` as `Stages` uses them, the `FirstIndex` of a segmenter moved to
another initial block, `IndexForStartBlock`, the unit and state types, and the
`MarkSegment…` transitions. They are parameters here, or fields of the record, and are
marked below where they are modelled. A Go slice index out of range is a panic, and every
function that indexes returns `Except Panic`.
-/

namespace Substreams.Stage

open Substreams.Block

/-- Modelled from the spec: `stage.UnitState` is not in the source. The states of a unit
(§9): pending, scheduled, its partial store present, being merged, completed. `pending` is
the zero value, which `make` fills new rows with. -/
inductive UnitState
  | pending
  | scheduled
  | partialPresent
  | merging
  | completed
deriving DecidableEq, Repr

/-- `stage.Unit`: a segment index and a stage index. -/
structure Unit where
  segment : Nat
  stage : Nat
deriving DecidableEq, Repr

/-- `stage.Stages`, with the parts of its segmenters the scheduler reads: the segmenter's
first and last index, and the first index of each stage's segmenter. -/
structure Stages where
  firstIndex : Nat
  lastIndex : Nat
  stageFirstIndex : List Nat
  segmentStates : List (List UnitState)
  segmentOffset : Nat
deriving DecidableEq, Repr

/-- `l[i]` in Go: the element, or a panic when `i` is out of range. -/
def goIndex {α : Type} (l : List α) (i : Int) : Except Panic α :=
  if 0 ≤ i then
    match l[i.toNat]? with
    | some a => .ok a
    | none => .error (.indexOutOfRange i l.length)
  else .error (.indexOutOfRange i l.length)

namespace Stages

variable (s : Stages)

/-- The number of stages, `len(s.stages)`. -/
def stageCount : Nat := s.stageFirstIndex.length

/-- The row of segment `segment`, `segment - s.segmentOffset`. -/
def row (segment : Nat) : Int := (segment : Int) - s.segmentOffset

/-- `GetState(u)`: `s.segmentStates[u.Segment-s.segmentOffset][u.Stage]`. -/
def getState (u : Unit) : Except Panic UnitState := do
  let states ← goIndex s.segmentStates (s.row u.segment)
  goIndex states u.stage

/-- `setState(u, state)`. -/
def setState (u : Unit) (state : UnitState) : Except Panic Stages := do
  let states ← goIndex s.segmentStates (s.row u.segment)
  let _ ← goIndex states u.stage
  pure { s with
    segmentStates := s.segmentStates.set (s.row u.segment).toNat (states.set u.stage state) }

/-- Modelled from the spec: `markSegmentScheduled` is not in the source. It moves the unit
to `scheduled`, as the test's matrices show. -/
def markSegmentScheduled (u : Unit) : Except Panic Stages := s.setState u .scheduled

/-- The number of rows `growSegments` adds: as many as there are, two when there are none. -/
def growBy : Nat := if s.segmentStates.length = 0 then 2 else s.segmentStates.length

/-- `growSegments()`: append `growBy` rows of `len(s.stages)` pending units. -/
def growSegments : Stages :=
  { s with segmentStates :=
      s.segmentStates ++ List.replicate s.growBy (List.replicate s.stageCount .pending) }

/-- The loop of `dependenciesCompleted`: the stages below `stage` in segment `segment`,
from `stage - 1` down to `0`, are all completed. -/
def lowerStagesCompleted (segment : Nat) : Nat → Except Panic Bool
  | 0 => pure true
  | i + 1 => do
      let state ← s.getState ⟨segment, i⟩
      if state ≠ .completed then pure false else lowerStagesCompleted segment i

/-- `dependenciesCompleted(u)`: at or before its stage's first segment, and in stage 0, a
unit has none; otherwise the lower stages of the previous segment must be completed. -/
def dependenciesCompleted (u : Unit) : Except Panic Bool := do
  let first ← goIndex s.stageFirstIndex u.stage
  if u.segment ≤ first then pure true
  else if u.stage = 0 then pure true
  else s.lowerStagesCompleted (u.segment - 1) u.stage

/-- The inner loop of `NextJob` over the stages of segment `segment`, from stage `i - 1`
down to `0`: the first unit that is pending, not before its stage's first segment, and
whose dependencies are completed, is scheduled. -/
def pickStage (segment : Nat) : Nat → Except Panic (Option (Stages × Unit))
  | 0 => pure none
  | i + 1 => do
      let unit : Unit := ⟨segment, i⟩
      let segmentState ← s.getState unit
      if segmentState ≠ .pending then pickStage segment i
      else
        let first ← goIndex s.stageFirstIndex i
        if segment < first then pickStage segment i
        else
          let ready ← s.dependenciesCompleted unit
          if !ready then pickStage segment i
          else
            let s' ← s.markSegmentScheduled unit
            pure (some (s', unit))

/-- The grow step at the top of `NextJob`'s loop: one `growSegments` when the row of
`segment` is not allocated. -/
def growFor (segment : Nat) : Stages :=
  if (s.segmentStates.length : Int) ≤ s.row segment then s.growSegments else s

end Stages

/-- The outer loop of `NextJob` from segment `segment` on, `fuel` passes at most: grow,
stop past the last index, otherwise try the segment's stages and go on to the next
segment. -/
def Stages.nextJobFrom : Nat → Nat → Stages → Except Panic (Stages × Option Unit)
  | 0, _, s => pure (s, none)
  | fuel + 1, segment, s =>
      let s := s.growFor segment
      if segment > s.lastIndex then pure (s, none)
      else do
        match ← s.pickStage segment s.stageCount with
        | some (s', u) => pure (s', some u)
        | none => Stages.nextJobFrom fuel (segment + 1) s

/-- `NextJob()`, with `range` the segmenter's `Range`, which may panic: the scheduled unit and
its range, or `Unit{}` and `nil`. The loop runs over the segments from `FirstIndex()` to
`LastIndex() + 1`, so `LastIndex() - FirstIndex() + 2` passes are always enough. -/
def Stages.nextJob (range : Nat → Except Panic (Option BlockRange)) (s : Stages) :
    Except Panic (Stages × Unit × Option BlockRange) := do
  let (s', u) ← Stages.nextJobFrom (s.lastIndex - s.firstIndex + 2) s.firstIndex s
  match u with
  | some u =>
      let r ← range u.segment
      pure (s', u, r)
  | none => pure (s', ⟨0, 0⟩, none)

/-! ## `NewStages` -/

/-- Whether a stage of the module graph holds maps or stores (`stageKind`). -/
inductive Kind
  | map
  | store
deriving DecidableEq, Repr

/-- The fields of a module of the graph that `NewStages` reads: its name and initial block. -/
structure Module where
  name : String
  initialBlock : Nat
deriving DecidableEq, Repr

/-- A stage of `outputGraph.StagedUsedModules()`: its kind and its modules. -/
structure StagedModules where
  kind : Kind
  modules : List Module
deriving DecidableEq, Repr

/-- The initial blocks of a stage's modules. -/
def StagedModules.initialBlocks (mods : StagedModules) : List Nat := mods.modules.map (·.initialBlock)

/-- `storeConfigs[name]` is not found, `storeConfigs` not being `nil`. The map is `none` when it
is `nil`, and otherwise the names it has a config for. -/
def storeConfigMissing (storeConfigs : Option (List String)) (name : String) : Bool :=
  match storeConfigs with
  | none => false
  | some names => !names.contains name

/-- The loop of `NewStages` over a stage's modules, `lowest` the lowest initial block so far:
the module's store config is looked up, a missing one is `panic("store config not found: " +
mod.Name)`, and `lowestStageInitBlock` is lowered by the module's initial block. -/
def moduleLoop (storeConfigs : Option (List String)) (lowest : Nat) : List Module → Except Panic Nat
  | [] => pure lowest
  | mod :: mods =>
      if storeConfigMissing storeConfigs mod.name then
        .error (.message ("store config not found: " ++ mod.name))
      else moduleLoop storeConfigs (min lowest mod.initialBlock) mods

/-- `lowestStageInitBlock := mods[0].InitialBlock`, then the loop over the modules: a stage
with no module is an index out of range. -/
def lowestInitBlock (storeConfigs : Option (List String)) : List Module → Except Panic Nat
  | [] => .error (.indexOutOfRange 0 0)
  | mod :: mods => moduleLoop storeConfigs mod.initialBlock (mod :: mods)

/-- The loop of `NewStages` from stage `idx` on: every stage but a map stage that is not
the last gets a segmenter at its lowest initial block, of which `firstIndexAt` gives the
first index. -/
def newStagesLoop (firstIndexAt : Nat → Nat) (storeConfigs : Option (List String)) (lastStage : Nat) :
    Nat → List StagedModules → Except Panic (List Nat)
  | _, [] => pure []
  | idx, mods :: rest => do
      if mods.kind = .map ∧ idx ≠ lastStage then
        newStagesLoop firstIndexAt storeConfigs lastStage (idx + 1) rest
      else
        let lowest ← lowestInitBlock storeConfigs mods.modules
        let tail ← newStagesLoop firstIndexAt storeConfigs lastStage (idx + 1) rest
        pure (firstIndexAt lowest :: tail)

/-- `NewStages(ctx, outputGraph, segmenter, storeConfigs)`: no rows yet. The segmenter's
`FirstIndex()` and `LastIndex()`, `IndexForStartBlock(outputGraph.LowestInitBlock())` and
the `FirstIndex()` of `segmenter.WithInitialBlock(b)` are parameters. The stores the configs
build are left out: `NextJob` does not read them. -/
def newStages (firstIndex lastIndex segmentOffset : Nat) (firstIndexAt : Nat → Nat)
    (stagedModules : List StagedModules) (storeConfigs : Option (List String)) :
    Except Panic Stages := do
  let stageFirstIndex ←
    newStagesLoop firstIndexAt storeConfigs (stagedModules.length - 1) 0 stagedModules
  pure ⟨firstIndex, lastIndex, stageFirstIndex, [], segmentOffset⟩

/-! ## Runs -/

namespace Stages

/-- Modelled from the spec: `MarkSegmentPartialPresent`, `MarkSegmentMerging` and
`MarkSegmentCompleted` are not in the source. The moves of a scheduled unit outside
`NextJob`: its partial store is written, it is merged, and its merge completes, the
partials of a stage merged in order (a unit completes once the one before it in its stage
has, or at the stage's first segment). -/
inductive Transition : Stages → Stages → Prop
  | partialPresent {s s' : Stages} {u : Unit} :
      s.getState u = .ok .scheduled → s.setState u .partialPresent = .ok s' → Transition s s'
  | merging {s s' : Stages} {u : Unit} :
      s.getState u = .ok .partialPresent → s.setState u .merging = .ok s' → Transition s s'
  | completed {s s' : Stages} {u : Unit} :
      s.getState u = .ok .merging →
      (s.stageFirstIndex[u.stage]? = some u.segment ∨
        s.getState ⟨u.segment - 1, u.stage⟩ = .ok .completed) →
      s.setState u .completed = .ok s' → Transition s s'

/-- A step of the scheduler: a `NextJob` call, or a move of a scheduled unit. -/
inductive Step (range : Nat → Except Panic (Option BlockRange)) : Stages → Stages → Prop
  | nextJob {s s' : Stages} {u : Unit} {r : Option BlockRange} :
      s.nextJob range = .ok (s', u, r) → Step range s s'
  | transition {s s' : Stages} : Transition s s' → Step range s s'

/-- The states reachable from `s₀`. -/
inductive Reachable (range : Nat → Except Panic (Option BlockRange)) (s₀ : Stages) : Stages → Prop
  | start : Reachable range s₀ s₀
  | step {s s' : Stages} : Reachable range s₀ s → Step range s s' → Reachable range s₀ s'

end Stages

end Substreams.Stage
