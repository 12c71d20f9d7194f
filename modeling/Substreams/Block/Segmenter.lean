import Substreams.Block.Range
import Mathlib.Tactic.Ring

set_option autoImplicit false

/-! # The segmenter

`block.Segmenter` cuts `[initialBlock, exclusiveEndBlock)` at the multiples of `interval`
and hands out the pieces by index: segment `0` runs from `initialBlock` to the next
boundary, every following one covers one whole interval, and the last one is cut at
`exclusiveEndBlock`. `Count`, `Range`, `IndexForBlock` and `IsPartial` are the coordinate
system the rest of the orchestrator is written in.

The source computes in `uint64` and converts to `int`, so this file does too: `add64`,
`sub64` and `mul64` wrap modulo `2^64` and `toInt` reads 64 bits as a signed integer.
`Fits` says that no segment boundary up to `exclusiveEndBlock` overflows a signed 64-bit
integer; under it every wrap disappears (`count_eq`, `range_eq`).

Two things the source gets wrong are proved here. When `exclusiveEndBlock` is a multiple
of the interval, `computeCount` counts one segment too many and `Range` of the last index
asks `NewRange` for the empty range `[exclusiveEndBlock, exclusiveEndBlock)`
(`range_last_of_aligned`), so that `IsPartial` of the last index panics too
(`isPartial_eq`, which gives `IsPartial` at every index). Near `2^64` the addition
`baseBlock + interval` wraps, and `Range` asks for a reversed range. Without wrapping, the
ranges at two indices never overlap (`range_disjoint`).
-/

namespace Substreams.Block

/-! ## Machine words -/

/-- `uint64` addition. -/
def add64 (a b : Nat) : Nat := (a + b) % 2 ^ 64

/-- `uint64` subtraction, wrapping below zero. -/
def sub64 (a b : Nat) : Nat := (a + 2 ^ 64 - b) % 2 ^ 64

/-- `uint64` multiplication. -/
def mul64 (a b : Nat) : Nat := a * b % 2 ^ 64

/-- Go's `int(x)` on a `uint64` value: the same 64 bits read as a two's-complement `int`. -/
def toInt (x : Nat) : Int := if x < 2 ^ 63 then x else (x : Int) - 2 ^ 64

theorem add64_of_lt {a b : Nat} (h : a + b < 2 ^ 64) : add64 a b = a + b := by
  unfold add64; omega

theorem sub64_of_le {a b : Nat} (ha : a < 2 ^ 64) (h : b ≤ a) : sub64 a b = a - b := by
  unfold sub64; omega

theorem mul64_of_lt {a b : Nat} (h : a * b < 2 ^ 64) : mul64 a b = a * b :=
  Nat.mod_eq_of_lt h

theorem toInt_of_lt {x : Nat} (h : x < 2 ^ 63) : toInt x = x := by
  rw [toInt, if_pos h]

/-! ## `block.Segmenter` -/

/-- `block.Segmenter` as `NewSegmenter` builds it. The constructor divides by the interval,
so a segmenter with interval `0` is never built: the record carries `0 < interval`. -/
structure Segmenter where
  interval : Nat
  initialBlock : Nat
  exclusiveEndBlock : Nat
  interval_pos : 0 < interval

/-- `NewSegmenter(interval, initialBlock, exclusiveEndBlock)`: with interval `0` the
divisions of `computeCount` panic. -/
def newSegmenter (interval initialBlock exclusiveEndBlock : Nat) : Except Panic Segmenter :=
  if h : 0 < interval then .ok ⟨interval, initialBlock, exclusiveEndBlock, h⟩
  else .error (.message "runtime error: integer divide by zero")

namespace Segmenter

variable (s : Segmenter)

/-- `initSegment` of `computeCount`: the index of the interval holding `initialBlock`. -/
def initSegment : Nat := s.initialBlock / s.interval

/-- `lastSegment` of `computeCount`: the index of the interval holding
`exclusiveEndBlock`. -/
def lastSegment : Nat := s.exclusiveEndBlock / s.interval

/-- `computeCount`, the `count` that `NewSegmenter` stores:
`int(lastSegment - initSegment + 1)`. -/
def count : Int := toInt (add64 (sub64 s.lastSegment s.initSegment) 1)

/-- `firstRange`: `[initialBlock, min(floorLowerBound + interval, exclusiveEndBlock))`. -/
def firstRange : Except Panic (Option BlockRange) :=
  if s.exclusiveEndBlock < s.initialBlock then .ok none
  else
    some <$> newRange s.initialBlock
      (min (add64 (s.initialBlock - s.initialBlock % s.interval) s.interval) s.exclusiveEndBlock)

/-- `rangeFromBegin(idx)`, for an index `idx ≥ 1`. -/
def rangeFromBegin (idx : Int) : Except Panic (Option BlockRange) :=
  if s.count ≤ idx then .ok none
  else
    let baseBlock := add64 (s.initialBlock - s.initialBlock % s.interval) (mul64 idx.toNat s.interval)
    some <$> newRange baseBlock (min (add64 baseBlock s.interval) s.exclusiveEndBlock)

/-- `Range(idx)`: `nil` for a negative index or one past the count. -/
def range (idx : Int) : Except Panic (Option BlockRange) :=
  if idx < 0 then .ok none
  else if idx = 0 then s.firstRange
  else s.rangeFromBegin idx

/-- `IndexForBlock(blockNum)`: `int(blockNum/interval - initialBlock/interval)`. -/
def indexForBlock (blockNum : Nat) : Int :=
  toInt (sub64 (blockNum / s.interval) s.initSegment)

/-- `IsPartial(segmentIndex)`: whether the segment ends off a boundary. It panics past the
count, and dereferences whatever `Range` returns. -/
def isPartial (segmentIndex : Int) : Except Panic Bool :=
  if s.count ≤ segmentIndex then .error (.message "segment index out of range")
  else
    match s.range segmentIndex with
    | .error p => .error p
    | .ok none => .error .nilDereference
    | .ok (some r) => .ok (r.exclusiveEndBlock % s.interval ≠ 0)

/-! ## The segments, without wrapping

`segmentStart` and `segmentEnd` are the bounds `Range` computes when nothing overflows:
segment `0` starts at `initialBlock`, segment `k > 0` at the `k`-th boundary after the
one below `initialBlock`, and every segment ends at the next boundary or at
`exclusiveEndBlock`, whichever comes first. -/

/-- No segment boundary up to `exclusiveEndBlock` overflows a signed 64-bit integer. -/
def Fits : Prop := (s.lastSegment + 1) * s.interval < 2 ^ 63

/-- Where segment `k` starts. -/
def segmentStart (k : Nat) : Nat :=
  if k = 0 then s.initialBlock else (s.initSegment + k) * s.interval

/-- Where segment `k` ends. -/
def segmentEnd (k : Nat) : Nat := min ((s.initSegment + k + 1) * s.interval) s.exclusiveEndBlock

/-- The number of segments `computeCount` returns when nothing wraps. -/
def segments : Nat := s.lastSegment - s.initSegment + 1

theorem floor_eq : s.initialBlock - s.initialBlock % s.interval = s.initSegment * s.interval := by
  have := Nat.div_add_mod s.initialBlock s.interval
  rw [initSegment, Nat.mul_comm]; omega

theorem initSegment_bounds :
    s.initSegment * s.interval ≤ s.initialBlock ∧ s.initialBlock < s.initSegment * s.interval + s.interval :=
  ⟨Nat.div_mul_le_self _ _, Nat.lt_div_mul_add s.interval_pos⟩

theorem lastSegment_bounds :
    s.lastSegment * s.interval ≤ s.exclusiveEndBlock ∧
      s.exclusiveEndBlock < s.lastSegment * s.interval + s.interval :=
  ⟨Nat.div_mul_le_self _ _, Nat.lt_div_mul_add s.interval_pos⟩

variable {s}

theorem Fits.lastSegment_lt (hfit : s.Fits) : s.lastSegment + 1 < 2 ^ 63 :=
  lt_of_le_of_lt (Nat.le_mul_of_pos_right _ s.interval_pos) hfit

/-- The `k`-th boundary after the first one fits when `k` is an index of a segment. -/
theorem Fits.boundary_lt (hfit : s.Fits) {k : Nat} (hk : s.initSegment + k ≤ s.lastSegment) :
    (s.initSegment + k + 1) * s.interval < 2 ^ 63 :=
  lt_of_le_of_lt (Nat.mul_le_mul_right _ (by omega)) hfit

theorem initSegment_le (hle : s.initialBlock ≤ s.exclusiveEndBlock) :
    s.initSegment ≤ s.lastSegment :=
  Nat.div_le_div_right hle

theorem count_eq (hfit : s.Fits) (hle : s.initialBlock ≤ s.exclusiveEndBlock) :
    s.count = s.segments := by
  have := hfit.lastSegment_lt
  rw [count, sub64_of_le (by omega) (initSegment_le hle), add64_of_lt (by omega),
    toInt_of_lt (by omega), segments]

/-- **`Range` without wrapping.** For every index of a segment, `Range` asks `NewRange` for
`[segmentStart k, segmentEnd k)`. -/
theorem range_eq (hfit : s.Fits) (hle : s.initialBlock ≤ s.exclusiveEndBlock) (k : Nat)
    (hk : k < s.segments) :
    s.range k = some <$> newRange (s.segmentStart k) (s.segmentEnd k) := by
  have hb := hfit.boundary_lt (k := k) (by have := initSegment_le hle; simp only [segments] at hk; omega)
  rcases Nat.eq_zero_or_pos k with rfl | hpos
  · have hb' : s.initSegment * s.interval + s.interval < 2 ^ 64 := by
      rw [Nat.add_zero, Nat.add_mul, Nat.one_mul] at hb; omega
    rw [Nat.cast_zero, range, if_neg (lt_irrefl 0), if_pos rfl, firstRange,
      if_neg (not_lt.mpr hle), floor_eq, add64_of_lt hb']
    simp only [segmentStart, segmentEnd, if_pos, Nat.add_zero, Nat.add_mul, Nat.one_mul]
  · have hsum : (s.initSegment + k + 1) * s.interval =
        s.initSegment * s.interval + k * s.interval + s.interval := by ring
    have hcount : ¬ s.count ≤ (k : Int) := by rw [count_eq hfit hle]; omega
    rw [range, if_neg (by omega), if_neg (by omega), rangeFromBegin, if_neg hcount]
    simp only [floor_eq, Int.toNat_natCast, mul64_of_lt (by omega : k * s.interval < 2 ^ 64),
      add64_of_lt (by omega : s.initSegment * s.interval + k * s.interval < 2 ^ 64),
      add64_of_lt (by omega : s.initSegment * s.interval + k * s.interval + s.interval < 2 ^ 64),
      segmentStart, segmentEnd, if_neg hpos.ne', hsum, Nat.add_mul]

/-- What `Range` gives without wrapping: a range only for an index of a segment, and then
that segment's bounds. -/
theorem range_eq_some (hfit : s.Fits) (hle : s.initialBlock ≤ s.exclusiveEndBlock) {k : Nat}
    {r : BlockRange} (h : s.range k = .ok (some r)) :
    k < s.segments ∧ r = ⟨s.segmentStart k, s.segmentEnd k⟩ := by
  by_cases hk : k < s.segments
  · rw [range_eq hfit hle k hk] at h
    rcases hn : newRange (s.segmentStart k) (s.segmentEnd k) with p | r' <;> rw [hn] at h <;>
      cases h
    exact ⟨hk, ((newRange_ok_iff _ _ _).mp hn).2⟩
  · have hcount : s.count ≤ (k : Int) := by rw [count_eq hfit hle]; omega
    rw [range, if_neg (by omega), if_neg (by simp only [segments] at hk; omega), rangeFromBegin,
      if_pos hcount] at h
    cases h

/-! ## Tiling

Inner segments end on the next boundary, where the following one starts; the last one
ends at `exclusiveEndBlock`. It is empty exactly when it is not the first one and
`exclusiveEndBlock` is a multiple of the interval: that is the segment `computeCount`
adds one too many. -/

theorem segmentEnd_of_lt (k : Nat) (hk : k + 1 < s.segments) :
    s.segmentEnd k = (s.initSegment + k + 1) * s.interval := by
  have h1 : (s.initSegment + k + 1) * s.interval ≤ s.lastSegment * s.interval :=
    Nat.mul_le_mul_right _ (by simp only [segments] at hk; omega)
  have := s.lastSegment_bounds
  exact min_eq_left (by omega)

theorem segmentStart_succ (k : Nat) : s.segmentStart (k + 1) = (s.initSegment + k + 1) * s.interval := by
  simp [segmentStart, Nat.add_assoc]

theorem segmentStart_lt_of_lt (k : Nat) (hk : k + 1 < s.segments) :
    s.segmentStart k < s.segmentEnd k := by
  have := s.initSegment_bounds
  have hmono : (s.initSegment + k) * s.interval < (s.initSegment + k + 1) * s.interval :=
    Nat.mul_lt_mul_of_pos_right (by omega) s.interval_pos
  rw [segmentEnd_of_lt k hk, segmentStart]
  split
  · subst k; rw [Nat.add_zero, Nat.add_mul, Nat.one_mul]; omega
  · exact hmono

/-- A segment ends at or before every later segment starts. -/
theorem segmentEnd_le_segmentStart {k k' : Nat} (h : k < k') : s.segmentEnd k ≤ s.segmentStart k' := by
  rw [segmentStart, if_neg (by omega)]
  exact (min_le_left _ _).trans (Nat.mul_le_mul_right _ (by omega))

/-- Without wrapping, the ranges `Range` gives at two indices share no block. -/
theorem range_disjoint (hfit : s.Fits) (hle : s.initialBlock ≤ s.exclusiveEndBlock) {k k' : Nat}
    (hne : k ≠ k') {r r' : BlockRange} (h : s.range k = .ok (some r))
    (h' : s.range k' = .ok (some r')) (n : Nat) : ¬ (r.Contains n ∧ r'.Contains n) := by
  obtain ⟨-, rfl⟩ := range_eq_some hfit hle h
  obtain ⟨-, rfl⟩ := range_eq_some hfit hle h'
  rintro ⟨⟨h0, h1⟩, h2, h3⟩
  dsimp only at h0 h1 h2 h3
  rcases Nat.lt_or_gt_of_ne hne with hlt | hlt
  · exact absurd (s.segmentEnd_le_segmentStart hlt) (by omega)
  · exact absurd (s.segmentEnd_le_segmentStart hlt) (by omega)

theorem segmentEnd_last (hle : s.initialBlock ≤ s.exclusiveEndBlock) :
    s.segmentEnd (s.segments - 1) = s.exclusiveEndBlock := by
  have := s.lastSegment_bounds
  have := initSegment_le hle
  have hL : s.initSegment + (s.segments - 1) + 1 = s.lastSegment + 1 := by simp only [segments]; omega
  rw [segmentEnd, hL, Nat.add_mul, Nat.one_mul]
  exact min_eq_right (by omega)

/-- The last segment is empty exactly when it is not the first and `exclusiveEndBlock` is a
multiple of the interval. -/
theorem segmentStart_last_lt_iff (hlt : s.initialBlock < s.exclusiveEndBlock) :
    s.segmentStart (s.segments - 1) < s.exclusiveEndBlock ↔
      s.segments = 1 ∨ s.exclusiveEndBlock % s.interval ≠ 0 := by
  have hL := Nat.div_add_mod s.exclusiveEndBlock s.interval
  have := initSegment_le hlt.le
  rw [segmentStart]
  split
  · simp only [segments] at *; omega
  · have hk : s.initSegment + (s.segments - 1) = s.lastSegment := by simp only [segments]; omega
    rw [hk, lastSegment, Nat.mul_comm]
    constructor
    · intro h; right; omega
    · rintro (h | h) <;> omega

/-- When `exclusiveEndBlock` is a multiple of the interval, there are at least two segments,
and the last one starts at `exclusiveEndBlock`. -/
theorem segmentStart_last_of_aligned (hlt : s.initialBlock < s.exclusiveEndBlock)
    (hend : s.exclusiveEndBlock % s.interval = 0) :
    1 < s.segments ∧ s.segmentStart (s.segments - 1) = s.exclusiveEndBlock := by
  have hL : s.lastSegment * s.interval = s.exclusiveEndBlock := by
    have := Nat.div_add_mod s.exclusiveEndBlock s.interval
    rw [lastSegment, Nat.mul_comm]; omega
  have hf : s.initSegment < s.lastSegment :=
    Nat.lt_of_mul_lt_mul_right (lt_of_le_of_lt s.initSegment_bounds.1 (hL ▸ hlt))
  have hk : s.initSegment + (s.segments - 1) = s.lastSegment := by simp only [segments]; omega
  refine ⟨by simp only [segments]; omega, ?_⟩
  rw [segmentStart, if_neg (by simp only [segments]; omega), hk, hL]

/-- **Tiling, when the end is off a boundary.** Without overflow and with `exclusiveEndBlock`
not a multiple of the interval, every index below `Count()` names a non-empty segment, the
segments run contiguously from `initialBlock` to `exclusiveEndBlock`, and `IsPartial` holds
of the last one only. -/
theorem tiling_of_unaligned (hfit : s.Fits) (hlt : s.initialBlock < s.exclusiveEndBlock)
    (hend : s.exclusiveEndBlock % s.interval ≠ 0) :
    s.count = s.segments ∧ s.segmentStart 0 = s.initialBlock ∧
      s.segmentEnd (s.segments - 1) = s.exclusiveEndBlock ∧
      (∀ k, k + 1 < s.segments → s.segmentStart (k + 1) = s.segmentEnd k) ∧
      ∀ k < s.segments, s.segmentStart k < s.segmentEnd k ∧
        s.range k = .ok (some ⟨s.segmentStart k, s.segmentEnd k⟩) ∧
        s.isPartial k = .ok (decide (k + 1 = s.segments)) := by
  refine ⟨count_eq hfit hlt.le, by simp [segmentStart], segmentEnd_last hlt.le,
    fun k hk => by rw [segmentStart_succ, segmentEnd_of_lt k hk], fun k hk => ?_⟩
  have hne : s.segmentStart k < s.segmentEnd k := by
    by_cases hlast : k + 1 < s.segments
    · exact segmentStart_lt_of_lt k hlast
    · have hk' : k = s.segments - 1 := by omega
      subst hk'
      rw [segmentEnd_last hlt.le]
      exact (segmentStart_last_lt_iff hlt).mpr (Or.inr hend)
  have hrange : s.range k = .ok (some ⟨s.segmentStart k, s.segmentEnd k⟩) := by
    rw [range_eq hfit hlt.le k hk, newRange, if_pos hne]; rfl
  refine ⟨hne, hrange, ?_⟩
  have hcount : ¬ s.count ≤ (k : Int) := by rw [count_eq hfit hlt.le]; omega
  rw [isPartial, if_neg hcount, hrange]
  by_cases hlast : k + 1 < s.segments
  · have hmod : (s.initSegment + k + 1) * s.interval % s.interval = 0 := Nat.mul_mod_left _ _
    simp [segmentEnd_of_lt k hlast, hmod, hlast.ne]
  · have hk' : k = s.segments - 1 := by omega
    subst hk'
    simp only [segmentEnd_last hlt.le, hend]
    simp only [segments] at *
    simp; omega

/-- Blocks `5` to `75` in intervals of `10`: eight segments, the last one partial. -/
theorem tiling_of_unaligned_five_to_seventyfive :
    let s : Segmenter := ⟨10, 5, 75, by decide⟩
    s.Fits ∧ s.initialBlock < s.exclusiveEndBlock ∧ s.exclusiveEndBlock % s.interval ≠ 0 ∧
      s.count = s.segments ∧ s.segmentStart 0 = s.initialBlock ∧
      s.segmentEnd (s.segments - 1) = s.exclusiveEndBlock ∧
      (∀ k, k + 1 < s.segments → s.segmentStart (k + 1) = s.segmentEnd k) ∧
      ∀ k < s.segments, s.segmentStart k < s.segmentEnd k ∧
        s.range k = .ok (some ⟨s.segmentStart k, s.segmentEnd k⟩) ∧
        s.isPartial k = .ok (decide (k + 1 = s.segments)) := by
  intro s
  have hfit : s.Fits := by unfold Fits lastSegment; decide
  exact ⟨hfit, by decide, by decide, tiling_of_unaligned hfit (by decide) (by decide)⟩

/-- **The extra segment.** Without overflow, when `exclusiveEndBlock` is a multiple of the
interval, `Range(Count()-1)` asks `NewRange` for `[exclusiveEndBlock, exclusiveEndBlock)`. -/
theorem range_last_of_aligned (hfit : s.Fits) (hlt : s.initialBlock < s.exclusiveEndBlock)
    (hend : s.exclusiveEndBlock % s.interval = 0) :
    s.count - 1 = ((s.segments - 1 : Nat) : Int) ∧
      s.range ((s.segments - 1 : Nat) : Int) =
        .error (.invalidRange s.exclusiveEndBlock s.exclusiveEndBlock) := by
  obtain ⟨htwo, hstart⟩ := segmentStart_last_of_aligned hlt hend
  refine ⟨by rw [count_eq hfit hlt.le]; omega, ?_⟩
  rw [range_eq hfit hlt.le _ (by omega), hstart, segmentEnd_last hlt.le, newRange,
    if_neg (lt_irrefl _)]
  rfl

/-- Blocks `5` to `20` in intervals of `10`: `Range(1)` asks for `[20, 20)`. -/
theorem range_last_of_aligned_five_to_twenty :
    let s : Segmenter := ⟨10, 5, 20, by decide⟩
    s.Fits ∧ s.initialBlock < s.exclusiveEndBlock ∧ s.exclusiveEndBlock % s.interval = 0 ∧
      s.count - 1 = ((s.segments - 1 : Nat) : Int) ∧
      s.range ((s.segments - 1 : Nat) : Int) =
        .error (.invalidRange s.exclusiveEndBlock s.exclusiveEndBlock) := by
  intro s
  have hfit : s.Fits := by unfold Fits lastSegment; decide
  exact ⟨hfit, by decide, by decide, range_last_of_aligned hfit (by decide) (by decide)⟩

/-- Blocks `5` to `20` in intervals of `10`: the end falls on a boundary. -/
def alignedEnd : Segmenter := ⟨10, 5, 20, by decide⟩

theorem alignedEnd_count_overshoots :
    alignedEnd.count = 3 ∧ alignedEnd.range 0 = .ok (some ⟨5, 10⟩) ∧
      alignedEnd.range 1 = .ok (some ⟨10, 20⟩) ∧
      alignedEnd.range 2 = .error (.invalidRange 20 20) := by
  decide

/-- **`IsPartial` at every index.** Without overflow, `IsPartial` panics past the count and
dereferences `nil` below `0`; it is `false` on every segment but the last, since they end on
a boundary. On the last one it is `true` when `exclusiveEndBlock` is off a boundary, and when
it is on one, the last index names the empty segment `[exclusiveEndBlock, exclusiveEndBlock)`,
which `NewRange` refuses. -/
theorem isPartial_eq (hfit : s.Fits) (hlt : s.initialBlock < s.exclusiveEndBlock) (idx : Int) :
    s.isPartial idx =
      if (s.segments : Int) ≤ idx then .error (.message "segment index out of range")
      else if idx < 0 then .error .nilDereference
      else if idx + 1 < s.segments then .ok false
      else if s.exclusiveEndBlock % s.interval = 0 then
        .error (.invalidRange s.exclusiveEndBlock s.exclusiveEndBlock)
      else .ok true := by
  rw [isPartial, count_eq hfit hlt.le]
  by_cases hcount : (s.segments : Int) ≤ idx
  · rw [if_pos hcount, if_pos hcount]
  rw [if_neg hcount, if_neg hcount]
  by_cases hneg : idx < 0
  · rw [if_pos hneg, range, if_pos hneg]
  obtain ⟨k, rfl⟩ := Int.eq_ofNat_of_zero_le (not_lt.mp hneg)
  rw [if_neg hneg, range_eq hfit hlt.le k (by omega)]
  by_cases hinner : (k : Int) + 1 < s.segments
  · have hmod : (s.initSegment + k + 1) * s.interval % s.interval = 0 := Nat.mul_mod_left _ _
    rw [if_pos hinner, newRange, if_pos (segmentStart_lt_of_lt k (by omega)),
      segmentEnd_of_lt k (by omega)]
    simp [hmod]
  have hk : k = s.segments - 1 := by omega
  subst hk
  rw [if_neg hinner, segmentEnd_last hlt.le]
  by_cases hend : s.exclusiveEndBlock % s.interval = 0
  · rw [if_pos hend, (segmentStart_last_of_aligned hlt hend).2, newRange, if_neg (lt_irrefl _)]
    rfl
  · rw [if_neg hend, newRange, if_pos ((segmentStart_last_lt_iff hlt).mpr (.inr hend))]
    simp [hend]

/-- Blocks `5` to `20` in intervals of `10`: `IsPartial(2)` panics in `NewRange`. -/
theorem isPartial_eq_aligned_last :
    alignedEnd.Fits ∧ alignedEnd.initialBlock < alignedEnd.exclusiveEndBlock ∧
      alignedEnd.isPartial 2 =
        if (alignedEnd.segments : Int) ≤ 2 then .error (.message "segment index out of range")
        else if (2 : Int) < 0 then .error .nilDereference
        else if (2 : Int) + 1 < alignedEnd.segments then .ok false
        else if alignedEnd.exclusiveEndBlock % alignedEnd.interval = 0 then
          .error (.invalidRange alignedEnd.exclusiveEndBlock alignedEnd.exclusiveEndBlock)
        else .ok true := by
  have hfit : alignedEnd.Fits := by unfold Fits lastSegment; decide
  exact ⟨hfit, by decide, isPartial_eq hfit (by decide) 2⟩

/-! ## Blocks and indices

Without overflow, `IndexForBlock` and `Range` are inverse to each other on the blocks
`[initialBlock, exclusiveEndBlock)`: a block's index names a segment that holds it, and a
segment's start has that segment's index. -/

theorem indexForBlock_eq (hfit : s.Fits) {n : Nat} (h0 : s.initialBlock ≤ n)
    (h1 : n ≤ s.exclusiveEndBlock) :
    s.indexForBlock n = ((n / s.interval - s.initSegment : Nat) : Int) := by
  have hn : n / s.interval ≤ s.lastSegment := Nat.div_le_div_right h1
  have := hfit.lastSegment_lt
  have hf : s.initSegment ≤ n / s.interval := Nat.div_le_div_right h0
  rw [indexForBlock, sub64_of_le (by omega) hf, toInt_of_lt (by omega)]

/-- A block's segment holds it. -/
theorem range_indexForBlock (hfit : s.Fits) {n : Nat} (h0 : s.initialBlock ≤ n)
    (h1 : n < s.exclusiveEndBlock) :
    0 ≤ s.indexForBlock n ∧ s.indexForBlock n < s.count ∧
      ∃ r, s.range (s.indexForBlock n) = .ok (some r) ∧ r.Contains n := by
  have hf : s.initSegment ≤ n / s.interval := Nat.div_le_div_right h0
  have hn : n / s.interval ≤ s.lastSegment := Nat.div_le_div_right h1.le
  have hk : n / s.interval - s.initSegment < s.segments := by simp only [segments]; omega
  have hlo : s.segmentStart (n / s.interval - s.initSegment) ≤ n := by
    rw [segmentStart]; split
    · exact h0
    · rw [Nat.add_sub_cancel' hf]; exact Nat.div_mul_le_self n s.interval
  have hhi : n < s.segmentEnd (n / s.interval - s.initSegment) := by
    rw [segmentEnd, Nat.add_sub_cancel' hf, Nat.add_mul, Nat.one_mul]
    exact lt_min (Nat.lt_div_mul_add s.interval_pos) h1
  rw [indexForBlock_eq hfit h0 h1.le, count_eq hfit (by omega)]
  refine ⟨by omega, by omega, ⟨_, _⟩, ?_, hlo, hhi⟩
  rw [range_eq hfit (by omega) _ hk, newRange, if_pos (by omega)]
  rfl

/-- Block `42` of blocks `5` to `75` in intervals of `10`. -/
theorem range_indexForBlock_fortytwo :
    let s : Segmenter := ⟨10, 5, 75, by decide⟩
    s.Fits ∧ s.initialBlock ≤ 42 ∧ 42 < s.exclusiveEndBlock ∧
      0 ≤ s.indexForBlock 42 ∧ s.indexForBlock 42 < s.count ∧
      ∃ r, s.range (s.indexForBlock 42) = .ok (some r) ∧ r.Contains 42 := by
  intro s
  have hfit : s.Fits := by unfold Fits lastSegment; decide
  exact ⟨hfit, by decide, by decide, range_indexForBlock hfit (by decide) (by decide)⟩

/-- A segment's start has the segment's index. -/
theorem indexForBlock_range (hfit : s.Fits) (hle : s.initialBlock ≤ s.exclusiveEndBlock)
    {k : Nat} (hk : k < s.segments) {r : BlockRange} (h : s.range k = .ok (some r)) :
    s.indexForBlock r.startBlock = k := by
  rw [range_eq hfit hle k hk] at h
  obtain ⟨r', hr', hr⟩ : ∃ r', newRange (s.segmentStart k) (s.segmentEnd k) = .ok r' ∧ r' = r := by
    revert h; cases newRange (s.segmentStart k) (s.segmentEnd k) <;> simp [Functor.map, Except.map]
  obtain ⟨-, rfl⟩ := (newRange_ok_iff _ _ _).mp hr'
  subst hr
  have hkL : s.initSegment + k ≤ s.lastSegment := by
    have := initSegment_le hle; simp only [segments] at hk; omega
  have hstart : s.segmentStart k ≤ s.exclusiveEndBlock := by
    rw [segmentStart]; split
    · exact hle
    · exact le_trans (Nat.mul_le_mul_right _ hkL) s.lastSegment_bounds.1
  have hb0 : s.initialBlock ≤ s.segmentStart k := by
    rw [segmentStart]; split
    · exact le_rfl
    · have := s.initSegment_bounds
      rw [Nat.add_mul]
      have : s.interval ≤ k * s.interval := Nat.le_mul_of_pos_left _ (by omega)
      omega
  rw [indexForBlock_eq hfit hb0 hstart, segmentStart]
  split
  · subst k; simp [initSegment]
  · rw [Nat.mul_div_cancel _ s.interval_pos]; simp

/-- Segment `3` of blocks `5` to `75` in intervals of `10` starts at block `30`. -/
theorem indexForBlock_range_three :
    let s : Segmenter := ⟨10, 5, 75, by decide⟩
    s.Fits ∧ 3 < s.segments ∧ s.range 3 = .ok (some ⟨30, 40⟩) ∧
      s.indexForBlock (⟨30, 40⟩ : BlockRange).startBlock = 3 := by
  intro s
  have hfit : s.Fits := by unfold Fits lastSegment; decide
  have h : s.range 3 = .ok (some ⟨30, 40⟩) := by decide
  exact ⟨hfit, by decide, h, indexForBlock_range hfit (by decide) (by decide) h⟩

/-- Blocks `0` to `2^64 - 1` in intervals of `2^63`: the boundary after the last segment
is `2^64`, which a `uint64` cannot hold. -/
def wrappingEnd : Segmenter := ⟨2 ^ 63, 0, 2 ^ 64 - 1, by decide⟩

theorem indexForBlock_range_roundtrip_fails :
    (alignedEnd.count = 3 ∧ alignedEnd.range 2 = .error (.invalidRange 20 20)) ∧
      wrappingEnd.indexForBlock (2 ^ 63) = 1 ∧ wrappingEnd.count = 2 ∧
      wrappingEnd.range 1 = .error (.invalidRange (2 ^ 63) 0) := by
  decide

end Segmenter

/-- The segmenter of `TestNewStages`: blocks `5` to `75` in intervals of `10`. -/
def testSegmenter : Segmenter := ⟨10, 5, 75, by decide⟩

example : testSegmenter.count = 8 ∧ testSegmenter.isPartial 7 = .ok true ∧
    testSegmenter.indexForBlock 60 = 6 ∧ testSegmenter.range 0 = .ok (some ⟨5, 10⟩) ∧
    testSegmenter.range 1 = .ok (some ⟨10, 20⟩) ∧ testSegmenter.range 7 = .ok (some ⟨70, 75⟩) ∧
    testSegmenter.range 8 = .ok none := by
  decide

end Substreams.Block
