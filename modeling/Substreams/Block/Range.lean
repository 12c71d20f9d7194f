import Mathlib.Data.List.Sort

set_option autoImplicit false

/-! # Block ranges

`block.Range` is the half-open interval `[StartBlock, ExclusiveEndBlock)` of block numbers
that every part of the orchestrator passes around: the segments of a `Segmenter`, the
requests a squasher merges, the ranges a stage job covers. Block numbers are `uint64` in
the source; where the code only compares them and takes remainders, `Nat` is exact, and the
modules that add block numbers (`Block/Segmenter.lean`) wrap explicitly.

Three parts of the `block` package are used by the code under study but are not part of it:
the constructor `NewRange`, the order `block.Ranges` is sorted by, and `Range.Split`. They
are modelled from the specification's words (the data model of §3 and the squash step of
§4.F) and marked so below.

The file also fixes the vocabulary of the squasher proofs: a *chain* from `b` is a list of
non-empty ranges, each starting where the previous one ends, the first at `b`; `reach b rs`
is where it ends.
-/

namespace Substreams.Block

/-- A Go runtime panic, by cause: `block.NewRange` refusing a pair, a slice index out of
range, an explicit `panic(...)` with its text, or a dereferenced `nil`. -/
inductive Panic
  | invalidRange (startBlock exclusiveEndBlock : Nat)
  | indexOutOfRange (index length : Int)
  | message (text : String)
  | nilDereference
deriving DecidableEq, Repr

/-- Results of fallible code are compared on concrete runs. -/
instance instDecidableEqExcept {ε α : Type} [DecidableEq ε] [DecidableEq α] :
    DecidableEq (Except ε α)
  | .ok a, .ok b => decidable_of_iff (a = b) (by simp)
  | .error a, .error b => decidable_of_iff (a = b) (by simp)
  | .ok _, .error _ => isFalse (fun h => Except.noConfusion h)
  | .error _, .ok _ => isFalse (fun h => Except.noConfusion h)

@[simp] theorem ok_bind {ε α β : Type} (a : α) (f : α → Except ε β) :
    (Except.ok a >>= f) = f a := rfl

@[simp] theorem error_bind {ε α β : Type} (e : ε) (f : α → Except ε β) :
    (Except.error e >>= f) = Except.error e := rfl

theorem bind_eq_ok {ε α β : Type} {x : Except ε α} {f : α → Except ε β} {b : β} :
    x >>= f = .ok b ↔ ∃ a, x = .ok a ∧ f a = .ok b := by
  cases x <;> simp

/-- `block.Range`: the blocks `StartBlock ≤ n < ExclusiveEndBlock`. The Go struct has no
invariant of its own (the squasher builds ranges with a struct literal), so neither has
this record. -/
structure BlockRange where
  startBlock : Nat
  exclusiveEndBlock : Nat
deriving DecidableEq, Repr

namespace BlockRange

/-- The range holds block `n`. -/
def Contains (r : BlockRange) (n : Nat) : Prop := r.startBlock ≤ n ∧ n < r.exclusiveEndBlock

instance instDecidableContains (r : BlockRange) (n : Nat) : Decidable (r.Contains n) :=
  inferInstanceAs (Decidable (_ ∧ _))

end BlockRange

/-- Modelled from the spec: `block.NewRange` is not in the source. A range is half-open
`[start, exclusiveEnd)` with `start < exclusiveEnd` (§3), so the constructor refuses any
other pair. -/
def newRange (startBlock exclusiveEndBlock : Nat) : Except Panic BlockRange :=
  if startBlock < exclusiveEndBlock then .ok ⟨startBlock, exclusiveEndBlock⟩
  else .error (.invalidRange startBlock exclusiveEndBlock)

theorem newRange_ok_iff (s e : Nat) (r : BlockRange) :
    newRange s e = .ok r ↔ s < e ∧ r = ⟨s, e⟩ := by
  unfold newRange
  split <;> simp [*, eq_comm]

/-! ## The order of `block.Ranges`

Modelled from the spec: the `sort.Interface` of `block.Ranges` is not in the source.
"Ordered first by `start`, then by `exclusiveEnd`" (§3). The order is total and
antisymmetric on range values, so every correct sort, stable or not, returns the same
list: `sortRanges` is insertion sort and is characterised by `sortRanges_eq_of_perm`. -/

instance instLE : LE BlockRange :=
  ⟨fun a b => a.startBlock < b.startBlock ∨
    (a.startBlock = b.startBlock ∧ a.exclusiveEndBlock ≤ b.exclusiveEndBlock)⟩

theorem BlockRange.le_def (a b : BlockRange) : a ≤ b ↔ a.startBlock < b.startBlock ∨
    (a.startBlock = b.startBlock ∧ a.exclusiveEndBlock ≤ b.exclusiveEndBlock) := Iff.rfl

instance instDecidableLE : DecidableRel (α := BlockRange) (· ≤ ·) :=
  fun a b => decidable_of_iff' _ (BlockRange.le_def a b)

theorem BlockRange.le_total (a b : BlockRange) : a ≤ b ∨ b ≤ a := by
  simp only [BlockRange.le_def]; omega

theorem BlockRange.le_trans (a b c : BlockRange) : a ≤ b → b ≤ c → a ≤ c := by
  simp only [BlockRange.le_def]; omega

theorem BlockRange.le_antisymm (a b : BlockRange) : a ≤ b → b ≤ a → a = b := by
  cases a; cases b
  simp only [BlockRange.le_def, BlockRange.mk.injEq]
  omega

instance instIsTotalLE : IsTotal BlockRange (· ≤ ·) := ⟨BlockRange.le_total⟩

instance instIsTransLE : IsTrans BlockRange (· ≤ ·) := ⟨BlockRange.le_trans⟩

instance instIsAntisymmLE : IsAntisymm BlockRange (· ≤ ·) := ⟨BlockRange.le_antisymm⟩

/-- `sort.Sort(s.ranges)`. -/
def sortRanges (rs : List BlockRange) : List BlockRange := rs.insertionSort (· ≤ ·)

theorem sortRanges_perm (rs : List BlockRange) : (sortRanges rs).Perm rs :=
  List.perm_insertionSort _ rs

theorem sortRanges_sorted (rs : List BlockRange) : (sortRanges rs).Sorted (· ≤ ·) :=
  List.sorted_insertionSort _ rs

theorem sortRanges_eq_of_perm {l₁ l₂ : List BlockRange} (h : l₁.Perm l₂)
    (hs : l₂.Sorted (· ≤ ·)) : sortRanges l₁ = l₂ :=
  List.eq_of_perm_of_sorted ((sortRanges_perm l₁).trans h) (sortRanges_sorted l₁) hs

theorem sortRanges_of_sorted {rs : List BlockRange} (h : rs.Sorted (· ≤ ·)) : sortRanges rs = rs :=
  h.insertionSort_eq

theorem sortRanges_congr {l₁ l₂ : List BlockRange} (h : l₁.Perm l₂) :
    sortRanges l₁ = sortRanges l₂ :=
  sortRanges_eq_of_perm (h.trans (sortRanges_perm l₂).symm) (sortRanges_sorted l₂)

/-! ## Chains of ranges -/

/-- `rs` is a chain from `b`: non-empty ranges, the first starting at `b` and each
starting where the previous one ends. -/
def Chain : Nat → List BlockRange → Prop
  | _, [] => True
  | b, r :: rs => r.startBlock = b ∧ b < r.exclusiveEndBlock ∧ Chain r.exclusiveEndBlock rs

/-- Where a chain from `b` ends. -/
def reach : Nat → List BlockRange → Nat
  | b, [] => b
  | _, r :: rs => reach r.exclusiveEndBlock rs

instance instDecidableChain : (b : Nat) → (rs : List BlockRange) → Decidable (Chain b rs)
  | _, [] => isTrue trivial
  | _, r :: rs =>
      haveI := instDecidableChain r.exclusiveEndBlock rs
      inferInstanceAs (Decidable (_ ∧ _ ∧ _))

@[simp] theorem chain_nil (b : Nat) : Chain b [] := trivial

@[simp] theorem chain_cons (b : Nat) (r : BlockRange) (rs : List BlockRange) :
    Chain b (r :: rs) ↔
      r.startBlock = b ∧ b < r.exclusiveEndBlock ∧ Chain r.exclusiveEndBlock rs := Iff.rfl

@[simp] theorem reach_nil (b : Nat) : reach b [] = b := rfl

@[simp] theorem reach_cons (b : Nat) (r : BlockRange) (rs : List BlockRange) :
    reach b (r :: rs) = reach r.exclusiveEndBlock rs := rfl

theorem reach_append (b : Nat) (rs qs : List BlockRange) :
    reach b (rs ++ qs) = reach (reach b rs) qs := by
  induction rs generalizing b with
  | nil => rfl
  | cons r rs ih => exact ih _

/-- A list of ranges either ends where it starts, or its end is the end of one of them. -/
theorem reach_eq_or_mem (b : Nat) (rs : List BlockRange) :
    reach b rs = b ∨ ∃ r ∈ rs, r.exclusiveEndBlock = reach b rs := by
  induction rs generalizing b with
  | nil => exact Or.inl rfl
  | cons r rs ih =>
      rcases ih r.exclusiveEndBlock with h | ⟨q, hq, h⟩
      · exact Or.inr ⟨r, List.mem_cons_self r rs, h.symm⟩
      · exact Or.inr ⟨q, List.mem_cons_of_mem r hq, h⟩

theorem chain_append {b : Nat} {rs qs : List BlockRange} :
    Chain b (rs ++ qs) ↔ Chain b rs ∧ Chain (reach b rs) qs := by
  induction rs generalizing b with
  | nil => simp
  | cons r rs ih => simp [ih, and_assoc]

/-- Every range of a chain from `b` starts at or after `b` and ends after it. -/
theorem Chain.le_start {b : Nat} {rs : List BlockRange} (h : Chain b rs) :
    ∀ q ∈ rs, b ≤ q.startBlock ∧ b < q.exclusiveEndBlock := by
  induction rs generalizing b with
  | nil => simp
  | cons r rs ih =>
      obtain ⟨rfl, hlt, hc⟩ := h
      intro q hq
      rcases List.mem_cons.mp hq with rfl | hq
      · exact ⟨le_rfl, hlt⟩
      · have := ih hc q hq
        exact ⟨by omega, by omega⟩

theorem Chain.nonempty {b : Nat} {rs : List BlockRange} (h : Chain b rs) :
    ∀ q ∈ rs, q.startBlock < q.exclusiveEndBlock := by
  induction rs generalizing b with
  | nil => simp
  | cons r rs ih =>
      obtain ⟨rfl, hlt, hc⟩ := h
      intro q hq
      rcases List.mem_cons.mp hq with rfl | hq
      · exact hlt
      · exact ih hc q hq

theorem Chain.le_reach {b : Nat} {rs : List BlockRange} (h : Chain b rs) : b ≤ reach b rs := by
  induction rs generalizing b with
  | nil => simp
  | cons r rs ih =>
      obtain ⟨-, hlt, hc⟩ := h
      exact le_of_lt (lt_of_lt_of_le hlt (ih hc))

/-- A chain is sorted, strictly by start. -/
theorem Chain.sorted_lt {b : Nat} {rs : List BlockRange} (h : Chain b rs) :
    rs.Sorted (fun p q => p.startBlock < q.startBlock) := by
  induction rs generalizing b with
  | nil => exact List.sorted_nil
  | cons r rs ih =>
      obtain ⟨rfl, hlt, hc⟩ := h
      refine List.sorted_cons.mpr ⟨fun q hq => ?_, ih hc⟩
      have := hc.le_start q hq
      omega

theorem Chain.sorted {b : Nat} {rs : List BlockRange} (h : Chain b rs) : rs.Sorted (· ≤ ·) :=
  h.sorted_lt.imp (fun hlt => Or.inl hlt)

theorem Chain.nodup {b : Nat} {rs : List BlockRange} (h : Chain b rs) : rs.Nodup :=
  h.sorted_lt.imp (fun hlt heq => by rw [heq] at hlt; exact lt_irrefl _ hlt)

/-! ## `Range.Split`

Modelled from the spec: `block.Range.Split` is not in the source. `squash` "splits `r` at
multiples of `I` into the minimal covering sequence of segment-aligned sub-ranges" (§4.F):
the first piece runs from the start to the next multiple of `I` (or to the end), each
following piece over one whole segment, the last one to the end. `splitFrom` walks the
pieces with the number of blocks left as its bound; every piece has at least one block. -/

/-- The pieces of `[s, e)` split at multiples of `I`, at most `fuel` of them. -/
def splitFrom (I e : Nat) : Nat → Nat → List BlockRange
  | 0, _ => []
  | fuel + 1, s =>
      if s < e then ⟨s, min ((s / I + 1) * I) e⟩ :: splitFrom I e fuel (min ((s / I + 1) * I) e)
      else []

/-- `r.Split(I)`. -/
def BlockRange.split (r : BlockRange) (I : Nat) : List BlockRange :=
  splitFrom I r.exclusiveEndBlock (r.exclusiveEndBlock - r.startBlock) r.startBlock

example : BlockRange.split ⟨5, 25⟩ 10 = [⟨5, 10⟩, ⟨10, 20⟩, ⟨20, 25⟩] := by decide

theorem splitFrom_chain {I e : Nat} (hI : 0 < I) (fuel s : Nat) (hfuel : e - s ≤ fuel) :
    Chain s (splitFrom I e fuel s) ∧ reach s (splitFrom I e fuel s) = max s e := by
  induction fuel generalizing s with
  | zero => simp [splitFrom]; omega
  | succ fuel ih =>
      simp only [splitFrom]
      split
      · have hnext : s < (s / I + 1) * I := by
          rw [Nat.add_mul, Nat.one_mul]; exact Nat.lt_div_mul_add hI
        obtain ⟨hc, hr⟩ := ih (min ((s / I + 1) * I) e) (by omega)
        refine ⟨⟨rfl, by dsimp only; omega, hc⟩, ?_⟩
        rw [reach_cons, hr]; omega
      · simp; omega

/-- An empty range has no pieces. -/
theorem split_eq_nil {I : Nat} {r : BlockRange} (h : r.exclusiveEndBlock ≤ r.startBlock) :
    r.split I = [] := by
  simp [BlockRange.split, Nat.sub_eq_zero_of_le h, splitFrom]

/-- The pieces of a range form a chain over exactly that range. -/
theorem split_chain {I : Nat} (hI : 0 < I) (r : BlockRange) :
    Chain r.startBlock (r.split I) ∧
      reach r.startBlock (r.split I) = max r.startBlock r.exclusiveEndBlock :=
  splitFrom_chain hI _ _ le_rfl

/-- No piece of a range starts before it. -/
theorem split_le_start {I : Nat} (hI : 0 < I) (r : BlockRange) :
    ∀ q ∈ r.split I, r.startBlock ≤ q.startBlock :=
  fun q hq => ((split_chain hI r).1.le_start q hq).1

end Substreams.Block
