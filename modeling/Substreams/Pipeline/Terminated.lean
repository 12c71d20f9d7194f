import Substreams.Block.Range
import Mathlib.Data.List.Basic

set_option autoImplicit false

/-! # Ending the stream

`Pipeline.OnStreamTerminated(streamSrv, err)` tells apart how the stream of blocks ended. On
an error that is `stream.ErrStopBlockReached` it flushes the stores at the request's stop
block; then, on that error or on `io.EOF`, it sets the trailer `substreams-partials-written`
to the partial ranges written, each `start-end`, joined by commas, and returns `nil`. A failed
flush returns an internal error and sets no trailer; any other error is returned as it is
(`onStreamTerminated_spec`).

The trailer loses nothing: decimal numbers read back (`toString_value`) and hold neither `-`
nor `,`, so splitting on the separators inverts each join, and two lists of ranges with the
same trailer are the same list (`partialsTrailer_injective`).

`Pipeline.flushStores`, which flushes the stores at a block, is not in the source; it is a
parameter, from the block and the pipeline to the error it returns and the pipeline after.
The logger and the root span are left out.
-/

namespace Substreams.Pipeline

open Substreams.Block

/-- The error the stream ended with, as `errors.Is` tells it apart: one that is
`stream.ErrStopBlockReached`, one that is `io.EOF`, or another, by its text. -/
inductive StreamError
  | stopBlockReached
  | eof
  | other (message : String)
deriving DecidableEq, Repr

/-- The errors `OnStreamTerminated` returns. -/
inductive TerminatedError
  /-- `status.Errorf(codes.Internal, "handling store save boundaries: %s", err)` -/
  | internal (message : String)
  /-- the error the stream ended with, returned as it is -/
  | original (err : StreamError)
deriving DecidableEq, Repr

set_option linter.dupNamespace false in
/-- `pipeline.Pipeline`, with what `OnStreamTerminated` reads: the request's stop block and
the partial ranges written. -/
structure Pipeline where
  stopBlockNum : Nat
  partialsWritten : List BlockRange
deriving DecidableEq, Repr

/-- `metadata.MD`: each key with its values. -/
abbrev Metadata := List (String × List String)

/-- `fmt.Sprintf("%d-%d", rng.StartBlock, rng.ExclusiveEndBlock)`. -/
def rangeString (r : BlockRange) : String :=
  toString r.startBlock ++ "-" ++ toString r.exclusiveEndBlock

/-- `strings.Join(partialRanges, ",")`. -/
def partialsTrailer (ranges : List BlockRange) : String :=
  ",".intercalate (ranges.map rangeString)

/-- The trailer `OnStreamTerminated` sets. -/
def partialsMetadata (p : Pipeline) : Metadata :=
  [("substreams-partials-written", [partialsTrailer p.partialsWritten])]

/-- `OnStreamTerminated(streamSrv, err)`, with `flushStores` the pipeline's flush at a block:
the error returned, the trailer set if any, and the pipeline after. A `nil` error is
`none`. -/
def onStreamTerminated (flushStores : Nat → Pipeline → Option String × Pipeline) (p : Pipeline) :
    Option StreamError → Option TerminatedError × Option Metadata × Pipeline
  | some .stopBlockReached =>
      match flushStores p.stopBlockNum p with
      | (some e, p') => (some (.internal ("handling store save boundaries: " ++ e)), none, p')
      | (none, p') => (none, some (partialsMetadata p'), p')
  | some .eof => (none, some (partialsMetadata p), p)
  | err => (err.map .original, none, p)

/-- **How the stream ends.** A trailer is set exactly when the stream reached its stop block
and the flush succeeded, or ended on `EOF`, and then the call returns `nil` and the trailer
lists the partials of the pipeline after; only the stop block flushes, at the stop block; a
failed flush returns its error wrapped as internal; any other error, `nil` included, is
returned as it is and changes nothing. -/
theorem onStreamTerminated_spec (flushStores : Nat → Pipeline → Option String × Pipeline)
    (p : Pipeline) (err : Option StreamError) :
    let r := onStreamTerminated flushStores p err
    (r.2.1 = some (partialsMetadata r.2.2) ∧ r.1 = none ∧
        (err = some .eof ∧ r.2.2 = p ∨
          err = some .stopBlockReached ∧ flushStores p.stopBlockNum p = (none, r.2.2))) ∨
      r.2.1 = none ∧
        ((∃ e, err = some .stopBlockReached ∧ flushStores p.stopBlockNum p = (some e, r.2.2) ∧
            r.1 = some (.internal ("handling store save boundaries: " ++ e))) ∨
          err ≠ some .stopBlockReached ∧ err ≠ some .eof ∧ r.1 = err.map .original ∧
            r.2.2 = p) := by
  rcases err with _ | _ | _ | msg
  · exact .inr ⟨rfl, .inr ⟨by simp, by simp, rfl, rfl⟩⟩
  · dsimp only [onStreamTerminated]
    rcases h : flushStores p.stopBlockNum p with ⟨_ | e, p'⟩
    · exact .inl ⟨rfl, rfl, .inr ⟨rfl, rfl⟩⟩
    · exact .inr ⟨rfl, .inl ⟨e, rfl, rfl, rfl⟩⟩
  · exact .inl ⟨rfl, rfl, .inl ⟨rfl, rfl⟩⟩
  · exact .inr ⟨rfl, .inr ⟨by simp, by simp, rfl, rfl⟩⟩

/-! ## Decimal numbers read back -/

/-- One more decimal digit, on the right. -/
def decimalStep (n : Nat) (c : Char) : Nat := 10 * n + (c.toNat - '0'.toNat)

theorem digitChar_decimal : ∀ k, k < 10 →
    decimalStep 0 (Nat.digitChar k) = k ∧ (Nat.digitChar k).isDigit = true := by
  decide

theorem toDigitsCore_succ (fuel n : Nat) (acc : List Char) :
    Nat.toDigitsCore 10 (fuel + 1) n acc =
      if n / 10 = 0 then Nat.digitChar (n % 10) :: acc
      else Nat.toDigitsCore 10 fuel (n / 10) (Nat.digitChar (n % 10) :: acc) := rfl

/-- The digits `toDigitsCore` puts in front of `acc`, with enough fuel: read from the left,
they give `n` back, and they are decimal digits. -/
theorem toDigitsCore_decimal : ∀ (fuel n : Nat) (acc : List Char), n < fuel →
    (Nat.toDigitsCore 10 fuel n acc).foldl decimalStep 0 = acc.foldl decimalStep n ∧
      ∀ c ∈ Nat.toDigitsCore 10 fuel n acc, c ∈ acc ∨ c.isDigit = true
  | 0, _, _, h => absurd h (Nat.not_lt_zero _)
  | fuel + 1, n, acc, h => by
      obtain ⟨hval, hdig⟩ := digitChar_decimal (n % 10) (Nat.mod_lt _ (by decide))
      have hstep : decimalStep (n / 10) (Nat.digitChar (n % 10)) = n := by
        unfold decimalStep at hval ⊢
        omega
      have hcons : ∀ c ∈ Nat.digitChar (n % 10) :: acc, c ∈ acc ∨ c.isDigit = true :=
        fun c hc => (List.mem_cons.mp hc).elim (fun h => .inr (h ▸ hdig)) .inl
      rw [toDigitsCore_succ]
      split
      · exact ⟨by rw [List.foldl_cons, hval, Nat.mod_eq_of_lt (by omega)], hcons⟩
      · obtain ⟨ih, ihd⟩ := toDigitsCore_decimal fuel (n / 10) (Nat.digitChar (n % 10) :: acc)
          (by omega)
        exact ⟨by rw [ih, List.foldl_cons, hstep], fun c hc => (ihd c hc).elim (hcons c) .inr⟩

/-- `toString n` read back as a decimal number is `n`. -/
theorem toString_value (n : Nat) : (toString n).data.foldl decimalStep 0 = n :=
  (toDigitsCore_decimal (n + 1) n [] (Nat.lt_succ_self n)).1

theorem isDigit_of_mem_toString {n : Nat} {c : Char} (h : c ∈ (toString n).data) :
    c.isDigit = true :=
  ((toDigitsCore_decimal (n + 1) n [] (Nat.lt_succ_self n)).2 c h).resolve_left (List.not_mem_nil c)

theorem toString_injective : Function.Injective fun n : Nat => toString n := fun m n h => by
  rw [← toString_value m, ← toString_value n]
  exact congrArg (fun s : String => s.data.foldl decimalStep 0) h

/-! ## Splitting the trailer -/

theorem intercalate_cons {α : Type} (sep x : List α) (xs : List (List α)) :
    sep.intercalate (x :: xs) = x ++ xs.flatMap (sep ++ ·) := by
  induction xs generalizing x with
  | nil => exact List.flatten_singleton x |>.trans (List.append_nil x).symm
  | cons y ys ih =>
      show (x :: sep :: List.intersperse sep (y :: ys)).flatten = _
      rw [List.flatten_cons, List.flatten_cons, ← List.intercalate, ih, List.flatMap_cons,
        List.append_assoc]

theorem intercalate_data (s : String) (l : List String) :
    (s.intercalate l).data = s.data.intercalate (l.map String.data) := by
  have hgo : ∀ (acc : String) (l : List String),
      (String.intercalate.go acc s l).data = acc.data ++ l.flatMap (s.data ++ ·.data) := by
    intro acc l
    induction l generalizing acc with
    | nil => exact (List.append_nil _).symm
    | cons a as ih =>
        rw [String.intercalate.go, ih, List.flatMap_cons, String.data_append,
          String.data_append]
        simp only [List.append_assoc]
  cases l with
  | nil => rfl
  | cons a as =>
      rw [String.intercalate, hgo, List.map_cons, intercalate_cons, List.flatMap_map]

theorem rangeString_data (r : BlockRange) :
    (rangeString r).data =
      ['-'].intercalate [(toString r.startBlock).data, (toString r.exclusiveEndBlock).data] := by
  rw [intercalate_cons, List.flatMap_singleton, rangeString, String.data_append,
    String.data_append, List.append_assoc]

/-- A range's text holds `-` only between its two numbers, and no `,`. -/
theorem mem_rangeString {r : BlockRange} {c : Char} (h : c ∈ (rangeString r).data) :
    c = '-' ∨ c.isDigit = true := by
  rw [rangeString_data, intercalate_cons, List.flatMap_singleton] at h
  simp only [List.mem_append, List.mem_singleton] at h
  rcases h with h | h | h
  · exact .inr (isDigit_of_mem_toString h)
  · exact .inl h
  · exact .inr (isDigit_of_mem_toString h)

theorem rangeString_ne_nil (r : BlockRange) : (rangeString r).data ≠ [] := by
  rw [rangeString_data, intercalate_cons]
  simp

theorem rangeString_injective : Function.Injective rangeString := fun r r' h => by
  have hsplit : ∀ r : BlockRange, (rangeString r).data.splitOn '-' =
      [(toString r.startBlock).data, (toString r.exclusiveEndBlock).data] := fun r => by
    rw [rangeString_data]
    refine List.splitOn_intercalate _ '-' (fun l hl hm => ?_) (List.cons_ne_nil _ _)
    have hd : Char.isDigit '-' = true := by
      rcases List.mem_pair.mp hl with rfl | rfl <;> exact isDigit_of_mem_toString hm
    exact absurd hd (by decide)
  have h2 := hsplit r
  rw [h, hsplit r', List.cons.injEq, List.cons.injEq] at h2
  obtain ⟨hs, he, -⟩ := h2
  exact congrArg₂ BlockRange.mk (toString_injective (String.ext hs)).symm
    (toString_injective (String.ext he)).symm

/-- **The trailer loses nothing.** Two lists of partial ranges with the same
`substreams-partials-written` trailer are the same list, in the same order. -/
theorem partialsTrailer_injective : Function.Injective partialsTrailer := by
  have hsplit : ∀ rs : List BlockRange, rs ≠ [] →
      (partialsTrailer rs).data.splitOn ',' = rs.map fun r => (rangeString r).data := by
    intro rs hrs
    rw [partialsTrailer, intercalate_data, List.map_map]
    refine List.splitOn_intercalate _ ',' (fun l hl hm => ?_) (by simpa)
    obtain ⟨r, -, rfl⟩ := List.mem_map.mp hl
    rcases mem_rangeString hm with h | h <;> exact absurd h (by decide)
  have hne : ∀ rs : List BlockRange, rs ≠ [] → (partialsTrailer rs).data ≠ [] := by
    rintro (_ | ⟨r, rs⟩) h hd
    · exact h rfl
    · rw [partialsTrailer, intercalate_data, List.map_cons, List.map_cons, intercalate_cons] at hd
      exact rangeString_ne_nil r (List.append_eq_nil.mp hd).1
  intro rs rs' h
  by_cases hrs : rs = []
  · subst hrs
    by_contra h'
    exact hne rs' (Ne.symm h') (congrArg String.data h.symm)
  · have hrs' : rs' ≠ [] := by
      rintro rfl
      exact hne rs hrs (congrArg String.data h)
    have h2 := hsplit rs hrs
    rw [h, hsplit rs' hrs'] at h2
    exact (List.map_injective_iff.mpr fun r r' h => rangeString_injective (String.ext h)) h2.symm

end Substreams.Pipeline
