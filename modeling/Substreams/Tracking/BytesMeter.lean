import Substreams.Block.Range
import Mathlib.Data.BitVec
import Mathlib.Algebra.BigOperators.Group.List
import Mathlib.Algebra.Order.Ring.Nat

set_option autoImplicit false

/-! # The bytes meter

`tracking.bytesMeter` counts the bytes a request writes and reads, in two `uint64` totals, and
`Send` reports them as a progress message. `AddBytesWritten(n)` panics on a negative `n`;
`AddBytesRead(n)` has no such check, and adds `uint64(n)` whatever the sign of `n`.

Over any interleaving of the two (`BytesMeter.run`), the meter panics exactly when some
write is negative, and otherwise each total is its start plus the amounts added, modulo
`2^64` (`run_totals`). So the written total only grows while it stays below `2^64`, but a
read of `n < 0` takes `|n|` off the read total, wrapping around below `0`
(`addBytesRead_negative`). The mutex lets concurrent calls through in some order, and every
order of the same calls ends the same way (`run_perm`).

`Start` sends the totals every five seconds while the calls go on. Each report is the meter
after the calls made before its `Send`, and while no total wraps around, no report is below
an earlier one (`runEvents_reports`).

The mutex itself, the logger, `Start`'s timer and the goroutine `Launch` starts are left out; a Go `int` is an
`Int` and `uint64(n)` is `BitVec.ofInt 64 n`.
-/

namespace Substreams.Tracking

open Substreams.Block

/-- `tracking.bytesMeter`: the two totals. -/
structure BytesMeter where
  bytesWritten : BitVec 64
  bytesRead : BitVec 64
deriving DecidableEq, Repr

/-- `NewBytesMeter(ctx)`: both totals `0`. -/
def newBytesMeter : BytesMeter := ⟨0, 0⟩

namespace BytesMeter

/-- `AddBytesWritten(n)`: `panic("negative value")` on a negative `n`, otherwise the written
total grows by `uint64(n)`. -/
def addBytesWritten (b : BytesMeter) (n : Int) : Except Panic BytesMeter :=
  if n < 0 then .error (.message "negative value")
  else .ok { b with bytesWritten := b.bytesWritten + BitVec.ofInt 64 n }

/-- `AddBytesRead(n)`: the read total grows by `uint64(n)`; the sign of `n` is not checked. -/
def addBytesRead (b : BytesMeter) (n : Int) : BytesMeter :=
  { b with bytesRead := b.bytesRead + BitVec.ofInt 64 n }

/-- The processed-bytes progress `Send` hands to the response function: one module progress
with an empty name and the two totals. -/
structure ProcessedBytes where
  name : String
  totalBytesWritten : BitVec 64
  totalBytesRead : BitVec 64
deriving DecidableEq, Repr

/-- The module progress `Send` builds from the totals. -/
def progress (b : BytesMeter) : ProcessedBytes := ⟨"", b.bytesWritten, b.bytesRead⟩

/-- `Send(respFunc)`: the message, and the response function's error if it fails. -/
def send (b : BytesMeter) (respFunc : List ProcessedBytes → Option String) : Option String :=
  respFunc [b.progress]

/-- A call on the meter. -/
inductive Op
  | addBytesWritten (n : Int)
  | addBytesRead (n : Int)
deriving DecidableEq, Repr

/-- One call. -/
def step (b : BytesMeter) : Op → Except Panic BytesMeter
  | .addBytesWritten n => b.addBytesWritten n
  | .addBytesRead n => .ok (b.addBytesRead n)

/-- The calls in order, stopping at the first panic. -/
def run (b : BytesMeter) : List Op → Except Panic BytesMeter
  | [] => .ok b
  | op :: ops => do
      let b' ← b.step op
      b'.run ops

/-- The amounts of the writes among the calls. -/
def writes : List Op → List Int
  | [] => []
  | .addBytesWritten n :: ops => n :: writes ops
  | .addBytesRead _ :: ops => writes ops

/-- The amounts of the reads among the calls. -/
def reads : List Op → List Int
  | [] => []
  | .addBytesWritten _ :: ops => reads ops
  | .addBytesRead n :: ops => n :: reads ops

/-- **Every run of calls.** The meter panics exactly when some write is negative; otherwise
each total is its start plus the `uint64` of each amount added to it. -/
theorem run_eq (b : BytesMeter) (ops : List Op) :
    b.run ops = if ∃ n ∈ writes ops, n < 0 then .error (.message "negative value")
      else .ok ⟨b.bytesWritten + ((writes ops).map (BitVec.ofInt 64)).sum,
        b.bytesRead + ((reads ops).map (BitVec.ofInt 64)).sum⟩ := by
  induction ops generalizing b with
  | nil => simp [run, writes, reads]
  | cons op ops ih =>
      cases op with
      | addBytesWritten n =>
          dsimp only [run, step, addBytesWritten]
          by_cases hn : n < 0
          · rw [if_pos hn, if_pos ⟨n, .head _, hn⟩, error_bind]
          · rw [if_neg hn, ok_bind, ih]
            simp only [writes, reads, List.mem_cons, exists_eq_or_imp, hn, false_or, List.map_cons,
              List.sum_cons, add_assoc]
      | addBytesRead n =>
          dsimp only [run, step, addBytesRead]
          rw [ok_bind, ih]
          simp only [writes, reads, List.map_cons, List.sum_cons, add_assoc]

/-- The totals of a run as numbers: every write was of a non-negative amount, and each total
is its start plus the amounts added to it, each taken modulo `2^64` as `uint64(n)` takes it,
all modulo `2^64`. -/
theorem run_totals {b b' : BytesMeter} {ops : List Op} (h : b.run ops = .ok b') :
    (∀ n ∈ writes ops, 0 ≤ n) ∧
      b'.bytesWritten.toNat =
        (b.bytesWritten.toNat +
          ((writes ops).map fun n : Int => (n % ((2 ^ 64 : Nat) : Int)).toNat).sum) % 2 ^ 64 ∧
      b'.bytesRead.toNat =
        (b.bytesRead.toNat +
          ((reads ops).map fun n : Int => (n % ((2 ^ 64 : Nat) : Int)).toNat).sum) % 2 ^ 64 := by
  rw [run_eq] at h
  split at h
  · cases h
  rename_i hneg
  cases h
  have hsum : ∀ l : List Int, ((l.map (BitVec.ofInt 64)).sum).toNat =
      (l.map fun n : Int => (n % ((2 ^ 64 : Nat) : Int)).toNat).sum % 2 ^ 64 := by
    intro l
    induction l with
    | nil => rfl
    | cons n l ih =>
        rw [List.map_cons, List.sum_cons, BitVec.toNat_add, ih, BitVec.toNat_ofInt, List.map_cons,
          List.sum_cons, Nat.add_mod_mod]
  exact ⟨fun n hn => not_lt.mp fun h => hneg ⟨n, hn, h⟩,
    by rw [BitVec.toNat_add, hsum, Nat.add_mod_mod], by rw [BitVec.toNat_add, hsum, Nat.add_mod_mod]⟩

/-- A write of `5` and a read of `7` on a new meter. -/
theorem run_totals_write_read :
    newBytesMeter.run [.addBytesWritten 5, .addBytesRead 7] = .ok ⟨5, 7⟩ ∧
      ((∀ n ∈ writes [.addBytesWritten 5, .addBytesRead 7], 0 ≤ n) ∧
        (⟨5, 7⟩ : BytesMeter).bytesWritten.toNat =
          (newBytesMeter.bytesWritten.toNat + ((writes [.addBytesWritten 5, .addBytesRead 7]).map
            fun n : Int => (n % ((2 ^ 64 : Nat) : Int)).toNat).sum) % 2 ^ 64 ∧
        (⟨5, 7⟩ : BytesMeter).bytesRead.toNat =
          (newBytesMeter.bytesRead.toNat + ((reads [.addBytesWritten 5, .addBytesRead 7]).map
            fun n : Int => (n % ((2 ^ 64 : Nat) : Int)).toNat).sum) % 2 ^ 64) :=
  ⟨by decide, run_totals (by decide)⟩

/-- The written amount of a call, if it is a write. -/
def Op.written : Op → Option Int
  | .addBytesWritten n => some n
  | .addBytesRead _ => none

/-- The read amount of a call, if it is a read. -/
def Op.read : Op → Option Int
  | .addBytesWritten _ => none
  | .addBytesRead n => some n

theorem writes_eq_filterMap (ops : List Op) : writes ops = ops.filterMap Op.written := by
  induction ops with
  | nil => rfl
  | cons op ops ih => cases op <;> simp [writes, Op.written, ih]

theorem reads_eq_filterMap (ops : List Op) : reads ops = ops.filterMap Op.read := by
  induction ops with
  | nil => rfl
  | cons op ops ih => cases op <;> simp [reads, Op.read, ih]

/-- **The order of the calls does not matter.** The mutex lets concurrent calls through one
at a time, in an order the scheduler picks; every order of the same calls ends the same way,
with the same panic or the same totals. -/
theorem run_perm (b : BytesMeter) {ops ops' : List Op} (h : ops.Perm ops') :
    b.run ops = b.run ops' := by
  have hw : (writes ops).Perm (writes ops') := by
    rw [writes_eq_filterMap, writes_eq_filterMap]; exact h.filterMap _
  have hr : (reads ops).Perm (reads ops') := by
    rw [reads_eq_filterMap, reads_eq_filterMap]; exact h.filterMap _
  simp only [run_eq, hw.mem_iff, (hw.map _).sum_eq, (hr.map _).sum_eq]

/-- A write and a read of `1`, in both orders. -/
theorem run_perm_write_read :
    ([.addBytesWritten 1, .addBytesRead 1] : List Op).Perm [.addBytesRead 1, .addBytesWritten 1] ∧
      newBytesMeter.run [.addBytesWritten 1, .addBytesRead 1] =
        newBytesMeter.run [.addBytesRead 1, .addBytesWritten 1] :=
  ⟨by decide, run_perm newBytesMeter (by decide)⟩

/-- **A negative read lowers the read total**, where a negative write panics: `AddBytesRead(n)`
with `n < 0` takes `|n|` off the read total, modulo `2^64`, so from below `|n|` it wraps
around. -/
theorem addBytesRead_negative (b : BytesMeter) {n : Int} (hn : n < 0) :
    b.addBytesWritten n = .error (.message "negative value") ∧
      (b.addBytesRead n).bytesRead = b.bytesRead - BitVec.ofNat 64 n.natAbs := by
  refine ⟨if_pos hn, BitVec.eq_of_toNat_eq ?_⟩
  have hr := b.bytesRead.isLt
  simp only [addBytesRead, BitVec.toNat_add, BitVec.toNat_ofInt, BitVec.toNat_sub,
    BitVec.toNat_ofNat]
  omega

/-- A read of `-5` on a new meter wraps its read total to `2^64 - 5`. -/
example : (newBytesMeter.addBytesRead (-5)).bytesRead = BitVec.ofNat 64 (2 ^ 64 - 5) := by decide

/-! ## The reports `Start` sends

`Start` calls `Send` every five seconds while the request's code adds to the totals, so what
the meter goes through is an interleaving of calls and sends. `Send` only reads the totals,
and `Start` only logs its error. -/

/-- A call of the request's code on the meter, or a `Send` from `Start`'s timer loop. -/
inductive Event
  | call (op : Op)
  | send
deriving DecidableEq, Repr

/-- The events in order, stopping at the first panic: the meter at the end, and the progress
each `Send` hands to the response function, in the order sent. -/
def runEvents (b : BytesMeter) : List Event → Except Panic (BytesMeter × List ProcessedBytes)
  | [] => .ok (b, [])
  | .call op :: evs => do
      let b' ← b.step op
      b'.runEvents evs
  | .send :: evs => (b.runEvents evs).map fun r => (r.1, b.progress :: r.2)

/-- The calls among the events. -/
def calls : List Event → List Op
  | [] => []
  | .call op :: evs => op :: calls evs
  | .send :: evs => calls evs

/-- For each `Send` among the events, the calls made before it. -/
def sendPoints : List Event → List (List Op)
  | [] => []
  | .call op :: evs => (sendPoints evs).map (op :: ·)
  | .send :: evs => [] :: sendPoints evs

/-- The sends leave the meter as the calls alone do, and each report is the progress of the
meter after the calls made before its `Send`. -/
theorem runEvents_sent : ∀ {evs : List Event} {b b' : BytesMeter} {sent : List ProcessedBytes},
    b.runEvents evs = .ok (b', sent) →
      b.run (calls evs) = .ok b' ∧
        List.Forall₂ (fun p pre => (b.run pre).map progress = .ok p) sent (sendPoints evs)
  | [], _, _, _, h => by cases h; exact ⟨rfl, .nil⟩
  | .call op :: evs, b, _, _, h => by
      obtain ⟨b₁, hstep, h⟩ := bind_eq_ok.mp h
      obtain ⟨hrun, hsent⟩ := runEvents_sent h
      refine ⟨by rw [calls, run, hstep, ok_bind, hrun], ?_⟩
      rw [sendPoints, List.forall₂_map_right_iff]
      exact hsent.imp fun p pre hp => by rw [run, hstep, ok_bind, hp]
  | .send :: evs, b, _, _, h => by
      rw [runEvents] at h
      rcases hr : b.runEvents evs with _ | ⟨b₂, sent₂⟩ <;> rw [hr] at h <;> cases h
      obtain ⟨hrun, hsent⟩ := runEvents_sent hr
      exact ⟨hrun, .cons rfl hsent⟩

/-- One report's totals are at most another's. -/
def ProcessedBytes.le (p q : ProcessedBytes) : Prop :=
  p.totalBytesWritten.toNat ≤ q.totalBytesWritten.toNat ∧
    p.totalBytesRead.toNat ≤ q.totalBytesRead.toNat

instance : DecidableRel ProcessedBytes.le := fun _ _ => inferInstanceAs (Decidable (_ ∧ _))

theorem ProcessedBytes.le_refl (p : ProcessedBytes) : p.le p := ⟨le_rfl, le_rfl⟩

theorem ProcessedBytes.le_trans {p q r : ProcessedBytes} (hpq : p.le q) (hqr : q.le r) : p.le r :=
  ⟨hpq.1.trans hqr.1, hpq.2.trans hqr.2⟩

/-- The sum of the `uint64` of each amount, as a number. -/
def uintSum (l : List Int) : Nat := (l.map fun n => (BitVec.ofInt 64 n).toNat).sum

@[simp] theorem uintSum_nil : uintSum [] = 0 := rfl

@[simp] theorem uintSum_cons (n : Int) (l : List Int) :
    uintSum (n :: l) = (BitVec.ofInt 64 n).toNat + uintSum l := rfl

/-- A `uint64` addition that does not wrap adds the numbers. -/
theorem toNat_add_of_lt {x y : BitVec 64} (h : x.toNat + y.toNat < 2 ^ 64) :
    (x + y).toNat = x.toNat + y.toNat := by
  rw [BitVec.toNat_add, Nat.mod_eq_of_lt h]

/-- One call, before calls `l`, when no total wraps around over them all: the totals do not
decrease, and the calls `l` do not make them wrap either. -/
theorem step_progress {b b₁ : BytesMeter} {op : Op} (l : List Op) (h : b.step op = .ok b₁)
    (hw : b.bytesWritten.toNat + uintSum (writes (op :: l)) < 2 ^ 64)
    (hr : b.bytesRead.toNat + uintSum (reads (op :: l)) < 2 ^ 64) :
    b.progress.le b₁.progress ∧ b₁.bytesWritten.toNat + uintSum (writes l) < 2 ^ 64 ∧
      b₁.bytesRead.toNat + uintSum (reads l) < 2 ^ 64 := by
  cases op with
  | addBytesWritten n =>
      simp only [step, addBytesWritten] at h
      split at h
      · cases h
      cases h
      simp only [writes, reads, uintSum_cons] at hw hr
      have hadd := @toNat_add_of_lt b.bytesWritten (BitVec.ofInt 64 n) (by omega)
      exact ⟨⟨by simp only [progress, hadd]; omega, le_rfl⟩, by simp only [hadd]; omega, hr⟩
  | addBytesRead n =>
      cases h
      simp only [writes, reads, uintSum_cons] at hw hr
      have hadd := @toNat_add_of_lt b.bytesRead (BitVec.ofInt 64 n) (by omega)
      exact ⟨⟨le_rfl, by simp only [progress, addBytesRead, hadd]; omega⟩, hw,
        by simp only [addBytesRead, hadd]; omega⟩

/-- While no total wraps around, the reports never go down: the starting totals, each report
in the order sent, and the final totals, are each at most every later one. -/
theorem runEvents_monotone : ∀ {evs : List Event} {b b' : BytesMeter} {sent : List ProcessedBytes},
    b.runEvents evs = .ok (b', sent) →
    b.bytesWritten.toNat + uintSum (writes (calls evs)) < 2 ^ 64 →
    b.bytesRead.toNat + uintSum (reads (calls evs)) < 2 ^ 64 →
      (b.progress :: (sent ++ [b'.progress])).Pairwise ProcessedBytes.le
  | [], _, _, _, h, _, _ => by
      cases h
      exact List.pairwise_pair.mpr (ProcessedBytes.le_refl _)
  | .call op :: evs, b, _, _, h, hw, hr => by
      obtain ⟨b₁, hstep, h⟩ := bind_eq_ok.mp h
      obtain ⟨hle, hw₁, hr₁⟩ := step_progress (calls evs) hstep hw hr
      have ih := runEvents_monotone h hw₁ hr₁
      rw [List.pairwise_cons] at ih ⊢
      exact ⟨fun q hq => ProcessedBytes.le_trans hle (ih.1 q hq), ih.2⟩
  | .send :: evs, b, _, _, h, hw, hr => by
      rw [runEvents] at h
      rcases hr' : b.runEvents evs with _ | ⟨b₂, sent₂⟩ <;> rw [hr'] at h <;> cases h
      have ih := runEvents_monotone hr' hw hr
      refine List.pairwise_cons.mpr ⟨fun q hq => ?_, ih⟩
      rcases List.mem_cons.mp hq with rfl | hq
      · exact ProcessedBytes.le_refl _
      · exact (List.pairwise_cons.mp ih).1 q hq

/-- **What a client of the meter sees.** Over any interleaving of the request's calls and the
`Send`s of `Start`'s loop that does not panic, the sends leave the totals as the calls alone
leave them, and each report is the progress of the meter after the calls made before its
`Send`. While neither total wraps around `2^64`, no report is below an earlier one, below the
starting totals or above the final ones. -/
theorem runEvents_reports {evs : List Event} {b b' : BytesMeter} {sent : List ProcessedBytes}
    (h : b.runEvents evs = .ok (b', sent)) :
    b.run (calls evs) = .ok b' ∧
      List.Forall₂ (fun p pre => (b.run pre).map progress = .ok p) sent (sendPoints evs) ∧
      (b.bytesWritten.toNat + uintSum (writes (calls evs)) < 2 ^ 64 →
        b.bytesRead.toNat + uintSum (reads (calls evs)) < 2 ^ 64 →
        (b.progress :: (sent ++ [b'.progress])).Pairwise ProcessedBytes.le) :=
  ⟨(runEvents_sent h).1, (runEvents_sent h).2, runEvents_monotone h⟩

/-- A write of `5`, a send, a read of `7` and a send, on a new meter. -/
theorem runEvents_reports_write_read :
    newBytesMeter.runEvents [.call (.addBytesWritten 5), .send, .call (.addBytesRead 7), .send] =
        .ok (⟨5, 7⟩, [⟨"", 5, 0⟩, ⟨"", 5, 7⟩]) ∧
      newBytesMeter.run [.addBytesWritten 5, .addBytesRead 7] = .ok ⟨5, 7⟩ ∧
      List.Forall₂ (fun p pre => (newBytesMeter.run pre).map progress = .ok p)
        [⟨"", 5, 0⟩, ⟨"", 5, 7⟩] [[.addBytesWritten 5], [.addBytesWritten 5, .addBytesRead 7]] ∧
      [newBytesMeter.progress, ⟨"", 5, 0⟩, ⟨"", 5, 7⟩, (⟨5, 7⟩ : BytesMeter).progress].Pairwise
        ProcessedBytes.le := by
  have h : newBytesMeter.runEvents
      [.call (.addBytesWritten 5), .send, .call (.addBytesRead 7), .send] =
        .ok (⟨5, 7⟩, [⟨"", 5, 0⟩, ⟨"", 5, 7⟩]) := by decide
  exact ⟨h, (runEvents_reports h).1, (runEvents_reports h).2.1,
    (runEvents_reports h).2.2 (by decide) (by decide)⟩

end BytesMeter

end Substreams.Tracking
