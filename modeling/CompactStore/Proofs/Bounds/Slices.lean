import CompactStore.Proofs.Bounds.Quicklist
import CompactStore.Proofs.Quicklist.Oversized

/-!
# Indices and ranges of 64 bits

An index may be as small or as large as 64 bits allow, and a negative one is added to the
length, which is an integer of 64 bits itself.  `index64` and `range64` look at every result
on the way.  What is added has another sign than the length, and what is subtracted lies
between zero and the length, so no result is ever too large: `index64_eq` and `range64_eq`.

What is read follows the rules of a slice for every pair of indices, and the walk that skips
whole nodes agrees with the one over all entries: `run_slices`.
-/

namespace CompactStore.Quicklist

open Checked Listpack Deque Decimal

/-- Where an index points. -/
def offset64 (len i : Int) : Checked Int :=
  if i < 0 then int64 (len + i) else .ok i

/-- Where a range starts. -/
def start64 (len start : Int) : Checked Int :=
  if start < 0 then do return max (← int64 (len + start)) 0 else .ok start

/-- Where a range stops. -/
def stop64 (len stop : Int) : Checked Int :=
  if stop < 0 then int64 (len + stop) else do return min stop (← int64 (len - 1))

/-- The value at an index, in integers of 64 bits. -/
def index64 (q : Quicklist) (i : Int) : Checked (Option Bytes) := do
  let len ← int64 q.len
  let offset ← offset64 len i
  if offset < 0 ∨ len ≤ offset then return none
  checkedValueIn (← q.checkedPacks) (← natural offset)

/-- The values from one index to another, both included, in integers of 64 bits. -/
def range64 (q : Quicklist) (start stop : Int) : Checked (List Bytes) := do
  let len ← int64 q.len
  let start ← start64 len start
  let stop ← stop64 len stop
  if stop < start ∨ len ≤ start then return []
  let skipped ← natural start
  let size ← natural (← int64 ((← int64 (stop - start)) + 1))
  let entries := (← (← q.checkedPacks).mapM checkedEntries).flatten
  return ((entries.drop skipped).take size).map Entry.text

variable {q : Quicklist} {len start stop i : Int}

/-! ### No result is too large -/

/-- A negative index can be added to a length. -/
theorem isInt64_add (hlen : IsInt64 len) (hnonneg : 0 ≤ len) (hi : IsInt64 i) (hneg : i < 0) :
    IsInt64 (len + i) := by
  unfold IsInt64 signBit at hlen hi ⊢
  omega

/-- An index counted from the back is computed without overflow. -/
theorem offset64_eq (hlen : IsInt64 len) (hnonneg : 0 ≤ len) (hi : IsInt64 i) :
    offset64 len i = .ok (if i < 0 then len + i else i) := by
  unfold offset64
  split
  · rename_i hneg
    exact int64_eq (isInt64_add hlen hnonneg hi hneg)
  · rfl

/-- The start of a range is computed without overflow. -/
theorem start64_eq (hlen : IsInt64 len) (hnonneg : 0 ≤ len) (hstart : IsInt64 start) :
    start64 len start = .ok (if start < 0 then max (len + start) 0 else start) := by
  unfold start64
  split
  · rename_i hneg
    rw [int64_eq (isInt64_add hlen hnonneg hstart hneg)]
    rfl
  · rfl

/-- The stop of a range is computed without overflow. -/
theorem stop64_eq (hlen : IsInt64 len) (hnonneg : 0 ≤ len) (hstop : IsInt64 stop) :
    stop64 len stop = .ok (if stop < 0 then len + stop else min stop (len - 1)) := by
  unfold stop64
  split
  · rename_i hneg
    exact int64_eq (isInt64_add hlen hnonneg hstop hneg)
  · have hlast : IsInt64 (len - 1) := by
      unfold IsInt64 signBit at hlen ⊢
      omega
    rw [int64_eq hlast]
    rfl

theorem isInt64_len (hlen : q.len < signBit) : IsInt64 q.len := by
  unfold IsInt64
  omega

/-- **An index** is computed without overflow. -/
theorem index64_eq (hlen : q.len < signBit) (hi : IsInt64 i) : q.index64 i = q.checkedIndex i := by
  have hlen := isInt64_len hlen
  unfold index64 checkedIndex
  rw [int64_eq hlen, ok_bind, offset64_eq hlen (Int.natCast_nonneg _) hi, ok_bind]
  generalize (if i < 0 then (q.len : Int) + i else i) = offset
  dsimp only
  split
  · rfl
  · rename_i hin
    rw [natural_eq (by omega)]
    rfl

/-- **A range** is computed without overflow. -/
theorem range64_eq (hlen : q.len < signBit) (hstart : IsInt64 start) (hstop : IsInt64 stop) :
    q.range64 start stop = q.checkedRange start stop := by
  have hlen := isInt64_len hlen
  have hnonneg := Int.natCast_nonneg q.len
  have hlow : 0 ≤ if start < 0 then max ((q.len : Int) + start) 0 else start := by
    split <;> omega
  have hhigh : (if stop < 0 then (q.len : Int) + stop else min stop (q.len - 1)) < q.len := by
    split <;> omega
  unfold range64 checkedRange
  rw [int64_eq hlen, ok_bind, start64_eq hlen hnonneg hstart, ok_bind,
    stop64_eq hlen hnonneg hstop, ok_bind]
  dsimp only
  generalize (if start < 0 then max ((q.len : Int) + start) 0 else start) = low at *
  generalize (if stop < 0 then (q.len : Int) + stop else min stop (q.len - 1)) = high at *
  split
  · rfl
  · rename_i hin
    have hdifference : IsInt64 (high - low) := by
      unfold IsInt64 signBit at hlen ⊢
      omega
    have hsize : IsInt64 (high - low + 1) := by
      unfold IsInt64 signBit at hlen ⊢
      omega
    rw [natural_eq hlow, ok_bind, int64_eq hdifference, ok_bind, int64_eq hsize, ok_bind,
      natural_eq (by omega), ok_bind]

/-! ### Runs -/

/-- **Indices and ranges read a sequence.**  Whatever was pushed and popped, as long as the
length is an integer of 64 bits, every range of such integers is the part between its two
bounds, cut off at both ends, every index is the value there, and a range of one index agrees
with the index.  On the way no addition or subtraction overflows, and nothing is looked up
where there is nothing. -/
theorem run_slices {nodeMax : Nat} {ops : List Operation}
    (hmade : (run apply (empty nodeMax) ops).1 = q) (hlen : q.values.length < signBit)
    (hstart : IsInt64 start) (hstop : IsInt64 stop) (hi : IsInt64 i) :
    (q.range start stop).length =
        (lastPosition q.values stop + 1 - firstPosition q.values start).toNat ∧
      (∀ k < (q.range start stop).length,
        (q.range start stop)[k]? = q.values[(firstPosition q.values start).toNat + k]?) ∧
      q.index? i = at? q.values i ∧
      q.range i i = (q.index? i).toList ∧
      q.range64 start stop = .ok (q.range start stop) ∧
      q.index64 i = .ok (q.index? i) := by
  have hchained : q.Chained := hmade ▸ chained_run nodeMax ops
  obtain ⟨parts, hparts⟩ := hchained
  have hcount : q.len < signBit := by
    rwa [hparts.length_entries, ← List.length_map Entry.text]
  refine ⟨?_, ?_, hparts.index?_eq i, ?_, ?_, ?_⟩
  · rw [hparts.range_eq, length_slice]
  · intro k hk
    rw [hparts.range_eq] at hk ⊢
    exact getElem?_slice hk
  · rw [hparts.range_eq, hparts.index?_eq, slice_self]
  · rw [range64_eq hcount hstart hstop, Chained.checkedRange_eq ⟨parts, hparts⟩]
  · rw [index64_eq hcount hi, Chained.checkedIndex_eq ⟨parts, hparts⟩]

/-- The least and the largest index of 64 bits, on two values in two nodes. -/
theorem run_slices_extremes :
    (run apply (empty 1) [.push .back [[0x61], [0x62]]]).1.values.length < signBit ∧
      IsInt64 (-signBit) ∧ IsInt64 (signBit - 1) ∧
      (run apply (empty 1) [.push .back [[0x61], [0x62]]]).1.range64 (-signBit) (signBit - 1) =
        .ok [[0x61], [0x62]] := by
  have hlen : (run apply (empty 1) [.push .back [[0x61], [0x62]]]).1.values.length < signBit := by
    decide +kernel
  have hleast : IsInt64 (-signBit) := by decide
  have hlargest : IsInt64 (signBit - 1) := by decide
  obtain ⟨-, -, -, -, hrange, -⟩ := run_slices rfl hlen hleast hlargest hleast
  refine ⟨hlen, hleast, hlargest, hrange.trans ?_⟩
  decide +kernel

end CompactStore.Quicklist
