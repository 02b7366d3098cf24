import CompactStore.Error
import CompactStore.Hash

/-!
# Count-min sketches

A sketch counts items in a grid of counters.  In row `r` an item owns the
counter at its hash under the seed `r`, modulo the number of columns; an
increment adds to the item's counter in every row, and the estimate is the least
of these counters, so it never falls short of what was added.

Counters and the running total stop at the largest 64-bit number instead of
wrapping around.
-/

namespace CompactStore

/-- A grid of counters, row by row, and the sum of all increments. -/
structure CountMinSketch where
  rows : Nat
  columns : Nat
  counters : Array Nat
  total : Nat
deriving DecidableEq, Repr

namespace CountMinSketch

/-- The largest number of counters of a sketch. -/
def maxCounters : Nat := 2 ^ (26 : Nat)

/-- The largest value of a counter. -/
def maxCount : Nat := word64 - 1

/-- The sum, but no more than the largest value of a counter. -/
def plus (count delta : Nat) : Nat :=
  min maxCount (count + delta)

/-- An empty sketch of these dimensions. -/
def create (rows columns : Nat) : Except SizeError CountMinSketch :=
  if rows = 0 ∨ columns = 0 then .error .noDimension
  else if maxCounters < rows * columns then .error .dimensionsTooLarge
  else .ok { rows, columns, counters := Array.replicate (rows * columns) 0, total := 0 }

/-- An empty sketch sized by a bound on the error and the probability of
exceeding it. -/
def createFor (ln : Float → Float) (errorRate probability : Float) :
    Except SizeError CountMinSketch :=
  if ¬ IsRate errorRate then .error .rate
  else if ¬ IsRate probability then .error .probability
  else
    let rows := ceilWithin maxCount (euler / errorRate)
    let columns := ceilWithin maxCount (ln (1.0 / probability))
    create (max 1 rows) (max 1 columns)

/-- The index of an item's counter in a row. -/
def cell (s : CountMinSketch) (item : Bytes) (row : Nat) : Nat :=
  row * s.columns + (Hash.hash32 item (UInt32.ofNat row)).toNat % s.columns

/-- The counters of an item, one in each row. -/
def counts (s : CountMinSketch) (item : Bytes) : List Nat :=
  (List.range s.rows).map fun row => s.counters.getD (s.cell item row) 0

/-- The estimate of what was added for an item: the least of its counters. -/
def estimate (s : CountMinSketch) (item : Bytes) : Nat :=
  (s.counts item).min?.getD 0

/-- Adds to one counter, and keeps the least of the counters that were added to. -/
def bump (delta : Nat) (state : Array Nat × Nat) (i : Nat) : Array Nat × Nat :=
  let (counters, least) := state
  let counters := counters.modify i (plus · delta)
  (counters, min least (counters.getD i 0))

/-- Adds to an item's counter in every row; the answer is the least of these counters
afterwards, found on the way. -/
def increment (s : CountMinSketch) (item : Bytes) (delta : Nat) : CountMinSketch × Nat :=
  let cells := (List.range s.rows).map (s.cell item)
  let { rows, columns, counters, total } := s
  let (counters, least) := cells.foldl (bump delta) (counters, maxCount)
  ({ rows, columns, counters, total := plus total delta }, least)

/-- Increments one after another, with the answer to each in front of `answers`. -/
def incrementEach (s : CountMinSketch) (answers : List Nat) :
    List (Bytes × Nat) → CountMinSketch × List Nat
  | [] => (s, answers.reverse)
  | (item, delta) :: rest =>
    let (s, estimate) := s.increment item delta
    incrementEach s (estimate :: answers) rest

/-- Increments one after another, with the answer to each. -/
def incrementAll (s : CountMinSketch) (pairs : List (Bytes × Nat)) :
    CountMinSketch × List Nat :=
  s.incrementEach [] pairs

end CountMinSketch

end CompactStore
