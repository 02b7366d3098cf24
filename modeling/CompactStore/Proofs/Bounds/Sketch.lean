import CompactStore.Proofs.Bounds.Checked
import CompactStore.Proofs.Sketch.Tallies

/-!
# Bounds of count-min sketches

Every access to the counters of a sketch, in a checked form.  An item's counter stands in its
column of a row, and both are inside of the grid.
-/

namespace CompactStore.CountMinSketch

open Checked

/-- The index of an item's counter in a row. -/
def checkedCell (s : CountMinSketch) (item : Bytes) (row : Nat) : Checked Nat := do
  return row * s.columns + (← mod (Hash.hash32 item (UInt32.ofNat row)).toNat s.columns)

/-- The estimate of what was added for an item. -/
def checkedEstimate (s : CountMinSketch) (item : Bytes) : Checked Nat := do
  let counts ← (List.range s.rows).mapM fun row => do get s.counters (← s.checkedCell item row)
  return counts.min?.getD 0

/-- Adds to one counter, and keeps the least of the counters that were added to. -/
def checkedBump (delta : Nat) (state : Array Nat × Nat) (i : Nat) : Checked (Array Nat × Nat) := do
  let (counters, least) := state
  let counters ← modify counters i (plus · delta)
  return (counters, min least (← get counters i))

/-- Adds to an item's counter in every row; the answer is the least of these counters
afterwards. -/
def checkedIncrement (s : CountMinSketch) (item : Bytes) (delta : Nat) :
    Checked (CountMinSketch × Nat) := do
  let cells ← (List.range s.rows).mapM (s.checkedCell item)
  let (counters, least) ← cells.foldlM (checkedBump delta) (s.counters, maxCount)
  return ({ s with counters, total := plus s.total delta }, least)

/-- Increments one after another, with the answer to each in front of `answers`. -/
def checkedIncrementEach (s : CountMinSketch) (answers : List Nat) :
    List (Bytes × Nat) → Checked (CountMinSketch × List Nat)
  | [] => .ok (s, answers.reverse)
  | (item, delta) :: rest => do
    let (s, estimate) ← s.checkedIncrement item delta
    checkedIncrementEach s (estimate :: answers) rest

variable {s : CountMinSketch} {told : List (Bytes × Nat)}

/-- A sketch that counted some increments. -/
def Standing (s : CountMinSketch) : Prop :=
  ∃ told, s.Tallied told

/-- A new sketch stands. -/
theorem standing_of_create {rows columns : Nat} (hcreate : create rows columns = .ok s) :
    s.Standing :=
  ⟨[], tallied_create hcreate⟩

/-- An increment leaves a sketch standing. -/
theorem Standing.increment (h : s.Standing) (item : Bytes) (delta : Nat) :
    (s.increment item delta).1.Standing := by
  obtain ⟨told, htold⟩ := h
  exact ⟨_, htold.increment item delta⟩

/-- Many increments leave a sketch standing, by induction on them. -/
theorem Standing.incrementAll (h : s.Standing) (pairs : List (Bytes × Nat)) :
    (s.incrementAll pairs).1.Standing := by
  obtain ⟨told, htold⟩ := h
  exact ⟨_, (htold.incrementAll pairs).1⟩

/-- The cell of an item is computed within the bounds, since there is a column. -/
theorem Standing.checkedCell_eq (h : s.Standing) (item : Bytes) (row : Nat) :
    s.checkedCell item row = .ok (s.cell item row) := by
  obtain ⟨told, htold⟩ := h
  rw [checkedCell, mod_eq htold.columns_pos]
  rfl

/-- The cell of an item is one of the counters. -/
theorem Standing.cell_lt (h : s.Standing) (item : Bytes) {row : Nat} (hrow : row < s.rows) :
    s.cell item row < s.counters.size := by
  obtain ⟨told, htold⟩ := h
  exact htold.cell_lt item hrow

/-- **An estimate** reads counters of the grid. -/
theorem Standing.checkedEstimate_eq (h : s.Standing) (item : Bytes) :
    s.checkedEstimate item = .ok (s.estimate item) := by
  have hcounts : ((List.range s.rows).mapM fun row => do
      get s.counters (← s.checkedCell item row)) = .ok (s.counts item) := by
    apply mapM_eq
    intro row hrow
    rw [h.checkedCell_eq, ok_bind, get_eq (h.cell_lt item (List.mem_range.mp hrow)) 0]
  rw [checkedEstimate, hcounts]
  rfl

/-- A counter of the sketch is changed within the bounds. -/
theorem checkedBump_eq {counters : Array Nat} {i : Nat} (h : i < counters.size)
    (delta least : Nat) :
    checkedBump delta (counters, least) i = .ok (bump delta (counters, least) i) := by
  have hafter : i < (counters.modify i (plus · delta)).size := by
    rwa [Array.size_modify]
  rw [checkedBump, modify_eq h, ok_bind, get_eq hafter 0]
  rfl

/-- **An increment** adds to counters of the grid. -/
theorem Standing.checkedIncrement_eq (h : s.Standing) (item : Bytes) (delta : Nat) :
    s.checkedIncrement item delta = .ok (s.increment item delta) := by
  have hcells : (List.range s.rows).mapM (s.checkedCell item) =
      .ok ((List.range s.rows).map (s.cell item)) :=
    mapM_eq fun row _ => h.checkedCell_eq item row
  have hfold : ((List.range s.rows).map (s.cell item)).foldlM (checkedBump delta)
      (s.counters, maxCount) =
      .ok (((List.range s.rows).map (s.cell item)).foldl (bump delta) (s.counters, maxCount)) := by
    apply foldlM_eq (P := fun state => state.1.size = s.counters.size) _ rfl
    rintro ⟨counters, least⟩ i hi hsize
    obtain ⟨row, hrow, rfl⟩ := List.mem_map.mp hi
    have hcell : s.cell item row < counters.size :=
      hsize ▸ h.cell_lt item (List.mem_range.mp hrow)
    exact ⟨checkedBump_eq hcell delta least, (Array.size_modify ..).trans hsize⟩
  rw [checkedIncrement, hcells, ok_bind, hfold, ok_bind]
  rfl

/-- **Increments one after another** stay within the bounds, by induction on them. -/
theorem Standing.checkedIncrementEach_eq (h : s.Standing) (answers : List Nat)
    (pairs : List (Bytes × Nat)) :
    s.checkedIncrementEach answers pairs = .ok (s.incrementEach answers pairs) := by
  induction pairs generalizing s answers with
  | nil => rfl
  | cons pair rest ih =>
      obtain ⟨item, delta⟩ := pair
      rw [checkedIncrementEach, incrementEach, h.checkedIncrement_eq, ok_bind]
      exact ih (h.increment item delta) _

end CompactStore.CountMinSketch
