import CompactStore.CountMinSketch
import Mathlib.Algebra.GroupWithZero.Nat
import Mathlib.Data.List.Nodup

/-!
# What the counters of a sketch hold

A counter holds the sum of the increments of all items that own it, as far as it can
count: `Tallied` says this of every counter, for the increments `told` so far.  Items that
share a counter can only raise it, so an estimate is never below the item's own sum, and
never above the sum of all: `Tallied.estimate`.

An increment keeps the least counter on its way through the rows, and an estimate looks for
it afterwards; no row is met twice, so both find the same: `Tallied.answer_increment`.
-/

namespace CompactStore.CountMinSketch

/-- The sum of the increments of the items of a kind. -/
def tally (kind : Bytes → Bool) (told : List (Bytes × Nat)) : Nat :=
  ((told.filter fun entry => kind entry.1).map Prod.snd).sum

/-- The sum of the increments of one item. -/
def sumOf (item : Bytes) (told : List (Bytes × Nat)) : Nat :=
  tally (· == item) told

/-- The sum of all increments. -/
def sumAll (told : List (Bytes × Nat)) : Nat :=
  tally (fun _ => true) told

/-- The column of an item in a row. -/
def column (s : CountMinSketch) (item : Bytes) (row : Nat) : Nat :=
  (Hash.hash32 item (UInt32.ofNat row)).toNat % s.columns

/-- The counter of an item in a row. -/
def counter (s : CountMinSketch) (item : Bytes) (row : Nat) : Nat :=
  s.counters.getD (s.cell item row) 0

/-- A sketch after some increments: every counter holds the sum for its items, and the
total that of all. -/
structure Tallied (s : CountMinSketch) (told : List (Bytes × Nat)) : Prop where
  rows_pos : 0 < s.rows
  columns_pos : 0 < s.columns
  size_eq : s.counters.size = s.rows * s.columns
  counter_eq : ∀ row < s.rows, ∀ column < s.columns,
    s.counters.getD (row * s.columns + column) 0 =
      min maxCount (tally (fun item => s.column item row == column) told)
  total_eq : s.total = min maxCount (sumAll told)

variable {s : CountMinSketch} {told : List (Bytes × Nat)} {item : Bytes} {delta : Nat}

/-! ### Sums -/

/-- One more increment adds to the tally of its kind. -/
theorem tally_append (kind : Bytes → Bool) (told : List (Bytes × Nat)) (item : Bytes)
    (delta : Nat) :
    tally kind (told ++ [(item, delta)]) = tally kind told + if kind item then delta else 0 := by
  rw [tally, tally, List.filter_append, List.map_append, List.sum_append]
  by_cases hkind : kind item = true
  · simp [hkind]
  · simp [hkind]

/-- A wider kind has the larger sum. -/
theorem tally_le {kind wider : Bytes → Bool} (h : ∀ item, kind item = true → wider item = true)
    (told : List (Bytes × Nat)) : tally kind told ≤ tally wider told := by
  induction told with
  | nil => exact Nat.le_refl _
  | cons entry rest ih =>
      rw [tally, tally] at ih ⊢
      by_cases hkind : kind entry.1 = true
      · have hwider := h entry.1 hkind
        simpa [List.filter_cons, hkind, hwider] using ih
      · by_cases hwider : wider entry.1 = true
        · simp only [List.filter_cons, hkind, hwider, if_true, List.map_cons, List.sum_cons]
          simp only [Bool.false_eq_true, if_false]
          omega
        · simpa [List.filter_cons, hkind, hwider] using ih

/-! ### Cells -/

/-- The column of an item is one of the columns. -/
theorem column_lt (h : 0 < s.columns) (item : Bytes) (row : Nat) : s.column item row < s.columns :=
  Nat.mod_lt _ h

/-- Row and column are told by the index of a counter. -/
theorem index_inj {columns row row' column column' : Nat} (h : column < columns)
    (h' : column' < columns) :
    row * columns + column = row' * columns + column' ↔ row = row' ∧ column = column' := by
  have hrow : ∀ r c, c < columns → (r * columns + c) / columns = r := by
    intro r c hc
    rw [Nat.mul_comm, Nat.mul_add_div (by omega), Nat.div_eq_of_lt hc, Nat.add_zero]
  constructor
  · intro heq
    have hrows : row = row' := by
      rw [← hrow row column h, ← hrow row' column' h', heq]
    subst hrows
    exact ⟨rfl, Nat.add_left_cancel heq⟩
  · rintro ⟨rfl, rfl⟩
    rfl

/-- The counters of an item are one in each row. -/
theorem mem_cells_iff (h : 0 < s.columns) {row column : Nat} (hcolumn : column < s.columns)
    (item : Bytes) :
    row * s.columns + column ∈ (List.range s.rows).map (s.cell item) ↔
      row < s.rows ∧ s.column item row = column := by
  rw [List.mem_map]
  constructor
  · rintro ⟨r, hr, hcell⟩
    obtain ⟨rfl, hc⟩ := (index_inj (column_lt h item r) hcolumn).mp hcell
    exact ⟨List.mem_range.mp hr, hc⟩
  · rintro ⟨hr, hc⟩
    exact ⟨row, List.mem_range.mpr hr, (index_inj (column_lt h item row) hcolumn).mpr ⟨rfl, hc⟩⟩

/-- The cells of an item are in different rows. -/
theorem nodup_cells (h : 0 < s.columns) (item : Bytes) :
    ((List.range s.rows).map (s.cell item)).Nodup := by
  apply List.Nodup.map_on _ List.nodup_range
  intro r _ r' _ hcell
  exact ((index_inj (column_lt h item r) (column_lt h item r')).mp hcell).1

/-- Changing a counter changes this counter and no other. -/
theorem getD_modify (f : Nat → Nat) {counters : Array Nat} {i : Nat} (hi : i < counters.size)
    (cell : Nat) :
    (counters.modify cell f).getD i 0 =
      if cell = i then f (counters.getD i 0) else counters.getD i 0 := by
  simp only [Array.getD_eq_getD_getElem?, Array.getElem?_modify, Array.getElem?_eq_getElem hi]
  split <;> rfl

/-- Changing counters one after another changes each of them once. -/
theorem getD_foldl_modify {cells : List Nat} (hnodup : cells.Nodup) (f : Nat → Nat)
    (counters : Array Nat) {i : Nat} (hi : i < counters.size) :
    (cells.foldl (fun counters i => counters.modify i f) counters).getD i 0 =
      if i ∈ cells then f (counters.getD i 0) else counters.getD i 0 := by
  induction cells generalizing counters with
  | nil => simp
  | cons cell rest ih =>
      obtain ⟨hcell, hrest⟩ := List.nodup_cons.mp hnodup
      rw [List.foldl_cons, ih hrest _ (by rwa [Array.size_modify]), getD_modify f hi]
      by_cases heq : cell = i
      · subst heq
        rw [if_neg hcell, if_pos rfl, if_pos List.mem_cons_self]
      · rw [if_neg heq]
        by_cases hmem : i ∈ rest
        · rw [if_pos hmem, if_pos (List.mem_cons_of_mem _ hmem)]
        · rw [if_neg hmem, if_neg (by simp [Ne.symm heq, hmem])]

/-- Changing counters leaves as many as there were. -/
theorem size_foldl_modify (cells : List Nat) (f : Nat → Nat) (counters : Array Nat) :
    (cells.foldl (fun counters i => counters.modify i f) counters).size = counters.size := by
  induction cells generalizing counters with
  | nil => rfl
  | cons cell rest ih => rw [List.foldl_cons, ih, Array.size_modify]

/-- Keeping the least counter does not disturb the counters. -/
theorem foldl_bump_fst (cells : List Nat) (delta : Nat) (counters : Array Nat) (least : Nat) :
    (cells.foldl (bump delta) (counters, least)).1 =
      cells.foldl (fun counters i => counters.modify i (plus · delta)) counters := by
  induction cells generalizing counters least with
  | nil => rfl
  | cons cell rest ih => exact ih _ _

/-- What is kept is the least of the start and of all counters that were added to, each as it
is after that. -/
theorem foldl_bump_snd {cells : List Nat} (hnodup : cells.Nodup) (delta : Nat)
    {counters : Array Nat} (hinside : ∀ i ∈ cells, i < counters.size) (least : Nat) :
    (cells.foldl (bump delta) (counters, least)).2 =
      (cells.map fun i => plus (counters.getD i 0) delta).foldl min least := by
  induction cells generalizing counters least with
  | nil => rfl
  | cons cell rest ih =>
      obtain ⟨hcell, hrest⟩ := List.nodup_cons.mp hnodup
      have hlater : ∀ i ∈ rest, i < counters.size := fun i hi =>
        hinside i (List.mem_cons_of_mem _ hi)
      have hbump : bump delta (counters, least) cell = (counters.modify cell (plus · delta),
          min least (plus (counters.getD cell 0) delta)) := by
        rw [bump, getD_modify _ (hinside cell List.mem_cons_self), if_pos rfl]
      -- the cell is not met again, so the others are still as they were
      have hsame : (rest.map fun i =>
          plus ((counters.modify cell (plus · delta)).getD i 0) delta) =
          rest.map fun i => plus (counters.getD i 0) delta := by
        apply List.map_congr_left
        intro i hi
        have hne : cell ≠ i := by
          intro heq
          exact hcell (heq ▸ hi)
        rw [getD_modify _ (hlater i hi), if_neg hne]
      rw [List.foldl_cons, hbump,
        ih hrest (fun i hi => by rw [Array.size_modify]; exact hlater i hi),
        hsame, List.map_cons, List.foldl_cons]

/-! ### Increments -/

/-- **What `create` makes** is a sketch of these dimensions that counted nothing. -/
theorem eq_of_create {rows columns : Nat} (hcreate : create rows columns = .ok s) :
    0 < rows ∧ 0 < columns ∧
      s = { rows, columns, counters := Array.replicate (rows * columns) 0, total := 0 } := by
  unfold create at hcreate
  split at hcreate
  · cases hcreate
  rename_i hpositive
  split at hcreate
  · cases hcreate
  rw [not_or] at hpositive
  cases hcreate
  exact ⟨Nat.pos_of_ne_zero hpositive.1, Nat.pos_of_ne_zero hpositive.2, rfl⟩

/-- A sketch that is sized by rates has dimensions too. -/
theorem exists_create_of_createFor {ln : Float → Float} {errorRate probability : Float}
    (hcreate : createFor ln errorRate probability = .ok s) :
    ∃ rows columns, create rows columns = .ok s := by
  unfold createFor at hcreate
  dsimp only at hcreate
  split at hcreate
  · cases hcreate
  split at hcreate
  · cases hcreate
  exact ⟨_, _, hcreate⟩

/-- A new sketch has counted nothing. -/
theorem tallied_create {rows columns : Nat} (hcreate : create rows columns = .ok s) :
    Tallied s [] := by
  obtain ⟨hrows, hcolumns, rfl⟩ := eq_of_create hcreate
  constructor
  case rows_pos => exact hrows
  case columns_pos => exact hcolumns
  case size_eq => exact Array.size_replicate
  case counter_eq =>
    intro row _ column _
    rw [Array.getD_eq_getD_getElem?, Array.getElem?_replicate]
    split <;> rfl
  case total_eq => rfl

/-- A sum that was cut off already is cut off the same after one more summand. -/
theorem plus_min (sum delta : Nat) :
    plus (min maxCount sum) delta = min maxCount (sum + delta) := by
  rw [plus]
  omega

/-- Every row and column has its counter. -/
theorem Tallied.index_lt (h : s.Tallied told) {row column : Nat} (hrow : row < s.rows)
    (hcolumn : column < s.columns) : row * s.columns + column < s.counters.size := by
  have hrows : (row + 1) * s.columns ≤ s.rows * s.columns := Nat.mul_le_mul_right _ hrow
  rw [Nat.add_mul, ← h.size_eq] at hrows
  omega

/-- **A counter** of an item is one of the grid. -/
theorem Tallied.cell_lt (h : s.Tallied told) (item : Bytes) {row : Nat} (hrow : row < s.rows) :
    s.cell item row < s.counters.size :=
  h.index_lt hrow (column_lt h.columns_pos item row)

/-- **An increment** adds to each cell of its item. -/
theorem counters_increment (s : CountMinSketch) (item : Bytes) (delta : Nat) :
    (s.increment item delta).1.counters = ((List.range s.rows).map (s.cell item)).foldl
      (fun counters i => counters.modify i (plus · delta)) s.counters :=
  foldl_bump_fst _ delta s.counters maxCount

/-- What an increment answers is the least of the counters that it has changed. -/
theorem increment_snd (s : CountMinSketch) (item : Bytes) (delta : Nat) :
    (s.increment item delta).2 =
      (((List.range s.rows).map (s.cell item)).foldl (bump delta) (s.counters, maxCount)).2 := rfl

/-- **One counter** after an increment: it was added to if it is the item's in its row. -/
theorem Tallied.getD_increment (h : s.Tallied told) (item : Bytes) (delta : Nat)
    {row column : Nat} (hrow : row < s.rows) (hcolumn : column < s.columns) :
    (s.increment item delta).1.counters.getD (row * s.columns + column) 0 =
      if s.column item row = column then plus (s.counters.getD (row * s.columns + column) 0) delta
      else s.counters.getD (row * s.columns + column) 0 := by
  have hcells : row * s.columns + column ∈ (List.range s.rows).map (s.cell item) ↔
      row < s.rows ∧ s.column item row = column := mem_cells_iff h.columns_pos hcolumn item
  rw [counters_increment,
    getD_foldl_modify (nodup_cells h.columns_pos item) _ _ (h.index_lt hrow hcolumn)]
  by_cases hown : s.column item row = column
  · rw [if_pos hown, if_pos (hcells.mpr ⟨hrow, hown⟩)]
  · rw [if_neg hown, if_neg fun hmem => hown (hcells.mp hmem).2]

/-- **An increment** is counted at the counters of its item and nowhere else. -/
theorem Tallied.increment (h : s.Tallied told) (item : Bytes) (delta : Nat) :
    (s.increment item delta).1.Tallied (told ++ [(item, delta)]) where
  rows_pos := h.rows_pos
  columns_pos := h.columns_pos
  size_eq := by
    rw [counters_increment, size_foldl_modify]
    exact h.size_eq
  counter_eq := by
    intro row hrow column hcolumn
    refine (h.getD_increment item delta hrow hcolumn).trans ?_
    rw [h.counter_eq row hrow column hcolumn, plus_min, tally_append]
    by_cases hitem : s.column item row = column
    · have hkind : ((s.increment item delta).1.column item row == column) = true := by
        rw [beq_iff_eq]
        exact hitem
      rw [if_pos hitem, hkind, if_pos rfl]
      rfl
    · have hkind : ((s.increment item delta).1.column item row == column) = false := by
        rw [beq_eq_false_iff_ne]
        exact hitem
      rw [if_neg hitem, hkind]
      rfl
  total_eq := by
    have htotal : (s.increment item delta).1.total = plus s.total delta := rfl
    rw [htotal, h.total_eq, plus_min, sumAll, sumAll, tally_append, if_pos rfl]

/-! ### Estimates -/

/-- There is a row, so there is a least counter. -/
theorem Tallied.exists_min?_counts (h : s.Tallied told) (item : Bytes) :
    ∃ least, (s.counts item).min? = some least := by
  cases hmin : (s.counts item).min? with
  | some least => exact ⟨least, rfl⟩
  | none =>
      have hlength := congrArg List.length (List.min?_eq_none_iff.mp hmin)
      rw [counts, List.length_map, List.length_range] at hlength
      exact absurd hlength (Nat.ne_of_gt h.rows_pos)

/-- An estimate is the least of the item's counters. -/
theorem Tallied.estimate_spec (h : s.Tallied told) (item : Bytes) :
    (∃ row < s.rows, s.estimate item = s.counter item row) ∧
      ∀ row < s.rows, s.estimate item ≤ s.counter item row := by
  obtain ⟨least, hleast⟩ := h.exists_min?_counts item
  have hestimate : s.estimate item = least := by
    rw [CountMinSketch.estimate, hleast, Option.getD_some]
  obtain ⟨hmem, hle⟩ := List.min?_eq_some_iff.mp hleast
  rw [hestimate]
  constructor
  · obtain ⟨row, hrow, hcounter⟩ := List.mem_map.mp hmem
    exact ⟨row, List.mem_range.mp hrow, hcounter.symm⟩
  · intro row hrow
    exact hle _ (List.mem_map_of_mem (List.mem_range.mpr hrow))

/-- The counter of an item holds the sum for all items that share it. -/
theorem Tallied.counter_eq_tally (h : s.Tallied told) (item : Bytes) {row : Nat}
    (hrow : row < s.rows) : s.counter item row =
      min maxCount (tally (fun other => s.column other row == s.column item row) told) :=
  h.counter_eq row hrow (s.column item row) (column_lt h.columns_pos item row)

/-- **An estimate** is at least the item's own sum and at most the sum of all, as far as
counters count. -/
theorem Tallied.estimate (h : s.Tallied told) (item : Bytes) :
    min maxCount (sumOf item told) ≤ s.estimate item ∧
      s.estimate item ≤ min maxCount (sumAll told) := by
  -- the estimate is one of the counters, and each of them has these bounds
  obtain ⟨row, hrow, hestimate⟩ := (h.estimate_spec item).1
  have hlow : sumOf item told ≤
      tally (fun other => s.column other row == s.column item row) told := by
    apply tally_le
    intro other hother
    rw [beq_iff_eq] at hother ⊢
    rw [hother]
  have hhigh : tally (fun other => s.column other row == s.column item row) told ≤ sumAll told :=
    tally_le (fun _ _ => rfl) told
  rw [hestimate, h.counter_eq_tally item hrow]
  omega

/-- **The counter of an item** after an increment of the same or of another item. -/
theorem Tallied.counter_increment (h : s.Tallied told) (item other : Bytes) (delta : Nat)
    {row : Nat} (hrow : row < s.rows) :
    (s.increment item delta).1.counter other row =
      if s.column item row = s.column other row then plus (s.counter other row) delta
      else s.counter other row := by
  have hbefore : s.cell other row = row * s.columns + s.column other row := rfl
  have hafter : (s.increment item delta).1.cell other row =
      row * s.columns + s.column other row := rfl
  rw [counter, counter, hbefore, hafter,
    h.getD_increment item delta hrow (column_lt h.columns_pos other row)]

/-- The item's own counters are all added to. -/
theorem Tallied.counter_increment_self (h : s.Tallied told) (item : Bytes) (delta : Nat)
    {row : Nat} (hrow : row < s.rows) :
    (s.increment item delta).1.counter item row = plus (s.counter item row) delta :=
  (h.counter_increment item item delta hrow).trans (if_pos rfl)

/-- **The answer to an increment** is the estimate of the item right after it. -/
theorem Tallied.answer_increment (h : s.Tallied told) (item : Bytes) (delta : Nat) :
    (s.increment item delta).2 = (s.increment item delta).1.estimate item := by
  have hinside : ∀ i ∈ (List.range s.rows).map (s.cell item), i < s.counters.size := by
    intro i hi
    obtain ⟨row, hrow, rfl⟩ := List.mem_map.mp hi
    exact h.cell_lt item (List.mem_range.mp hrow)
  have hcounts : (s.increment item delta).1.counts item =
      (List.range s.rows).map fun row => plus (s.counter item row) delta := by
    apply List.map_congr_left
    intro row hrow
    exact h.counter_increment_self item delta (List.mem_range.mp hrow)
  have hanswer : (s.increment item delta).2 =
      ((s.increment item delta).1.counts item).foldl min maxCount := by
    rw [hcounts, increment_snd, foldl_bump_snd (nodup_cells h.columns_pos item) delta hinside,
      List.map_map]
    rfl
  obtain ⟨least, hleast⟩ := (h.increment item delta).exists_min?_counts item
  -- the way starts with the largest number there is, which is never the least
  have hlargest := ((h.increment item delta).estimate item).2
  rw [CountMinSketch.estimate, hleast, Option.getD_some] at hlargest ⊢
  rw [hanswer, List.foldl_min, hleast, Option.getD_some]
  omega

/-! ### Many increments -/

/-- The answers come in order. -/
theorem incrementEach_eq (s : CountMinSketch) (answers : List Nat) (pairs : List (Bytes × Nat)) :
    s.incrementEach answers pairs =
      ((s.incrementAll pairs).1, answers.reverse ++ (s.incrementAll pairs).2) := by
  induction pairs generalizing s answers with
  | nil => simp [incrementAll, incrementEach]
  | cons pair rest ih =>
      obtain ⟨item, delta⟩ := pair
      rw [incrementAll, incrementEach, incrementEach]
      dsimp only
      rw [ih, ih (s.increment item delta).1 [(s.increment item delta).2]]
      simp

/-- Many increments are one after another. -/
theorem incrementAll_cons (s : CountMinSketch) (item : Bytes) (delta : Nat)
    (rest : List (Bytes × Nat)) :
    s.incrementAll ((item, delta) :: rest) =
      (((s.increment item delta).1.incrementAll rest).1,
        (s.increment item delta).2 :: ((s.increment item delta).1.incrementAll rest).2) := by
  rw [incrementAll, incrementEach]
  dsimp only
  rw [incrementEach_eq]
  rfl

/-- **Increments one after another** are all counted, and the answer to each is the
estimate when it was counted and the later ones were not. -/
theorem Tallied.incrementAll (h : s.Tallied told) (pairs : List (Bytes × Nat)) :
    (s.incrementAll pairs).1.Tallied (told ++ pairs) ∧
      (s.incrementAll pairs).2.length = pairs.length ∧
      ∀ (i : Nat) item delta answer, pairs[i]? = some (item, delta) →
        (s.incrementAll pairs).2[i]? = some answer →
        ∃ t : CountMinSketch, t.Tallied (told ++ pairs.take (i + 1)) ∧
          answer = t.estimate item := by
  induction pairs generalizing s told with
  | nil => exact ⟨by rw [List.append_nil]; exact h, rfl, by simp⟩
  | cons pair rest ih =>
      obtain ⟨first, delta⟩ := pair
      have hfirst := h.increment first delta
      obtain ⟨hrest, hlength, hanswers⟩ := ih hfirst
      rw [incrementAll_cons]
      refine ⟨?_, congrArg Nat.succ hlength, ?_⟩
      · rwa [List.append_assoc] at hrest
      · intro i item d answer hpair hanswer
        cases i with
        | zero =>
            cases hpair
            cases hanswer
            exact ⟨_, hfirst, h.answer_increment first delta⟩
        | succ i =>
            obtain ⟨t, ht, heq⟩ := hanswers i item d answer hpair hanswer
            rw [List.append_assoc] at ht
            exact ⟨t, ht, heq⟩

end CompactStore.CountMinSketch
