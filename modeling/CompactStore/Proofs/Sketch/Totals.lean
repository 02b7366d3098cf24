import CompactStore.Proofs.Sketch.Tallies

/-!
# The state of a sketch is a table of sums

What a sketch has counted determines it: two sketches of the same dimensions that were told
the same increments, in whatever order, are the same, `Tallied.eq_of_perm`.  For a sketch that
starts empty this says what stands in every counter: `incrementAll_exact`.
-/

namespace CompactStore.CountMinSketch

variable {s t : CountMinSketch} {told others : List (Bytes × Nat)}

/-- A sum does not tell the order of its summands. -/
theorem tally_perm (kind : Bytes → Bool) (h : others.Perm told) :
    tally kind others = tally kind told := by
  apply List.Perm.sum_nat
  exact (h.filter _).map _

/-- **A counter** holds the sum for its row and column, as far as it can count. -/
theorem Tallied.getElem?_counters (h : s.Tallied told) {row column : Nat} (hrow : row < s.rows)
    (hcolumn : column < s.columns) :
    s.counters[row * s.columns + column]? =
      some (min maxCount (tally (fun item => s.column item row == column) told)) := by
  have hvalue := h.counter_eq row hrow column hcolumn
  have hindex := h.index_lt hrow hcolumn
  rw [Array.getD_eq_getD_getElem?, Array.getElem?_eq_getElem hindex, Option.getD_some] at hvalue
  rw [Array.getElem?_eq_getElem hindex, hvalue]

/-- Every counter stands in a row and a column. -/
theorem Tallied.exists_index_eq (h : s.Tallied told) {i : Nat} (hi : i < s.counters.size) :
    ∃ row < s.rows, ∃ column < s.columns, i = row * s.columns + column := by
  rw [h.size_eq] at hi
  refine ⟨i / s.columns, ?_, i % s.columns, Nat.mod_lt _ h.columns_pos, ?_⟩
  · exact Nat.div_lt_of_lt_mul (by rwa [Nat.mul_comm])
  · rw [Nat.mul_comm, Nat.div_add_mod]

/-- **What was counted determines a sketch** of given dimensions, and the order in which it
was counted does not matter. -/
theorem Tallied.eq_of_perm (hs : s.Tallied told) (ht : t.Tallied others) (hrows : t.rows = s.rows)
    (hcolumns : t.columns = s.columns) (hperm : others.Perm told) : t = s := by
  have hsize : t.counters.size = s.counters.size := by
    rw [ht.size_eq, hs.size_eq, hrows, hcolumns]
  have hcounters : t.counters = s.counters := by
    apply Array.ext_getElem?
    intro i
    by_cases hi : i < s.counters.size
    · obtain ⟨row, hrow, column, hcolumn, rfl⟩ := hs.exists_index_eq hi
      have hcell := ht.getElem?_counters (hrows ▸ hrow) (hcolumns ▸ hcolumn)
      have hkind : t.column = s.column := by
        funext item row
        rw [CountMinSketch.column, CountMinSketch.column, hcolumns]
      rw [hcolumns, hkind, tally_perm _ hperm] at hcell
      rw [hcell, hs.getElem?_counters hrow hcolumn]
    · rw [Array.getElem?_eq_none (by omega), Array.getElem?_eq_none (by omega)]
  have htotal : t.total = s.total := by
    rw [ht.total_eq, hs.total_eq, sumAll, sumAll, tally_perm _ hperm]
  cases s
  cases t
  simp only at hrows hcolumns hcounters htotal
  rw [hrows, hcolumns, hcounters, htotal]

/-- Counting does not change the dimensions. -/
theorem dimensions_incrementAll (s : CountMinSketch) (pairs : List (Bytes × Nat)) :
    (s.incrementAll pairs).1.rows = s.rows ∧ (s.incrementAll pairs).1.columns = s.columns := by
  induction pairs generalizing s with
  | nil => exact ⟨rfl, rfl⟩
  | cons pair rest ih =>
      obtain ⟨item, delta⟩ := pair
      rw [incrementAll_cons]
      exact ih (s.increment item delta).1

/-- **Counters are exact.**  After any increments of a new sketch, there is one counter for
each row and column, and it holds the sum of the increments of the items that own it, or the
largest number there is if the sum is larger.  The total is that of all increments, cut off the
same.  Hence the increments in any other order leave the same sketch, and an estimate lies
between the item's own sum, cut off, and the total. -/
theorem incrementAll_exact {rows columns : Nat} (hcreate : create rows columns = .ok s)
    (pairs : List (Bytes × Nat)) :
    let t := (s.incrementAll pairs).1
    t.counters.size = rows * columns ∧
    (∀ row < rows, ∀ column < columns, t.counters[row * columns + column]? =
      some (min (word64 - 1) (tally
        (fun item => (Hash.hash32 item (UInt32.ofNat row)).toNat % columns == column) pairs))) ∧
    t.total = min (word64 - 1) (sumAll pairs) ∧
    (∀ others : List (Bytes × Nat), others.Perm pairs → (s.incrementAll others).1 = t) ∧
    ∀ item, min (word64 - 1) (sumOf item pairs) ≤ t.estimate item ∧ t.estimate item ≤ t.total := by
  intro t
  have hstart := tallied_create hcreate
  obtain ⟨-, -, hmade⟩ := eq_of_create hcreate
  obtain ⟨hrows, hcolumns⟩ := dimensions_incrementAll s pairs
  have hs : s.rows = rows ∧ s.columns = columns := by
    rw [hmade]
    exact ⟨rfl, rfl⟩
  have htrows : t.rows = rows := hrows.trans hs.1
  have htcolumns : t.columns = columns := hcolumns.trans hs.2
  have ht : t.Tallied pairs := (hstart.incrementAll pairs).1
  refine ⟨?_, ?_, ht.total_eq, ?_, ?_⟩
  · rw [ht.size_eq, htrows, htcolumns]
  · intro row hrow column hcolumn
    have hcell := ht.getElem?_counters (htrows ▸ hrow) (htcolumns ▸ hcolumn)
    have hkind : t.column = fun item row =>
        (Hash.hash32 item (UInt32.ofNat row)).toNat % columns := by
      funext item row
      rw [CountMinSketch.column, htcolumns]
    rw [htcolumns, hkind] at hcell
    exact hcell
  · intro others hperm
    obtain ⟨horows, hocolumns⟩ := dimensions_incrementAll s others
    exact ht.eq_of_perm (hstart.incrementAll others).1 (horows.trans hrows.symm)
      (hocolumns.trans hcolumns.symm) hperm
  · intro item
    rw [ht.total_eq]
    exact ht.estimate item

/-- Two items share a counter in the first row, where their sum is too large, and none in the
second. -/
theorem incrementAll_exact_sharing :
    let s : CountMinSketch := ⟨2, 2, #[0, 0, 0, 0], 0⟩
    let pairs : List (Bytes × Nat) := [([0x62], 5), ([0x64], word64 - 3), ([0x62], 1)]
    let others : List (Bytes × Nat) := [([0x64], word64 - 3), ([0x62], 1), ([0x62], 5)]
    create 2 2 = .ok s ∧ others.Perm pairs ∧
      (s.incrementAll others).1 = (s.incrementAll pairs).1 ∧
      (s.incrementAll pairs).1.counters[0 * 2 + 1]? = some (word64 - 1) ∧
      (s.incrementAll pairs).1.counters[1 * 2 + 1]? = some 6 := by
  intro s pairs others
  have hcreate : create 2 2 = .ok s := rfl
  have hperm : others.Perm pairs := by decide +kernel
  obtain ⟨-, hcounters, -, horder, -⟩ := incrementAll_exact hcreate pairs
  refine ⟨hcreate, hperm, horder others hperm, ?_, ?_⟩
  · refine (hcounters 0 (by decide) 1 (by decide)).trans ?_
    decide +kernel
  · refine (hcounters 1 (by decide) 1 (by decide)).trans ?_
    decide +kernel

end CompactStore.CountMinSketch
