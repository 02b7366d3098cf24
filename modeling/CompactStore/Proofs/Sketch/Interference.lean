import CompactStore.Proofs.Sketch.Tallies

/-!
# What an increment does to the estimates

An increment adds to one counter in every row.  Every other item owns some of these counters,
or none, so each of its counters goes up by the increment or stays, `Tallied.counter_between`,
and so does the least of them, `Tallied.estimate_between`.  The item itself owns all of them,
and adding to all of them is adding to the least: `Tallied.estimate_increment`.
-/

namespace CompactStore.CountMinSketch

variable {s : CountMinSketch} {told : List (Bytes × Nat)}

/-- A sketch that was made with some dimensions, or sized by rates, and then incremented any
number of times. -/
inductive Reachable : CountMinSketch → Prop
  | created {rows columns : Nat} {s : CountMinSketch} (hcreate : create rows columns = .ok s) :
      Reachable s
  | sized {ln : Float → Float} {errorRate probability : Float} {s : CountMinSketch}
      (hcreate : createFor ln errorRate probability = .ok s) : Reachable s
  | incremented {s : CountMinSketch} (h : Reachable s) (item : Bytes) (delta : Nat) :
      Reachable (s.increment item delta).1

/-- A sketch that can be reached has counted something, be it nothing. -/
theorem Reachable.exists_tallied (h : s.Reachable) : ∃ told, s.Tallied told := by
  induction h with
  | created hcreate => exact ⟨[], tallied_create hcreate⟩
  | sized hcreate =>
      obtain ⟨rows, columns, hdimensions⟩ := exists_create_of_createFor hcreate
      exact ⟨[], tallied_create hdimensions⟩
  | incremented _ item delta ih =>
      obtain ⟨told, htold⟩ := ih
      exact ⟨told ++ [(item, delta)], htold.increment item delta⟩

/-! ### One counter -/

/-- A counter is not above the largest one. -/
theorem Tallied.counter_le (h : s.Tallied told) (item : Bytes) {row : Nat} (hrow : row < s.rows) :
    s.counter item row ≤ maxCount := by
  rw [h.counter_eq_tally item hrow]
  exact Nat.min_le_left _ _

/-- **A counter** never goes down, and never up by more than the increment. -/
theorem Tallied.counter_between (h : s.Tallied told) (item other : Bytes) (delta : Nat)
    {row : Nat} (hrow : row < s.rows) :
    s.counter other row ≤ (s.increment item delta).1.counter other row ∧
      (s.increment item delta).1.counter other row ≤ plus (s.counter other row) delta := by
  have hle := h.counter_le other hrow
  have hplus : s.counter other row ≤ plus (s.counter other row) delta := by
    rw [plus]
    omega
  rw [h.counter_increment item other delta hrow]
  by_cases hshared : s.column item row = s.column other row
  · rw [if_pos hshared]
    exact ⟨hplus, Nat.le_refl _⟩
  · rw [if_neg hshared]
    exact ⟨Nat.le_refl _, hplus⟩

/-! ### Estimates -/

/-- A larger counter stays the larger one when both are added to. -/
theorem plus_le_plus {low high : Nat} (h : low ≤ high) (delta : Nat) :
    plus low delta ≤ plus high delta := by
  rw [plus, plus]
  omega

/-- **An estimate** never goes down, and never up by more than the increment. -/
theorem Tallied.estimate_between (h : s.Tallied told) (item other : Bytes) (delta : Nat) :
    s.estimate other ≤ (s.increment item delta).1.estimate other ∧
      (s.increment item delta).1.estimate other ≤ plus (s.estimate other) delta := by
  obtain ⟨⟨rowBefore, hrowBefore, hbefore⟩, hleast⟩ := h.estimate_spec other
  obtain ⟨⟨rowAfter, hrowAfter, hafter⟩, hleastAfter⟩ :=
    (h.increment item delta).estimate_spec other
  constructor
  · -- the least counter afterwards was not larger before
    rw [hafter]
    exact Nat.le_trans (hleast rowAfter hrowAfter)
      (h.counter_between item other delta hrowAfter).1
  · -- the least counter before did not get larger than this
    rw [hbefore]
    exact Nat.le_trans (hleastAfter rowBefore hrowBefore)
      (h.counter_between item other delta hrowBefore).2

/-- **The item's own estimate** goes up by the increment, as far as it can count. -/
theorem Tallied.estimate_increment (h : s.Tallied told) (item : Bytes) (delta : Nat) :
    (s.increment item delta).1.estimate item = plus (s.estimate item) delta := by
  obtain ⟨⟨row, hrow, hafter⟩, -⟩ := (h.increment item delta).estimate_spec item
  apply Nat.le_antisymm (h.estimate_between item item delta).2
  rw [hafter, h.counter_increment_self item delta hrow]
  exact plus_le_plus ((h.estimate_spec item).2 row hrow) delta

/-- **Increments and estimates agree.**  The answer to an increment is the estimate of the item
right after it, and this is the estimate before plus the increment, cut off at the largest
number there is.  The estimate of any other item stays or goes up, by the increment at most. -/
theorem increment_agrees (h : s.Reachable) (item other : Bytes) (delta : Nat) :
    let t := (s.increment item delta).1
    (s.increment item delta).2 = t.estimate item ∧
      t.estimate item = min (word64 - 1) (s.estimate item + delta) ∧
      s.estimate other ≤ t.estimate other ∧
      t.estimate other ≤ min (word64 - 1) (s.estimate other + delta) := by
  obtain ⟨told, htold⟩ := h.exists_tallied
  obtain ⟨hlow, hhigh⟩ := htold.estimate_between item other delta
  exact ⟨htold.answer_increment item delta, htold.estimate_increment item delta, hlow, hhigh⟩

/-- The other item shares a counter in the first row and none in the second. -/
theorem increment_agrees_sharing :
    let s : CountMinSketch := ⟨2, 2, #[0, 5, 0, 5], 5⟩
    s.Reachable ∧ (s.increment [0x62] (word64 - 4)).2 = word64 - 1 ∧
      (s.increment [0x62] 2).1.estimate [0x64] ≤ 2 := by
  intro s
  have hreachable : s.Reachable := by
    have hcreate : create 2 2 = .ok ⟨2, 2, #[0, 0, 0, 0], 0⟩ := rfl
    have hmade : ((⟨2, 2, #[0, 0, 0, 0], 0⟩ : CountMinSketch).increment [0x62] 5).1 = s := by
      decide +kernel
    exact hmade ▸ (Reachable.created hcreate).incremented [0x62] 5
  have hbefore : s.estimate [0x62] = 5 ∧ s.estimate [0x64] = 0 := by decide +kernel
  obtain ⟨hanswer, hown, -, -⟩ := increment_agrees hreachable [0x62] [0x64] (word64 - 4)
  obtain ⟨-, -, -, hother⟩ := increment_agrees hreachable [0x62] [0x64] 2
  rw [hbefore.1] at hown
  rw [hbefore.2] at hother
  refine ⟨hreachable, ?_, ?_⟩
  · rw [hanswer, hown]
    decide
  · exact Nat.le_trans hother (by decide)

end CompactStore.CountMinSketch
