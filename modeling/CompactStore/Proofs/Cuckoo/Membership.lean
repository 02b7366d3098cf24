import CompactStore.Proofs.Cuckoo.Conservation
import Mathlib.Data.List.Perm.Subperm

/-!
# Items that were stored more often than taken out

Taking out one item of a class may clear the slot that another item of this class
filled.  It does no harm as long as no item is taken out more often than it was
stored: the class then holds at least what is owed to each of its items, so an item
that was stored more often is found and can be taken out.
-/

namespace CompactStore.CuckooFilter

variable {f g : CuckooFilter} {changes others : List Change} {item : Bytes}

/-- No item was taken out more often than it was stored. -/
def Covered (changes : List Change) : Prop :=
  ∀ item, changes.count (.taken item) ≤ changes.count (.stored item)

/-- An item was stored more often than it was taken out. -/
def Owed (changes : List Change) (item : Bytes) : Prop :=
  changes.count (.taken item) < changes.count (.stored item)

instance (changes : List Change) : DecidablePred (Owed changes) := fun _ =>
  inferInstanceAs (Decidable (_ < _))

/-- Before any operation every item is covered. -/
theorem covered_nil : Covered [] := fun _ => Nat.le_refl _

/-- Storing an item leaves every item covered, and so does taking out an owed one. -/
theorem Covered.append {change : Option Change} (h : Covered changes)
    (howed : ∀ item, change = some (.taken item) → Owed changes item) :
    Covered (changes ++ change.toList) := by
  intro item
  rw [List.count_append, List.count_append]
  have hold := h item
  cases change with
  | none => simpa using hold
  | some change =>
      cases change with
      | stored other => simp [List.count_singleton]; omega
      | taken other =>
          by_cases hother : other = item
          · subst hother
            have hlt := howed other rfl
            unfold Owed at hlt
            simp
            omega
          · simpa [List.count_singleton, hother] using hold

/-! ### Classes of several items -/

/-- The items that were stored, and those that were taken out. -/
def storedItems (changes : List Change) : List Bytes :=
  changes.filterMap fun
    | .stored item => some item
    | .taken _ => none

def takenItems (changes : List Change) : List Bytes :=
  changes.filterMap fun
    | .stored _ => none
    | .taken item => some item

/-- An item is among the stored ones as often as it was stored. -/
theorem count_storedItems (changes : List Change) (item : Bytes) :
    (storedItems changes).count item = changes.count (.stored item) := by
  induction changes with
  | nil => rfl
  | cons change changes ih => cases change <;> simp [storedItems, List.count_cons, ← ih]

/-- An item is among those taken out as often as it was taken out. -/
theorem count_takenItems (changes : List Change) (item : Bytes) :
    (takenItems changes).count item = changes.count (.taken item) := by
  induction changes with
  | nil => rfl
  | cons change changes ih => cases change <;> simp [takenItems, List.count_cons, ← ih]

/-- The stored items of a kind are as many as the storings of this kind. -/
theorem countP_storedItems (p : Bytes → Bool) (changes : List Change) :
    (storedItems changes).countP p = changes.countP fun
      | .stored item => p item
      | .taken _ => false := by
  rw [storedItems, List.countP_filterMap]
  apply List.countP_congr
  intro change _
  cases change <;> simp

/-- The items of a kind that were taken out are as many as the takings of this kind. -/
theorem countP_takenItems (p : Bytes → Bool) (changes : List Change) :
    (takenItems changes).countP p = changes.countP fun
      | .stored _ => false
      | .taken item => p item := by
  rw [takenItems, List.countP_filterMap]
  apply List.countP_congr
  intro change _
  cases change <;> simp

/-- **A class holds what it owes.**  Each item that was taken out is matched by one that
was stored, and the owed item is left over. -/
theorem Covered.countP_lt (h : Covered changes) (howed : Owed changes item)
    {p : Bytes → Bool} (hp : p item = true) :
    (takenItems changes).countP p < (storedItems changes).countP p := by
  have hsub : (item :: takenItems changes).Subperm (storedItems changes) := by
    rw [List.subperm_ext_iff]
    intro other _
    rw [List.count_cons, count_takenItems, count_storedItems]
    split
    · rename_i heq
      obtain rfl := beq_iff_eq.mp heq
      exact howed
    · exact h other
  have hle := hsub.countP_le p
  rwa [List.countP_cons_of_pos hp] at hle

/-- The class of an owed item was stored more often than it was taken out. -/
theorem Covered.takenIn_lt_storedIn (h : Covered changes) (howed : Owed changes item)
    {index : Nat} {fp : UInt32} (howns : f.Owns index fp item) :
    f.takenIn index fp changes < f.storedIn index fp changes := by
  have hlt := h.countP_lt howed (p := fun other => f.Owns index fp other) (decide_eq_true howns)
  rwa [countP_takenItems, countP_storedItems] at hlt

/-! ### Balanced accounts -/

/-- The accounts do not depend on the order in which things were done. -/
theorem Balanced.perm (h : Balanced f (g, changes)) (hperm : changes.Perm others) :
    Balanced f (g, others) := by
  refine ⟨h.shape, ?_⟩
  intro i hi fq hfq
  have hcensus := h.census_eq i hi fq hfq
  dsimp only at hcensus ⊢
  rwa [takenIn, storedIn, hperm.countP_eq, hperm.countP_eq] at hcensus

/-- A filter without fingerprints has balanced accounts. -/
theorem balanced_of_empty (hempty : ∀ index slot, f.cell index slot = 0) :
    Balanced f (f, []) := by
  refine ⟨⟨rfl, rfl⟩, ?_⟩
  intro i _ fq hfq
  rw [takenIn_nil, storedIn_nil, census_eq_zero hempty i hfq]

/-- The accounts go on with what an operation did. -/
theorem Balanced.append {result : CuckooFilter × Option Change}
    (h : Balanced f (g, changes)) (haccounts : Accounts g result) :
    Balanced f (result.1, changes ++ result.2.toList) := by
  obtain ⟨r, change⟩ := result
  have hnote := balanced_note h haccounts
  exact hnote.perm List.perm_append_comm

/-- **An owed item is found, and can be taken out.** -/
theorem Balanced.found (h : Balanced f (g, changes)) (hshaped : f.Shaped)
    (hcovered : Covered changes) (howed : Owed changes item) :
    g.contains item = true ∧ (g.remove item).2 = true := by
  have hshape : SameShape f g := h.shape
  have hc := candidates_spec hshaped item
  have hcg := candidates_spec (hshape.shaped hshaped) item
  have hcensus := h.census_eq (f.candidates item).first hc.first_lt (f.candidates item).fp hc.fp_ne
  have howns : f.Owns (f.candidates item).first (f.candidates item).fp item :=
    (owns_iff hshaped hc.first_lt item).mpr ⟨Finset.mem_insert_self _ _, rfl⟩
  have hless := hcovered.takenIn_lt_storedIn howed howns
  have hlocate : (g.locate? (g.candidates item) (g.candidates item).fp).isSome = true := by
    rw [← census_pos_iff hcg, hshape.candidates]
    dsimp only at hcensus
    omega
  exact ⟨hlocate, (takeOut_iff g _).mpr hlocate⟩

end CompactStore.CuckooFilter
