import CompactStore.Decimal.Integer
import Mathlib.Algebra.Group.Nat.Defs

/-!
# Checked operations

An array has no element at an index past its end, a byte string no slice past its end, a
natural number nothing below zero to be lowered to, and a number of 64 bits nothing past its
range.  The operations of the store never ask for such a thing.  To say so, each of them has
a checked form, which looks before every access and ends with a `Violation` where there is
nothing to be had.  An operation is within its bounds when its checked form gives what the
operation itself gives.
-/

namespace CompactStore

/-- Why there is nothing to be had. -/
inductive Violation where
  | index
  | slice
  | subtraction
  | modulus
  | overflow
deriving DecidableEq, Repr

/-- The result of checked operations. -/
abbrev Checked (α : Type) := Except Violation α

namespace Checked

variable {α β σ : Type} {p : Prop} [Decidable p] {xs : Array α} {i m n : Nat}

/-- Goes on only if something holds. -/
def require (p : Prop) [Decidable p] (v : Violation) : Checked Unit :=
  if p then .ok () else .error v

/-- The element at an index. -/
def get (xs : Array α) (i : Nat) : Checked α :=
  match xs[i]? with
  | some x => .ok x
  | none => .error .index

/-- The array with the element at an index changed. -/
def modify (xs : Array α) (i : Nat) (f : α → α) : Checked (Array α) := do
  require (i < xs.size) .index
  return xs.modify i f

/-- The array with the element at an index changed by a checked operation. -/
def modifyM (xs : Array α) (i : Nat) (f : α → Checked α) : Checked (Array α) := do
  let x ← f (← get xs i)
  return xs.modify i fun _ => x

/-- One number less another. -/
def sub (m n : Nat) : Checked Nat := do
  require (n ≤ m) .subtraction
  return m - n

/-- A number modulo another. -/
def mod (m n : Nat) : Checked Nat := do
  require (n ≠ 0) .modulus
  return m % n

/-- One more, in 64 bits. -/
def succ64 (n : Nat) : Checked Nat := do
  require (n + 1 < word64) .overflow
  return n + 1

/-- A sum, in 64 bits. -/
def add64 (m n : Nat) : Checked Nat := do
  require (m + n < word64) .overflow
  return m + n

/-- An integer, in 64 bits. -/
def int64 (n : Int) : Checked Int := do
  require (Decimal.IsInt64 n) .overflow
  return n

/-- An integer as a natural number. -/
def natural (n : Int) : Checked Nat := do
  require (0 ≤ n) .overflow
  return n.toNat

@[simp] theorem ok_bind (a : α) (f : α → Checked β) : (Except.ok a >>= f) = f a := rfl

/-- What holds may be required. -/
theorem require_eq (h : p) (v : Violation) : require p v = .ok () :=
  if_pos h

/-- Looking up an index inside of an array meets no violation. -/
theorem get_eq (h : i < xs.size) (d : α) : get xs i = .ok (xs.getD i d) := by
  rw [get, Array.getD_eq_getD_getElem?, Array.getElem?_eq_getElem h]
  rfl

example : get #[true] 1 = .error .index := rfl

/-- Changing an index inside of an array meets no violation. -/
theorem modify_eq (h : i < xs.size) (f : α → α) : modify xs i f = .ok (xs.modify i f) := by
  rw [modify, require_eq h]
  rfl

/-- Changing an index by a checked change meets no violation if the change meets none. -/
theorem modifyM_eq (h : i < xs.size) {f : α → Checked α} {g : α → α}
    (hf : ∀ x, f x = .ok (g x)) : modifyM xs i f = .ok (xs.modify i g) := by
  rw [modifyM, get_eq h xs[i], ok_bind, hf, ok_bind, ← Array.getElem_eq_getD (h := h)]
  apply congrArg
  apply Array.ext
  · rw [Array.size_modify, Array.size_modify]
  · intro j _ _
    rw [Array.getElem_modify, Array.getElem_modify]
    split
    · rename_i heq
      subst heq
      rfl
    · rfl

/-- Taking a number from one that is not smaller meets no violation. -/
theorem sub_eq (h : n ≤ m) : sub m n = .ok (m - n) := by
  rw [sub, require_eq h]
  rfl

/-- A remainder by a positive number meets no violation. -/
theorem mod_eq (h : 0 < n) (m : Nat) : mod m n = .ok (m % n) := by
  rw [mod, require_eq (Nat.ne_of_gt h)]
  rfl

/-- Adding one to a word of 64 bits that is not full meets no violation. -/
theorem succ64_eq (h : n + 1 < word64) : succ64 n = .ok (n + 1) := by
  rw [succ64, require_eq h]
  rfl

/-- A sum that fits a word of 64 bits meets no violation. -/
theorem add64_eq (h : m + n < word64) : add64 m n = .ok (m + n) := by
  rw [add64, require_eq h]
  rfl

/-- An integer that fits a word of 64 bits meets no violation. -/
theorem int64_eq {n : Int} (h : Decimal.IsInt64 n) : int64 n = .ok n := by
  rw [int64, require_eq h]
  rfl

/-- An integer that is not negative is a number. -/
theorem natural_eq {n : Int} (h : 0 ≤ n) : natural n = .ok n.toNat := by
  rw [natural, require_eq h]
  rfl

/-! ### One after another -/

variable {items : List β}

/-- Checked steps on all items are plain steps if each of them is. -/
theorem mapM_eq {f : β → Checked α} {g : β → α} (h : ∀ x ∈ items, f x = .ok (g x)) :
    items.mapM f = .ok (items.map g) := by
  induction items with
  | nil => rfl
  | cons x rest ih =>
      rw [List.mapM_cons, h x List.mem_cons_self, ok_bind,
        ih fun y hy => h y (List.mem_cons_of_mem x hy)]
      rfl

/-- A checked test of all items is a plain test if each of them is. -/
theorem allM_eq {f : β → Checked Bool} {g : β → Bool} (h : ∀ x ∈ items, f x = .ok (g x)) :
    items.allM f = .ok (items.all g) := by
  induction items with
  | nil => rfl
  | cons x rest ih =>
      rw [List.allM, h x List.mem_cons_self, ok_bind,
        ih fun y hy => h y (List.mem_cons_of_mem x hy), List.all_cons]
      cases g x <;> rfl

/-- A checked search is a plain one if each test is. -/
theorem findM?_eq {f : β → Checked Bool} {g : β → Bool} (h : ∀ x ∈ items, f x = .ok (g x)) :
    items.findM? f = .ok (items.find? g) := by
  induction items with
  | nil => rfl
  | cons x rest ih =>
      rw [List.findM?, h x List.mem_cons_self, ok_bind,
        ih fun y hy => h y (List.mem_cons_of_mem x hy), List.find?_cons]
      cases g x <;> rfl

/-- Steps that are within their bounds as long as an invariant holds, which they keep. -/
theorem foldlM_eq {P : σ → Prop} {step : σ → β → σ} {checked : σ → β → Checked σ}
    (hstep : ∀ s, ∀ x ∈ items, P s → checked s x = .ok (step s x) ∧ P (step s x)) {s : σ}
    (h : P s) : items.foldlM checked s = .ok (items.foldl step s) := by
  induction items generalizing s with
  | nil => rfl
  | cons x rest ih =>
      obtain ⟨hone, hnext⟩ := hstep s x List.mem_cons_self h
      rw [List.foldlM_cons, hone, ok_bind, List.foldl_cons]
      exact ih (fun t y hy => hstep t y (List.mem_cons_of_mem x hy)) hnext

end Checked

end CompactStore
