import CompactStore.Proofs.Quicklist.Contents
import CompactStore.Proofs.Store.Families

/-!
# Lists under keys

The reference for the list commands: a key holds a sequence that is not empty, or
is absent.  `ListCommand.step` says what a command makes of the sequence under its
key and what it replies, without a word about nodes or bytes.

`Represents` ties what a key holds to a sequence.  The invariant of a store,
`ListsSound`, is that every list in it stores some sequence which is not empty.
-/

namespace CompactStore

open Quicklist

/-- A list command without its key. -/
inductive ListCommand where
  | push (e : End) (block : List Bytes)
  | pop (e : End)
  | popMany (e : End) (count : Nat)
  | length
  | range (start stop : Int)
  | index (i : Int)

namespace ListCommand

/-- The command on this key. -/
def under (key : Bytes) : ListCommand → Command
  | push e block => .push e key block
  | pop e => .pop e key none
  | popMany e count => .pop e key (some count)
  | length => .length key
  | range start stop => .range key start stop
  | index i => .index key i

/-- A sequence under a key: none if it is empty. -/
def kept (values : List Bytes) : Option (List Bytes) :=
  if values = [] then none else some values

/-- **The reference.**  What becomes of the sequence under a key, and the reply. -/
def step (held : Option (List Bytes)) : ListCommand → Option (List Bytes) × Reply
  | push e block =>
    let values := e.attach block (held.getD [])
    (kept values, .ofCount values.length)
  | pop e =>
    match held with
    | none => (none, .nil)
    | some values => (kept (e.orient (e.orient values).tail), .ofBytes? (e.orient values).head?)
  | popMany e count =>
    match held with
    | none => (none, .nil)
    | some values =>
      (kept (e.orient ((e.orient values).drop count)), .ofValues ((e.orient values).take count))
  | length => (held, .ofCount (held.getD []).length)
  | range start stop => (held, .ofValues (Deque.slice (held.getD []) start stop))
  | index i => (held, .ofBytes? (Deque.at? (held.getD []) i))

/-- A sequence that is not empty is kept. -/
theorem kept_of_ne_nil {values : List Bytes} (h : values ≠ []) : kept values = some values :=
  if_neg h

end ListCommand

open ListCommand

/-- The list that a value is; none for a value of another type. -/
def Value.quicklist? : Value → Option Quicklist
  | list q => some q
  | _ => none

/-- What a key holds is this sequence, or is absent like it. -/
def Represents : Option Value → Option (List Bytes) → Prop
  | none, none => True
  | some (.list q), some values => values ≠ [] ∧ q.Stores .front values
  | _, _ => False

/-- A sequence is read off from what represents it. -/
theorem Represents.map_values {held : Option Value} {values : Option (List Bytes)}
    (h : Represents held values) : (held.bind Value.quicklist?).map Quicklist.values = values := by
  match held, values, h with
  | none, none, _ => rfl
  | some (.list q), some values, h => exact congrArg some h.2.values_eq

/-- What represents a sequence is a list. -/
theorem Represents.eq_list {held : Option Value} {values : Option (List Bytes)}
    (h : Represents held values) : ∀ value, held = some value → ∃ q, value = .list q := by
  rintro value rfl
  match value, values, h with
  | .list q, some _, _ => exact ⟨q, rfl⟩

/-- A sequence that is represented is not empty. -/
theorem Represents.ne_nil {held : Option Value} {values : List Bytes}
    (h : Represents held (some values)) : values ≠ [] := by
  rcases held with _ | (q | f | f | sketch)
  case some.list => exact h.1
  all_goals cases h

/-- A list as a key holds it represents its sequence as a key holds it. -/
theorem represents_keepList {q : Quicklist} {values : List Bytes} (h : q.Stores .front values) :
    Represents (Store.keepList q) (kept values) := by
  unfold Store.keepList
  by_cases hempty : values = []
  · rw [if_pos (h.isEmpty_iff.mpr hempty), kept, if_pos hempty]
    trivial
  · rw [if_neg (fun hq => hempty (h.isEmpty_iff.mp hq)), kept, if_neg hempty]
    exact ⟨hempty, h⟩

namespace Store

/-- The list that a key holds. -/
def quicklist? (s : Store) (key : Bytes) : Option Quicklist :=
  (s.get? key).bind Value.quicklist?

/-- The sequence that a key holds. -/
def sequence? (s : Store) (key : Bytes) : Option (List Bytes) :=
  (s.quicklist? key).map Quicklist.values

/-- A key that is absent or holds a list. -/
def TakesLists (s : Store) (key : Bytes) : Prop :=
  ∀ value, s.get? key = some value → ∃ q, value = .list q

/-- Every list of a store stores a sequence which is not empty, and new ones will. -/
structure ListsSound (s : Store) : Prop where
  nodeMax_le : s.config.listNodeMax ≤ Listpack.maxBytes
  stores : ∀ key q, s.quicklist? key = some q → ∃ values, values ≠ [] ∧ q.Stores .front values

variable {s : Store} {key : Bytes} {held : Option (List Bytes)}

/-- What a key of a sound store holds represents its sequence. -/
theorem ListsSound.represents (h : s.ListsSound) (hkey : s.TakesLists key) :
    Represents (s.get? key) (s.sequence? key) := by
  have hstores := h.stores key
  unfold sequence?
  unfold quicklist? at hstores ⊢
  cases hget : s.get? key with
  | none => trivial
  | some value =>
      obtain ⟨q, rfl⟩ := hkey value hget
      rw [hget] at hstores
      obtain ⟨values, hne, hq⟩ := hstores q rfl
      exact ⟨hq.values_eq ▸ hne, hq.values_eq.symm ▸ hq⟩

/-- No key of a sound store holds an empty sequence. -/
theorem ListsSound.sequence?_ne_nil (h : s.ListsSound) (key : Bytes) :
    s.sequence? key ≠ some [] := by
  intro hnil
  obtain ⟨q, hget, hvalues⟩ := Option.map_eq_some_iff.mp hnil
  obtain ⟨values, hne, hq⟩ := h.stores key q hget
  exact hne (hq.values_eq.symm.trans hvalues)

/-! ### The operations on lists -/

/-- **Pushing** sets the block at the end of what the key holds. -/
theorem pushList_spec (h : Represents (s.get? key) held) (e : End) {block : List Bytes}
    (hmax : s.config.listNodeMax ≤ Listpack.maxBytes) (hblock : ∀ value ∈ block, Storable value) :
    (s.pushList key e block).answer = .ok (e.attach block (held.getD [])).length ∧
      Represents ((s.pushList key e block).store.get? key)
        (kept (e.attach block (held.getD []))) := by
  unfold pushList
  rw [get?_update, if_pos rfl, update]
  dsimp only
  generalize s.get? key = found at h ⊢
  match found, held, h with
  | none, none, _ =>
      have hpush := ((stores_empty hmax).push e hblock).1
      exact ⟨congrArg _ hpush.len_eq, represents_keepList hpush⟩
  | some (.list q), some values, hq =>
      have hpush := (hq.2.push e hblock).1
      have hne : e.attach block values ≠ [] := by
        intro hnil
        have hlen := congrArg List.length hnil
        rw [End.length_attach] at hlen
        exact hq.1 (List.eq_nil_of_length_eq_zero (Nat.eq_zero_of_add_eq_zero hlen).2)
      refine ⟨congrArg _ hpush.len_eq, ?_⟩
      rw [Option.getD_some, kept_of_ne_nil hne]
      exact ⟨hne, hpush⟩

/-- **Popping** takes what is met first from the end. -/
theorem popList_spec (h : Represents (s.get? key) held) (e : End) (count : Nat) :
    (s.popList key e count).answer =
        .ok (kept ((e.orient (held.getD [])).take count)) ∧
      Represents ((s.popList key e count).store.get? key)
        (kept (e.orient ((e.orient (held.getD [])).drop count))) := by
  unfold popList
  rw [get?_update, if_pos rfl, update]
  dsimp only
  generalize s.get? key = found at h ⊢
  match found, held, h with
  | none, none, _ => simp [kept, Represents]
  | some (.list q), some values, hq =>
      obtain ⟨htaken, hleft⟩ := hq.2.popMany e count
      refine ⟨?_, represents_keepList hleft⟩
      dsimp only
      rw [htaken, Option.getD_some, kept]
      cases (e.orient values).take count <;> rfl

/-- There is nothing to pop from a missing key. -/
theorem popList_of_missing (h : Represents (s.get? key) none) (e : End) (count : Nat) :
    (s.popList key e count).answer = .ok none ∧
      Represents ((s.popList key e count).store.get? key) none := by
  obtain ⟨hanswer, hheld⟩ := popList_spec h e count
  rw [Option.getD_none, End.orient_nil, List.take_nil] at hanswer
  rw [Option.getD_none, End.orient_nil, List.drop_nil, End.orient_nil] at hheld
  exact ⟨hanswer, hheld⟩

/-- Pushing to a value of another type leaves the store. -/
theorem store_pushList_of_other {value : Value} (hget : s.get? key = some value)
    (hlist : ∀ q, value ≠ .list q) (e : End) (block : List Bytes) :
    (s.pushList key e block).store = s := by
  apply store_update_eq_self
  rw [hget]
  cases value with
  | list q => exact absurd rfl (hlist q)
  | _ => rfl

/-- Popping from a value of another type leaves the store. -/
theorem store_popList_of_other {value : Value} (hget : s.get? key = some value)
    (hlist : ∀ q, value ≠ .list q) (e : End) (count : Nat) :
    (s.popList key e count).store = s := by
  apply store_update_eq_self
  rw [hget]
  cases value with
  | list q => exact absurd rfl (hlist q)
  | _ => rfl

/-- Reading finds the list that stores the sequence. -/
theorem list?_spec (h : Represents (s.get? key) held) :
    ∃ q?, s.list? key = .ok q? ∧ (q? = none ∧ held = none ∨
      ∃ q values, q? = some q ∧ held = some values ∧ q.Stores .front values) := by
  unfold list?
  match s.get? key, held, h with
  | none, none, _ => exact ⟨none, rfl, .inl ⟨rfl, rfl⟩⟩
  | some (.list q), some values, hq => exact ⟨some q, rfl, .inr ⟨q, values, rfl, rfl, hq.2⟩⟩

/-- A missing key is not there to be popped from. -/
theorem contains_of_represents (h : Represents (s.get? key) held) :
    s.contains key = held.isSome := by
  rw [contains_eq_isSome]
  match s.get? key, held, h with
  | none, none, _ => rfl
  | some (.list q), some values, _ => rfl

end Store

end CompactStore
