import CompactStore.BloomFilter
import CompactStore.Config
import CompactStore.CountMinSketch
import CompactStore.Cuckoo
import CompactStore.Log
import CompactStore.Quicklist.Edit
import Std.Data.ExtTreeMap

/-!
# The store

A store maps keys to values of four types.  Every operation names one key, looks
at what that key holds, and says what it holds afterwards; `Store.update` is the
only way in which an operation changes a store, so no operation can touch a key
that it does not name.  A list that becomes empty leaves its key, so a key that
is there holds something.

Two maps with the same value under every key are the same map: equality of stores
does not see the order in which keys were added.

What the machine supplies is a part of the store: the logarithms that sizes are
computed with, and for each key the stream of random numbers that a cuckoo filter
made under it draws from.
-/

namespace CompactStore

/-- What a key can hold. -/
inductive Value where
  | list (q : Quicklist)
  | bloom (f : BloomFilter)
  | cuckoo (f : CuckooFilter)
  | sketch (s : CountMinSketch)

/-- The name of a value's type. -/
def Value.typeName : Value → String
  | list _ => "list"
  | bloom _ => "MBbloom--"
  | cuckoo _ => "MBbloomCF"
  | sketch _ => "CMSk-TYPE"

/-- What the machine supplies: the natural and the binary logarithm, and the
random numbers for a cuckoo filter under a key. -/
structure Machine where
  ln : Float → Float
  log2 : Float → Float
  stream : Bytes → Nat → Nat

/-- Keys with their values, and the configuration for what is made by itself. -/
structure Store where
  config : Config
  machine : Machine
  values : Std.ExtTreeMap Bytes Value

/-- The result of an operation on what a key holds: its answer, what the key
holds afterwards, and what was reported. -/
structure Effect (α : Type) where
  answer : Except Error α
  held : Option Value
  events : List Event := []

/-- The result of an operation on a store. -/
structure Outcome (α : Type) where
  answer : Except Error α
  store : Store
  events : List Event := []

namespace Effect

/-- An effect that answers an error and leaves the key as it was. -/
def refuse {α : Type} (e : Error) (held : Option Value) : Effect α where
  answer := .error e
  held := held

end Effect

namespace Outcome

/-- The outcome with another answer in place of a good one. -/
def map {α β : Type} (f : α → β) (o : Outcome α) : Outcome β where
  answer := o.answer.map f
  store := o.store
  events := o.events

end Outcome

namespace Store

/-- A store without keys. -/
def empty (machine : Machine) (config : Config) : Store where
  config := config
  machine := machine
  values := ∅

/-- What a key holds. -/
def get? (s : Store) (key : Bytes) : Option Value :=
  s.values[key]?

/-- The store in which a key holds something else. -/
def put (s : Store) (key : Bytes) (held : Option Value) : Store :=
  match held with
  | some value => { s with values := s.values.insert key value }
  | none => { s with values := s.values.erase key }

/-- Runs an operation on what a key holds. -/
def update {α : Type} (s : Store) (key : Bytes) (f : Option Value → Effect α) : Outcome α :=
  let effect := f (s.get? key)
  { answer := effect.answer, store := s.put key effect.held, events := effect.events }

/-- The outcome of an operation that only reads. -/
def answering {α : Type} (s : Store) (answer : Except Error α) : Outcome α where
  answer := answer
  store := s

/-- The number of keys. -/
def size (s : Store) : Nat :=
  s.values.size

/-- Whether there are no keys. -/
def isEmpty (s : Store) : Bool :=
  s.values.isEmpty

/-- Whether a key holds something. -/
def contains (s : Store) (key : Bytes) : Bool :=
  s.values.contains key

/-- The name of the type of what a key holds. -/
def typeName? (s : Store) (key : Bytes) : Option String :=
  (s.get? key).map Value.typeName

/-- Takes a key out; the answer is whether it was there. -/
def delete (s : Store) (key : Bytes) : Store × Bool :=
  ({ s with values := s.values.erase key }, s.contains key)

/-- Takes keys out one after another, and counts those that were there. -/
def deleteEach (s : Store) (count : Nat) : List Bytes → Store × Nat
  | [] => (s, count)
  | key :: rest =>
    let (s, found) := s.delete key
    deleteEach s (if found then count + 1 else count) rest

/-- What a key holds afterwards is what was put there. -/
@[simp] theorem get?_put_self (s : Store) (key : Bytes) (held : Option Value) :
    (s.put key held).get? key = held := by
  cases held <;> simp [put, get?]

/-- **Frame.**  Putting something under a key leaves every other key alone. -/
theorem get?_put_of_ne (s : Store) {key other : Bytes} (held : Option Value)
    (h : key ≠ other) : (s.put key held).get? other = s.get? other := by
  cases held with
  | none => simp [put, get?, Std.ExtTreeMap.getElem?_erase, h]
  | some value => simp [put, get?, Std.ExtTreeMap.getElem?_insert, h]

/-- A store is its configuration, its machine, and what each key holds. -/
theorem ext_get? {s t : Store} (hconfig : s.config = t.config)
    (hmachine : s.machine = t.machine) (h : ∀ key, s.get? key = t.get? key) : s = t := by
  obtain ⟨config, machine, values⟩ := s
  obtain ⟨config', machine', values'⟩ := t
  obtain rfl : config = config' := hconfig
  obtain rfl : machine = machine' := hmachine
  obtain rfl : values = values' := Std.ExtTreeMap.ext_getElem? h
  rfl

/-- **Putting back** what a key holds changes nothing. -/
theorem put_get? (s : Store) (key : Bytes) : s.put key (s.get? key) = s := by
  apply ext_get?
  · cases s.get? key <;> rfl
  · cases s.get? key <;> rfl
  · intro other
    by_cases h : key = other
    · subst h
      exact get?_put_self s key _
    · exact get?_put_of_ne s _ h

end Store

end CompactStore
