import CompactStore.Proofs.Store.History

/-!
# Each family keeps to its type

A command of a family works on values of one type.  What it may do to the value
under its key is said by `FamilyStep`: nothing, make a value of its type, change
such a value, or, for a list, take it away.
-/

namespace CompactStore

/-- The family whose commands work on a value. -/
def Value.family : Value → Family
  | list _ => .list
  | bloom _ => .bloom
  | cuckoo _ => .cuckoo
  | sketch _ => .sketch

/-- The family of a command. -/
def Command.family : Command → Family
  | push .. | pop .. | length .. | range .. | index .. => .list
  | bloomReserve .. | bloomAdd .. | bloomAddAll .. | bloomContains .. | bloomContainsAll ..
  | bloomInfo .. | bloomCard .. => .bloom
  | cuckooReserve .. | cuckooAdd .. | cuckooAddNew .. | cuckooContains .. | cuckooContainsAll ..
  | cuckooRemove .. | cuckooInfo .. => .cuckoo
  | sketchCreate .. | sketchCreateFor .. | sketchIncrement .. | sketchEstimates ..
  | sketchInfo .. => .sketch
  | delete .. | present .. | type .. => .generic

/-- What a command of a family may do to what its key holds. -/
inductive FamilyStep (family : Family) : Option Value → Option Value → Prop where
  | same (held : Option Value) : FamilyStep family held held
  | made (value : Value) : value.family = family → FamilyStep family none (some value)
  | changed (before after : Value) : before.family = family → after.family = family →
      FamilyStep family (some before) (some after)
  | emptied (q : Quicklist) : family = .list → FamilyStep family (some (.list q)) none

/-- Another family leaves a value that is there. -/
theorem FamilyStep.keeps {family : Family} {before after : Option Value}
    (h : FamilyStep family before after) {value : Value} (hvalue : before = some value)
    (hfamily : value.family ≠ family) : after = some value := by
  cases h with
  | same => exact hvalue
  | made v hv => cases hvalue
  | changed v w hv hw =>
      obtain rfl := Option.some.inj hvalue
      exact absurd hv hfamily
  | emptied q hlist =>
      obtain rfl := Option.some.inj hvalue
      exact absurd hlist.symm hfamily

/-- A value that is there after a step of another family was there before. -/
theorem FamilyStep.eq_some {family : Family} {before after : Option Value}
    (h : FamilyStep family before after) {value : Value} (hvalue : after = some value)
    (hfamily : value.family ≠ family) : before = some value := by
  cases h with
  | same => exact hvalue
  | made v hv =>
      obtain rfl := Option.some.inj hvalue
      exact absurd hv hfamily
  | changed v w hv hw =>
      obtain rfl := Option.some.inj hvalue
      exact absurd hw hfamily
  | emptied q hlist => cases hvalue

namespace Store

variable {s : Store} {key : Bytes}

/-- A list that is changed stays a list, or is dropped when it is empty. -/
theorem keepList_step (q r : Quicklist) : FamilyStep .list (some (.list q)) (keepList r) := by
  unfold keepList
  split
  · exact .emptied q rfl
  · exact .changed _ _ rfl rfl

/-- A step of an operation is one of what it does to its key. -/
theorem familyStep_update {α : Type} {family : Family} {f : Option Value → Effect α}
    (h : FamilyStep family (s.get? key) (f (s.get? key)).held) :
    FamilyStep family (s.get? key) ((s.update key f).store.get? key) := by
  rw [get?_update, if_pos rfl]
  exact h

/-- Pushing is a step of the lists. -/
theorem pushList_step (s : Store) (key : Bytes) (e : End) (values : List Bytes) :
    FamilyStep .list (s.get? key) ((s.pushList key e values).store.get? key) := by
  apply familyStep_update
  rcases s.get? key with _ | (q | f | f | sketch)
  · change FamilyStep .list none (keepList _)
    unfold keepList
    split
    · exact .same none
    · exact .made _ rfl
  · exact .changed _ _ rfl rfl
  all_goals exact .same _

/-- Popping is a step of the lists. -/
theorem popList_step (s : Store) (key : Bytes) (e : End) (count : Nat) :
    FamilyStep .list (s.get? key) ((s.popList key e count).store.get? key) := by
  apply familyStep_update
  rcases s.get? key with _ | (q | f | f | sketch)
  · exact .same none
  · exact keepList_step q _
  all_goals exact .same _

/-- Two changes that do the same to what a key may hold are one change of the store. -/
theorem update_congr {α : Type} {f g : Option Value → Effect α} (h : ∀ held, f held = g held) :
    s.update key f = s.update key g := by
  rw [funext h]

/-- Making a value for a key that holds nothing. -/
def making {α : Type} (made : Except SizeError α) (value : α → Value) (report : α → List Event) :
    Option Value → Effect Unit
  | some held => .refuse .keyExists (some held)
  | none =>
    match made with
    | .error reason => .refuse (.size reason) none
    | .ok a => { answer := .ok (), held := some (value a), events := report a }

/-- Making a value of a family is a step of this family. -/
theorem making_step {α : Type} {family : Family} (value : α → Value)
    (hfamily : ∀ a, (value a).family = family) (made : Except SizeError α)
    (report : α → List Event) (held : Option Value) :
    FamilyStep family held (making made value report held).held := by
  cases held with
  | some v => exact .same _
  | none =>
      cases made with
      | error reason => exact .same none
      | ok a => exact .made _ (hfamily a)

/-- Reserving a bloom filter is making a value. -/
theorem reserveBloom_eq (s : Store) (key : Bytes) (errorRate : Float) (capacity : Nat) :
    s.reserveBloom key errorRate capacity =
      s.update key (making (BloomFilter.create s.machine.ln capacity errorRate) .bloom
        fun _ => [.bloomReserved capacity errorRate]) := by
  apply update_congr
  rintro (_ | value)
  · cases hmade : BloomFilter.create s.machine.ln capacity errorRate <;> simp [making]
  · rfl

/-- Reserving a cuckoo filter is making a value. -/
theorem reserveCuckoo_eq (s : Store) (key : Bytes) (errorRate : Float) (capacity : Nat) :
    s.reserveCuckoo key errorRate capacity =
      s.update key (making
        (CuckooFilter.create s.machine.log2 capacity errorRate (s.machine.stream key)) .cuckoo
        fun _ => [.cuckooReserved capacity errorRate]) := by
  apply update_congr
  rintro (_ | value)
  · cases hmade : CuckooFilter.create s.machine.log2 capacity errorRate (s.machine.stream key) <;>
      simp [making]
  · rfl

/-- Creating a sketch is making a value. -/
theorem putSketch_eq (s : Store) (key : Bytes) (make : Unit → Except SizeError CountMinSketch) :
    s.putSketch key make = s.update key (making (make ()) .sketch
      fun sketch => [.sketchCreated sketch.rows sketch.columns]) := by
  apply update_congr
  rintro (_ | value)
  · cases hmade : make () <;> simp [making]
  · rfl

/-- Reserving a bloom filter is a step of the bloom filters. -/
theorem reserveBloom_step (s : Store) (key : Bytes) (errorRate : Float) (capacity : Nat) :
    FamilyStep .bloom (s.get? key) ((s.reserveBloom key errorRate capacity).store.get? key) := by
  rw [reserveBloom_eq]
  exact familyStep_update (making_step Value.bloom (fun _ => rfl) _ _ _)

/-- Adding to a bloom filter is a step of the bloom filters. -/
theorem addBloomAll_step (s : Store) (key : Bytes) (items : List Bytes) :
    FamilyStep .bloom (s.get? key) ((s.addBloomAll key items).store.get? key) := by
  apply familyStep_update
  rcases s.get? key with _ | (q | f | f | sketch)
  · dsimp only
    split
    · exact .same none
    · exact .made _ rfl
  · exact .same _
  · exact .changed _ _ rfl rfl
  all_goals exact .same _

/-- Reserving a cuckoo filter is a step of the cuckoo filters. -/
theorem reserveCuckoo_step (s : Store) (key : Bytes) (errorRate : Float) (capacity : Nat) :
    FamilyStep .cuckoo (s.get? key) ((s.reserveCuckoo key errorRate capacity).store.get? key) := by
  rw [reserveCuckoo_eq]
  exact familyStep_update (making_step Value.cuckoo (fun _ => rfl) _ _ _)

/-- After an addition the key holds the filter, full or not. -/
theorem held_additionEffect (events : List Event) (f : CuckooFilter)
    (result : CuckooFilter.Addition) :
    (additionEffect events f result).held = some (.cuckoo f) := by
  cases result <;> rfl

/-- Adding to a cuckoo filter is a step of the cuckoo filters. -/
theorem extendCuckoo_step (s : Store) (key : Bytes)
    (addition : CuckooFilter → CuckooFilter × CuckooFilter.Addition) :
    FamilyStep .cuckoo (s.get? key) ((s.extendCuckoo key addition).store.get? key) := by
  apply familyStep_update
  rcases s.get? key with _ | (q | f | f | sketch)
  · dsimp only
    split
    · exact .same none
    · rw [held_additionEffect]
      exact .made _ rfl
  · exact .same _
  · exact .same _
  · dsimp only
    rw [held_additionEffect]
    exact .changed _ _ rfl rfl
  · exact .same _

/-- Taking an item out of what a key holds, whatever it means to take it out. -/
def removal (remove : CuckooFilter → Bytes → CuckooFilter × Bool) (item : Bytes) :
    Option Value → Effect Bool
  | some (.cuckoo f) =>
    let (f, removed) := remove f item
    { answer := .ok removed, held := some (.cuckoo f) }
  | some value => .refuse .wrongType (some value)
  | none => { answer := .ok false, held := none }

theorem removeCuckoo_eq (s : Store) (key item : Bytes) :
    s.removeCuckoo key item = s.update key (removal CuckooFilter.remove item) := rfl

/-- Taking out of a filter is a step of the cuckoo filters. -/
theorem removal_step (remove : CuckooFilter → Bytes → CuckooFilter × Bool) (item : Bytes)
    (held : Option Value) : FamilyStep .cuckoo held (removal remove item held).held := by
  rcases held with _ | (q | f | f | sketch)
  case some.cuckoo => exact .changed _ _ rfl rfl
  all_goals exact .same _

/-- Removing from a cuckoo filter is a step of the cuckoo filters. -/
theorem removeCuckoo_step (s : Store) (key item : Bytes) :
    FamilyStep .cuckoo (s.get? key) ((s.removeCuckoo key item).store.get? key) := by
  rw [removeCuckoo_eq]
  exact familyStep_update (removal_step CuckooFilter.remove item _)

/-- Creating a sketch is a step of the sketches. -/
theorem putSketch_step (s : Store) (key : Bytes) (make : Unit → Except SizeError CountMinSketch) :
    FamilyStep .sketch (s.get? key) ((s.putSketch key make).store.get? key) := by
  rw [putSketch_eq]
  exact familyStep_update (making_step Value.sketch (fun _ => rfl) _ _ _)

/-- Counting is a step of the sketches. -/
theorem incrementSketch_step (s : Store) (key : Bytes) (pairs : List (Bytes × Nat)) :
    FamilyStep .sketch (s.get? key) ((s.incrementSketch key pairs).store.get? key) := by
  apply familyStep_update
  rcases s.get? key with _ | (q | f | f | sketch)
  case some.sketch => exact .changed _ _ rfl rfl
  all_goals exact .same _

end Store

/-- **Every command keeps to its family** under every key, unless it deletes. -/
theorem Command.run_step (c : Command) (s : Store) (hdelete : ∀ keys, c ≠ .delete keys)
    (key : Bytes) : FamilyStep c.family (s.get? key) ((c.run s).store.get? key) := by
  by_cases hkey : key ∈ c.keys
  case neg =>
    rw [(c.run_frame s).2.2 key hkey]
    exact .same _
  case pos =>
  cases c with
  | push e k values =>
      obtain rfl := List.mem_singleton.mp hkey
      rw [run, Store.store_map]
      exact s.pushList_step key e values
  | pop e k count =>
      obtain rfl := List.mem_singleton.mp hkey
      obtain _ | _ | count := count
      · rw [run, Store.store_map]
        exact s.popList_step key e 1
      · exact .same _
      · rw [run, Store.store_map]
        · exact s.popList_step key e (count + 1)
        · exact Nat.succ_ne_zero count
  | bloomReserve k errorRate capacity =>
      obtain rfl := List.mem_singleton.mp hkey
      rw [run, Store.store_map]
      exact s.reserveBloom_step key errorRate capacity
  | bloomAdd k item =>
      obtain rfl := List.mem_singleton.mp hkey
      rw [run, Store.store_map]
      exact s.addBloomAll_step key [item]
  | bloomAddAll k items =>
      obtain rfl := List.mem_singleton.mp hkey
      rw [run, Store.store_map]
      exact s.addBloomAll_step key items
  | cuckooReserve k errorRate capacity =>
      obtain rfl := List.mem_singleton.mp hkey
      rw [run, Store.store_map]
      exact s.reserveCuckoo_step key errorRate capacity
  | cuckooAdd k item =>
      obtain rfl := List.mem_singleton.mp hkey
      rw [run, Store.store_map, Store.addCuckoo, Store.store_map]
      exact s.extendCuckoo_step key _
  | cuckooAddNew k item =>
      obtain rfl := List.mem_singleton.mp hkey
      rw [run, Store.store_map]
      exact s.extendCuckoo_step key _
  | cuckooRemove k item =>
      obtain rfl := List.mem_singleton.mp hkey
      rw [run, Store.store_map]
      exact s.removeCuckoo_step key item
  | sketchCreate k rows columns =>
      obtain rfl := List.mem_singleton.mp hkey
      rw [run, Store.store_map]
      exact s.putSketch_step key _
  | sketchCreateFor k errorRate probability =>
      obtain rfl := List.mem_singleton.mp hkey
      rw [run, Store.store_map]
      exact s.putSketch_step key _
  | sketchIncrement k pairs =>
      obtain rfl := List.mem_singleton.mp hkey
      rw [run, Store.store_map]
      exact s.incrementSketch_step key pairs
  | delete keys => exact absurd rfl (hdelete keys)
  | _ =>
      rw [run, Store.store_answering]
      exact .same _

/-- **One command under one key**: it deletes the key, or takes a step of its family. -/
theorem Command.run_cases (c : Command) (s : Store) (key : Bytes) :
    (∃ keys, c = .delete keys ∧ key ∈ keys ∧ (c.run s).store.get? key = none) ∨
      FamilyStep c.family (s.get? key) ((c.run s).store.get? key) := by
  by_cases hdelete : ∃ keys, c = .delete keys
  · obtain ⟨keys, rfl⟩ := hdelete
    have hheld : ((delete keys).run s).store.get? key = if key ∈ keys then none else s.get? key :=
      Store.get?_deleteEach s 0 keys key
    rw [hheld]
    by_cases hkey : key ∈ keys
    · rw [if_pos hkey]
      exact .inl ⟨keys, rfl, hkey, rfl⟩
    · rw [if_neg hkey]
      exact .inr (.same _)
  · exact .inr (c.run_step s (fun keys hkeys => hdelete ⟨keys, hkeys⟩) key)

/-- A value stays under a key that is not deleted, if the command is of another family. -/
theorem Command.run_keeps {c : Command} {s : Store} {key : Bytes} {value : Value}
    (hget : s.get? key = some value) (hfamily : value.family ≠ c.family)
    (hkept : ∀ keys, c = .delete keys → key ∉ keys) :
    (c.run s).store.get? key = some value := by
  obtain ⟨keys, rfl, hkey, -⟩ | hstep := c.run_cases s key
  · exact absurd hkey (hkept keys rfl)
  · exact hstep.keeps hget hfamily

end CompactStore
