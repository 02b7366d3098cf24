import CompactStore.Proofs.Cuckoo.Additions
import CompactStore.Proofs.Quicklist.Counts
import CompactStore.Proofs.Store.ListCommands

/-!
# What holds of every value in a store

A property of values holds throughout a store, `Store.Every`, as soon as the commands of
one family keep it: `Command.every_run`.  Every other family leaves the values alone that
the property is about, and deleting keys leaves fewer values.

Two such properties are kept whatever is asked.  The nodes of every list are a chain, and no
key holds a list without values: `Store.listShaped_after`.  Every cuckoo filter was made by
`create` and has kept its shape: `Store.cuckoosShaped_after`.
-/

namespace CompactStore

namespace Store

/-- Every value in the store has a property. -/
def Every (P : Value → Prop) (s : Store) : Prop :=
  ∀ key value, s.get? key = some value → P value

variable {P : Value → Prop} {s : Store} {key : Bytes}

/-- Every value of an empty store has any property. -/
theorem every_empty (machine : Machine) (config : Config) : (empty machine config).Every P := by
  intro key value hvalue
  simp [get?, empty] at hvalue

/-- Putting a value with the property keeps the property of every value. -/
theorem Every.put (h : s.Every P) {held : Option Value}
    (hheld : ∀ value, held = some value → P value) : (s.put key held).Every P := by
  intro other value hvalue
  by_cases hkey : key = other
  · subst hkey
    rw [get?_put_self] at hvalue
    exact hheld value hvalue
  · rw [get?_put_of_ne s held hkey] at hvalue
    exact h other value hvalue

end Store

/-- **A property of the values of one family** is kept by every command, if the commands
of this family keep it. -/
theorem Command.every_run {P : Value → Prop} {s : Store} {family : Family} (c : Command)
    (hothers : ∀ value, value.family ≠ family → P value) (h : s.Every P)
    (hown : c.family = family → (c.run s).store.Every P) : (c.run s).store.Every P := by
  by_cases hfamily : c.family = family
  · exact hown hfamily
  intro key value hvalue
  by_cases hvalueFamily : value.family = family
  case neg => exact hothers value hvalueFamily
  case pos =>
  obtain ⟨keys, -, -, hnone⟩ | hstep := c.run_cases s key
  · rw [hnone] at hvalue
    cases hvalue
  · exact h key value (hstep.eq_some hvalue fun heq => hfamily (heq ▸ hvalueFamily))

/-- **Reachable stores.**  What every command keeps holds throughout each of them. -/
theorem Store.every_after {P : Value → Prop}
    (hrun : ∀ (s : Store) (c : Command), s.Every P → (c.run s).store.Every P)
    (machine : Machine) (config : Config) (requests : List Request) :
    ((empty machine config).after requests).Every P := by
  apply after_keeps (P := Every P) (Q := fun _ => True)
  · exact fun s c _ h => hrun s c h
  · exact fun _ _ _ _ => trivial
  · exact every_empty machine config

/-- A command of a request that does not delete a key. -/
theorem Request.not_mem_of_deletes {q : Request} {c : Command} {key : Bytes}
    (hkept : key ∉ q.deletes) (hcommand : q.command? = some c) :
    ∀ keys, c = .delete keys → key ∉ keys := by
  rintro keys rfl
  rwa [deletes, hcommand] at hkept

/-! ### Lists -/

open Quicklist

/-- A list, if the value is one, is a chain of nodes and holds something. -/
def Value.ListShaped : Value → Prop
  | list q => q.Standing
  | _ => True

namespace Store

variable {s : Store} {key : Bytes} {q : Quicklist}

/-- A list that stands has values, so it is kept. -/
theorem keepList_of_standing (h : q.Standing) : keepList q = some (.list q) :=
  if_neg (Bool.eq_false_iff.mp h.2)

/-- A list is kept only with values in it. -/
theorem listShaped_keepList (h : q.Chained) (value : Value) (hkept : keepList q = some value) :
    value.ListShaped := by
  unfold keepList at hkept
  split at hkept
  · cases hkept
  · rename_i hempty
    obtain rfl := Option.some.inj hkept
    exact ⟨h, Bool.eq_false_iff.mpr hempty⟩

/-- A key that is absent or holds a list holds what is kept of some list; an absent key
stands for a new one. -/
theorem exists_keepList (h : s.Every Value.ListShaped) (hkey : s.TakesLists key) :
    ∃ q, Settled s.config.listNodeMax q ∧ s.get? key = keepList q := by
  cases hget : s.get? key with
  | none => exact ⟨Quicklist.empty _, .inl rfl, rfl⟩
  | some value =>
      obtain ⟨q, rfl⟩ := hkey value hget
      exact ⟨q, .inr (h key _ hget), (keepList_of_standing (h key _ hget)).symm⟩

/-- **A push** does to what a key holds what it does to a list. -/
theorem pushList_of_keepList (hq : Settled s.config.listNodeMax q)
    (hget : s.get? key = keepList q) (e : End) (block : List Bytes) :
    (s.pushList key e block).answer = .ok (q.push e block).1.len ∧
      (s.pushList key e block).store = s.put key (keepList (q.push e block).1) := by
  unfold pushList update
  rw [hget]
  obtain rfl | hstanding := hq
  · exact ⟨rfl, rfl⟩
  · have hpushed : (q.push e block).1.Standing :=
      push_keeps (fun _ value _ h => h.pushOne e value) hstanding
    rw [keepList_of_standing hstanding, keepList_of_standing hpushed]
    exact ⟨rfl, rfl⟩

/-- **A pop** does to what a key holds what it does to a list. -/
theorem popList_of_keepList (hq : q.Chained) (hget : s.get? key = keepList q) (e : End)
    (count : Nat) :
    (s.popList key e count).answer = .ok (if (q.popMany e count).2.isEmpty then none
        else some (q.popMany e count).2) ∧
      (s.popList key e count).store = s.put key (keepList (q.popMany e count).1) := by
  unfold popList update
  rw [hget]
  by_cases hempty : q.isEmpty = true
  · rw [hq.popMany_of_isEmpty hempty, keepList, if_pos hempty]
    exact ⟨rfl, rfl⟩
  · rw [keepList, if_neg hempty]
    exact ⟨rfl, rfl⟩

end Store

/-- **Every command** keeps the lists chains that hold something. -/
theorem Command.listShaped_run {s : Store} (c : Command) (h : s.Every Value.ListShaped) :
    (c.run s).store.Every Value.ListShaped := by
  have hothers : ∀ value : Value, value.family ≠ .list → value.ListShaped := by
    rintro (q | f | f | sketch) hvalue
    · exact absurd rfl hvalue
    all_goals trivial
  apply c.every_run hothers h
  intro hfamily
  obtain ⟨key, l, rfl⟩ := exists_under_of_family hfamily
  by_cases hkey : s.TakesLists key
  case neg =>
    rw [store_run_under hkey l]
    exact h
  case pos =>
  obtain ⟨q, hq, hget⟩ := Store.exists_keepList h hkey
  have hpop : ∀ e count, (s.popList key e count).store.Every Value.ListShaped := by
    intro e count
    rw [(Store.popList_of_keepList hq.chained hget e count).2]
    exact h.put (Store.listShaped_keepList (hq.chained.popEach e count []).1)
  cases l with
  | push e block =>
      have hpushed : Settled s.config.listNodeMax (q.push e block).1 :=
        push_keeps (fun _ value _ hsettled => hsettled.pushOne e value) hq
      have hstore := (Store.pushList_of_keepList hq hget e block).2
      rw [ListCommand.under, run, Store.store_map, hstore]
      exact h.put (Store.listShaped_keepList hpushed.chained)
  | pop e => exact hpop e 1
  | popMany e count =>
      obtain _ | count := count
      · exact h
      · exact hpop e (count + 1)
  | _ => exact h

/-- **After any requests** every list of the store is a chain with values in it. -/
theorem Store.listShaped_after (machine : Machine) (config : Config) (requests : List Request) :
    ((empty machine config).after requests).Every Value.ListShaped :=
  every_after (fun _ c h => c.listShaped_run h) machine config requests

/-!
### Cuckoo filters

No command changes the number of buckets or the width of the fingerprints, and commands of
other families leave the filters alone.
-/

/-- The value has the shape that `create` gives, if it is a cuckoo filter. -/
def Value.CuckooShaped : Value → Prop
  | cuckoo f => f.Shaped
  | _ => True

/-- The shape of a value is that of the cuckoo filter, if it is one. -/
theorem Value.cuckooShaped_iff {value : Value} :
    value.CuckooShaped ↔ ∀ f, value = .cuckoo f → f.Shaped := by
  cases value <;> simp [CuckooShaped]

namespace Store

/-- Every cuckoo filter has the shape of one that was made by `create`. -/
def CuckoosShaped (s : Store) : Prop :=
  ∀ key f, s.get? key = some (.cuckoo f) → f.Shaped

variable {α : Type} {s : Store} {key : Bytes}

/-- The shape of the filters is a property of every value. -/
theorem cuckoosShaped_iff : s.CuckoosShaped ↔ s.Every Value.CuckooShaped := by
  constructor
  · intro h key value hvalue
    exact Value.cuckooShaped_iff.mpr fun f hf => h key f (hvalue.trans (congrArg some hf))
  · exact fun h key f hf => h key (.cuckoo f) hf

/-- A change keeps the shape of the filters if the filter that it leaves has its shape. -/
theorem cuckoosShaped_update (h : s.CuckoosShaped) {f : Option Value → Effect α}
    (hheld : ∀ g, (f (s.get? key)).held = some (.cuckoo g) → g.Shaped) :
    (s.update key f).store.CuckoosShaped := by
  rw [cuckoosShaped_iff] at h ⊢
  apply h.put
  intro value hvalue
  exact Value.cuckooShaped_iff.mpr fun g hg => hheld g (hvalue.trans (congrArg some hg))

/-- A new filter has its shape. -/
theorem cuckoosShaped_reserveCuckoo (h : s.CuckoosShaped) (errorRate : Float) (capacity : Nat) :
    (s.reserveCuckoo key errorRate capacity).store.CuckoosShaped := by
  apply cuckoosShaped_update h
  intro g hg
  cases hkey : s.get? key with
  | some value =>
      rw [hkey] at hg
      exact h key g (hkey.trans hg)
  | none =>
      rw [hkey] at hg
      dsimp only at hg
      split at hg
      · cases hg
      · rename_i f hf
        cases hg
        exact (CuckooFilter.create_spec hf).1

/-- Adding to a filter keeps its shape, and a filter that is made for it has one. -/
theorem cuckoosShaped_extendCuckoo (h : s.CuckoosShaped)
    {addition : CuckooFilter → CuckooFilter × CuckooFilter.Addition}
    (haddition : ∀ f, CuckooFilter.Restrained f (addition f)) :
    (s.extendCuckoo key addition).store.CuckoosShaped := by
  apply cuckoosShaped_update h
  intro g hg
  rcases hkey : s.get? key with _ | (q | f | f | sketch)
  case none =>
    rw [hkey] at hg
    dsimp only at hg
    split at hg
    · cases hg
    · rename_i f hf
      rw [held_additionEffect] at hg
      cases hg
      exact (haddition f).shape.shaped (CuckooFilter.create_spec hf).1
  case some.cuckoo =>
    rw [hkey] at hg
    dsimp only at hg
    rw [held_additionEffect] at hg
    cases hg
    exact (haddition f).shape.shaped (h key f hkey)
  all_goals
    rw [hkey] at hg
    cases hg

/-- Taking out of a filter keeps its shape. -/
theorem held_removal {remove : CuckooFilter → Bytes → CuckooFilter × Bool} {item : Bytes}
    {held : Option Value} {g : CuckooFilter}
    (hremove : ∀ f, CuckooFilter.SameShape f (remove f item).1)
    (hheld : ∀ f, held = some (.cuckoo f) → f.Shaped)
    (hg : (removal remove item held).held = some (.cuckoo g)) : g.Shaped := by
  rcases held with _ | (q | f | f | sketch)
  case some.cuckoo =>
    cases hg
    exact (hremove f).shaped (hheld f rfl)
  all_goals cases hg

/-- Removing from a filter keeps its shape. -/
theorem cuckoosShaped_removeCuckoo (h : s.CuckoosShaped) (item : Bytes) :
    (s.removeCuckoo key item).store.CuckoosShaped := by
  have hremove : ∀ f : CuckooFilter, CuckooFilter.SameShape f (f.remove item).1 := by
    intro f
    rw [CuckooFilter.remove]
    exact CuckooFilter.sameShape_takeOut f _
  rw [removeCuckoo_eq]
  apply cuckoosShaped_update h
  intro g hg
  exact held_removal hremove (h key) hg

end Store

/-- **Every command keeps the shape** of every cuckoo filter. -/
theorem Command.cuckoosShaped_run (c : Command) {s : Store} (h : s.CuckoosShaped) :
    (c.run s).store.CuckoosShaped := by
  have hothers : ∀ value : Value, value.family ≠ .cuckoo → value.CuckooShaped := by
    rintro (q | f | f | sketch) hvalue
    case cuckoo => exact absurd rfl hvalue
    all_goals trivial
  apply Store.cuckoosShaped_iff.mpr
  apply c.every_run hothers (Store.cuckoosShaped_iff.mp h)
  intro hfamily
  apply Store.cuckoosShaped_iff.mp
  cases c with
  | cuckooReserve key errorRate capacity =>
      rw [run, Store.store_map]
      exact Store.cuckoosShaped_reserveCuckoo h errorRate capacity
  | cuckooAdd key item =>
      rw [run, Store.store_map, Store.addCuckoo, Store.store_map]
      exact Store.cuckoosShaped_extendCuckoo h fun f => f.restrained_addOnce item
  | cuckooAddNew key item =>
      rw [run, Store.store_map]
      exact Store.cuckoosShaped_extendCuckoo h fun f => f.restrained_addNew item
  | cuckooRemove key item =>
      rw [run, Store.store_map]
      exact Store.cuckoosShaped_removeCuckoo h item
  | cuckooContains => exact h
  | cuckooContainsAll => exact h
  | cuckooInfo => exact h
  | _ => cases hfamily

/-- **Reachable stores** hold cuckoo filters of the shape that `create` gives. -/
theorem Store.cuckoosShaped_after (machine : Machine) (config : Config)
    (requests : List Request) : ((empty machine config).after requests).CuckoosShaped := by
  apply cuckoosShaped_iff.mpr
  apply every_after
  intro s c h
  exact cuckoosShaped_iff.mp (c.cuckoosShaped_run (cuckoosShaped_iff.mpr h))

end CompactStore
