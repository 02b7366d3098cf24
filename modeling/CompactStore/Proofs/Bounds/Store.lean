import CompactStore.Proofs.Bounds.Bloom
import CompactStore.Proofs.Bounds.Cuckoo
import CompactStore.Proofs.Bounds.Quicklist
import CompactStore.Proofs.Bounds.Sketch
import CompactStore.Proofs.Store.BloomItems
import CompactStore.Proofs.Store.Invariants
import CompactStore.Proofs.Store.SketchCounts

/-!
# Bounds of the operations of a store

Every operation of a store that reads or changes the inside of a value, in a checked form.
What the values of a store have to be for that is `Value.Sound`: lists are chains, the items
of a bloom filter are counted by its bits, cuckoo filters and sketches have the shape that
they were made with.  Every command keeps it: `Command.sound_run`.
-/

namespace CompactStore

namespace Checked

variable {α β : Type} {answer : Except Error α} {held : Option α} {f : α → Checked β} {g : α → β}

/-- Goes on with an answer, unless it is an error. -/
def ask (answer : Except Error α) (f : α → Checked β) : Checked (Except Error β) :=
  match answer with
  | .error e => .ok (.error e)
  | .ok a => do return .ok (← f a)

/-- Goes on with what is held, if anything is. -/
def fetch (held : Option α) (absent : β) (f : α → Checked β) : Checked β :=
  match held with
  | none => .ok absent
  | some a => f a

/-- Going on with an answer stays within the bounds if going on with what it holds does. -/
theorem ask_eq (h : ∀ a, answer = .ok a → f a = .ok (g a)) :
    ask answer f = .ok (answer.map g) := by
  cases answer with
  | error e => rfl
  | ok a =>
      rw [ask, h a rfl]
      rfl

/-- Going on with what is held stays within the bounds if going on with each value does. -/
theorem fetch_eq (h : ∀ a, held = some a → f a = .ok (g a)) (absent : β) :
    fetch held absent f = .ok ((held.map g).getD absent) := by
  cases held with
  | none => rfl
  | some a => exact h a rfl

end Checked

open Checked

/-- What a value is that was made and changed by the operations of a store. -/
def Value.Sound : Value → Prop
  | list q => q.Standing
  | bloom f => f.Counted
  | cuckoo f => f.Shaped
  | sketch s => s.Standing

/-- The items of a bloom filter, if the value is one, are counted by its bits. -/
def Value.BloomCounted : Value → Prop
  | bloom f => f.Counted
  | _ => True

/-- The value counted some increments, if it is a sketch. -/
def Value.SketchStanding : Value → Prop
  | sketch s => s.Standing
  | _ => True

/-- A value is sound exactly if it has what each family asks of its own values. -/
theorem Value.sound_iff {value : Value} :
    value.Sound ↔
      value.ListShaped ∧ value.BloomCounted ∧ value.CuckooShaped ∧ value.SketchStanding := by
  cases value <;> simp [Sound, ListShaped, BloomCounted, CuckooShaped, SketchStanding]

namespace Store

/-- Runs an operation on what a key holds. -/
def checkedUpdate {α : Type} (s : Store) (key : Bytes) (f : Option Value → Checked (Effect α)) :
    Checked (Outcome α) := do
  let effect ← f (s.get? key)
  return { answer := effect.answer, store := s.put key effect.held, events := effect.events }

/-! ### Lists -/

/-- Pushes values at an end of a list. -/
def checkedPushList (s : Store) (key : Bytes) (e : End) (values : List Bytes) :
    Checked (Outcome Nat) :=
  s.checkedUpdate key fun
    | some (.list q) => do
      let q ← q.checkedPush e values
      return { answer := .ok q.len, held := some (.list q) }
    | some value => .ok (.refuse .wrongType (some value))
    | none => do
      let q ← (Quicklist.empty s.config.listNodeMax).checkedPush e values
      return { answer := .ok q.len, held := keepList q, events := [.creatingList] }

/-- Takes at most `count` values off an end of a list. -/
def checkedPopList (s : Store) (key : Bytes) (e : End) (count : Nat) :
    Checked (Outcome (Option (List Bytes))) :=
  s.checkedUpdate key fun
    | some (.list q) => do
      let (q, taken) ← q.checkedPopEach e count []
      return { answer := .ok (if taken.isEmpty then none else some taken), held := keepList q }
    | some value => .ok (.refuse .wrongType (some value))
    | none => .ok { answer := .ok none, held := none }

/-- The values of a list from one index to another, both included. -/
def checkedListRange (s : Store) (key : Bytes) (start stop : Int) :
    Checked (Except Error (List Bytes)) :=
  ask (s.list? key) fun q? => fetch q? [] fun q => q.checkedRange start stop

/-- The value of a list at an index. -/
def checkedListIndex (s : Store) (key : Bytes) (i : Int) :
    Checked (Except Error (Option Bytes)) :=
  ask (s.list? key) fun q? => fetch q? none fun q => q.checkedIndex i

/-! ### Bloom filters -/

/-- Adds items to a bloom filter. -/
def checkedAddBloomAll (s : Store) (key : Bytes) (items : List Bytes) :
    Checked (Outcome (List Bool)) :=
  s.checkedUpdate key fun
    | some (.bloom f) => do
      let (f, answers) ← f.checkedAddEach [] items
      return { answer := .ok answers, held := some (.bloom f) }
    | some value => .ok (.refuse .wrongType (some value))
    | none =>
      match BloomFilter.create s.machine.ln s.config.bloomCapacity s.config.bloomErrorRate with
      | .error reason =>
        .ok { answer := .error (.size reason), held := none, events := [.creatingBloom] }
      | .ok f => do
        let (f, answers) ← f.checkedAddEach [] items
        return { answer := .ok answers, held := some (.bloom f), events := [.creatingBloom] }

/-- Adds an item to a bloom filter; the answer is the first and only one. -/
def checkedAddBloom (s : Store) (key item : Bytes) : Checked (Outcome Bool) := do
  let outcome ← s.checkedAddBloomAll key [item]
  let answer ← ask outcome.answer fun answers => get answers.toArray 0
  return { answer, store := outcome.store, events := outcome.events }

/-- Whether an item may have been added. -/
def checkedBloomContains (s : Store) (key item : Bytes) : Checked (Except Error Bool) :=
  ask (s.bloom? key) fun f? => fetch f? false fun f => f.checkedContains item

/-- Whether each of some items may have been added. -/
def checkedBloomContainsAll (s : Store) (key : Bytes) (items : List Bytes) :
    Checked (Except Error (List Bool)) :=
  ask (s.bloom? key) fun f? =>
    items.mapM fun item => fetch f? false fun f => f.checkedContains item

/-! ### Cuckoo filters -/

/-- Runs an addition on the cuckoo filter under a key. -/
def checkedExtendCuckoo (s : Store) (key : Bytes)
    (addition : CuckooFilter → Checked (CuckooFilter × CuckooFilter.Addition)) :
    Checked (Outcome Bool) :=
  s.checkedUpdate key fun
    | some (.cuckoo f) => do
      let (f, result) ← addition f
      return additionEffect [] f result
    | some value => .ok (.refuse .wrongType (some value))
    | none =>
      match CuckooFilter.create s.machine.log2 s.config.cuckooCapacity s.config.cuckooErrorRate
          (s.machine.stream key) with
      | .error reason =>
        .ok { answer := .error (.size reason), held := none, events := [.creatingCuckoo] }
      | .ok f => do
        let (f, result) ← addition f
        return additionEffect [.creatingCuckoo] f result

/-- Taking an item out of what a key holds, whatever it means to take it out. -/
def checkedRemoval (remove : CuckooFilter → Checked (CuckooFilter × Bool)) :
    Option Value → Checked (Effect Bool)
  | some (.cuckoo f) => do
    let (f, removed) ← remove f
    return { answer := .ok removed, held := some (.cuckoo f) }
  | some value => .ok (.refuse .wrongType (some value))
  | none => .ok { answer := .ok false, held := none }

/-- Takes one fingerprint of an item out. -/
def checkedRemoveCuckoo (s : Store) (key item : Bytes) : Checked (Outcome Bool) :=
  s.checkedUpdate key (checkedRemoval fun f => f.checkedRemove item)

/-- Whether an item may be stored. -/
def checkedCuckooContains (s : Store) (key item : Bytes) : Checked (Except Error Bool) :=
  ask (s.cuckoo? key) fun f? => fetch f? false fun f => f.checkedContains item

/-- Whether each of some items may be stored. -/
def checkedCuckooContainsAll (s : Store) (key : Bytes) (items : List Bytes) :
    Checked (Except Error (List Bool)) :=
  ask (s.cuckoo? key) fun f? =>
    items.mapM fun item => fetch f? false fun f => f.checkedContains item

/-! ### Sketches -/

/-- Increments items one after another. -/
def checkedIncrementSketch (s : Store) (key : Bytes) (pairs : List (Bytes × Nat)) :
    Checked (Outcome (List Nat)) :=
  s.checkedUpdate key fun
    | some (.sketch sketch) => do
      let (sketch, estimates) ← sketch.checkedIncrementEach [] pairs
      return { answer := .ok estimates, held := some (.sketch sketch) }
    | some value => .ok (.refuse .wrongType (some value))
    | none => .ok (.refuse .noSuchKey none)

/-- The estimates for some items. -/
def checkedSketchEstimates (s : Store) (key : Bytes) (items : List Bytes) :
    Checked (Except Error (List Nat)) :=
  ask (s.sketchInfo key) fun sketch => items.mapM sketch.checkedEstimate

/-! ### Within the bounds -/

variable {s : Store} {key item : Bytes} {items : List Bytes} {e : End}

/-- Changing what a key holds stays within the bounds if the change of what it holds now does. -/
theorem checkedUpdate_eq {α : Type} {f : Option Value → Checked (Effect α)}
    {g : Option Value → Effect α} (h : f (s.get? key) = .ok (g (s.get? key))) :
    s.checkedUpdate key f = .ok (s.update key g) := by
  rw [checkedUpdate, h]
  rfl

/-- **Pushing** to a list of a sound store stays within the bounds. -/
theorem checkedPushList_eq (h : s.Every Value.Sound) (values : List Bytes) :
    s.checkedPushList key e values = .ok (s.pushList key e values) := by
  apply checkedUpdate_eq
  rcases hget : s.get? key with _ | (q | f | f | sketch)
  case none =>
    dsimp only
    rw [(Quicklist.chained_empty _).checkedPush_eq]
    rfl
  case some.list =>
    have hq : q.Standing := h key _ hget
    dsimp only
    rw [hq.1.checkedPush_eq]
    rfl
  all_goals rfl

/-- **Popping** from a list of a sound store stays within the bounds. -/
theorem checkedPopList_eq (h : s.Every Value.Sound) (count : Nat) :
    s.checkedPopList key e count = .ok (s.popList key e count) := by
  apply checkedUpdate_eq
  rcases hget : s.get? key with _ | (q | f | f | sketch)
  case some.list =>
    have hq : q.Standing := h key _ hget
    dsimp only
    rw [hq.1.checkedPopEach_eq, ok_bind, Quicklist.popMany]
    generalize q.popEach e count [] = result
    rfl
  all_goals rfl

/-- The lists of a sound store are chains. -/
theorem Every.standing_list (h : s.Every Value.Sound) {q : Quicklist}
    (hq : s.list? key = .ok (some q)) : q.Standing := by
  unfold list? at hq
  split at hq
  · rename_i held hget
    cases hq
    exact h key _ hget
  all_goals cases hq

/-- **A range** of a list of a sound store stays within the bounds, whatever the two indices are.
-/
theorem checkedListRange_eq (h : s.Every Value.Sound) (start stop : Int) :
    s.checkedListRange key start stop = .ok (s.listRange key start stop) := by
  apply ask_eq
  rintro q? hq
  apply fetch_eq
  rintro q rfl
  exact (h.standing_list hq).1.checkedRange_eq start stop

/-- **An index** into a list of a sound store stays within the bounds, whatever it is. -/
theorem checkedListIndex_eq (h : s.Every Value.Sound) (i : Int) :
    s.checkedListIndex key i = .ok (s.listIndex key i) := by
  apply ask_eq
  rintro (_ | q) hq
  · rfl
  · exact (h.standing_list hq).1.checkedIndex_eq i

/-- **Adding items** to a bloom filter of a sound store stays within the bounds. -/
theorem checkedAddBloomAll_eq (h : s.Every Value.Sound) (items : List Bytes) :
    s.checkedAddBloomAll key items = .ok (s.addBloomAll key items) := by
  apply checkedUpdate_eq
  rcases hget : s.get? key with _ | (q | f | f | sketch)
  case none =>
    dsimp only
    cases hmade :
        BloomFilter.create s.machine.ln s.config.bloomCapacity s.config.bloomErrorRate with
    | error reason => rfl
    | ok f =>
        dsimp only
        rw [(BloomFilter.counted_of_create hmade).checkedAddEach_eq, ok_bind, BloomFilter.addAll]
        generalize f.addEach [] items = result
        rfl
  case some.bloom =>
    have hf : f.Counted := h key _ hget
    dsimp only
    rw [hf.checkedAddEach_eq, ok_bind, BloomFilter.addAll]
    generalize f.addEach [] items = result
    rfl
  all_goals rfl

/-- Adding one item is adding a list of one. -/
theorem checkedAddBloom_eq (h : s.Every Value.Sound) (item : Bytes) :
    s.checkedAddBloom key item = .ok (s.addBloom key item) := by
  have hask : ask (s.addBloomAll key [item]).answer (fun answers => get answers.toArray 0) =
      .ok ((s.addBloomAll key [item]).answer.map fun answers => answers.headD false) := by
    apply ask_eq
    intro answers hanswers
    cases hfor : s.bloomFor key with
    | error e =>
        rw [(addBloomAll_of_error hfor [item]).1] at hanswers
        cases hanswers
    | ok f =>
        rw [(addBloomAll_of_ok hfor [item]).1] at hanswers
        cases hanswers
        rfl
  rw [checkedAddBloom, checkedAddBloomAll_eq h, ok_bind, hask]
  rfl

/-- The bloom filters of a sound store are counted by their bits. -/
theorem Every.counted_bloom (h : s.Every Value.Sound) {f : BloomFilter}
    (hf : s.bloom? key = .ok (some f)) : f.Counted := by
  unfold bloom? at hf
  split at hf
  · rename_i held hget
    cases hf
    exact h key _ hget
  all_goals cases hf

/-- **Asking a bloom filter** of a sound store for an item stays within the bounds. -/
theorem checkedBloomContains_eq (h : s.Every Value.Sound) (item : Bytes) :
    s.checkedBloomContains key item = .ok (s.bloomContains key item) := by
  apply ask_eq
  rintro f? hf
  apply fetch_eq
  rintro f rfl
  exact (h.counted_bloom hf).toShaped.checkedContains_eq item

/-- Asking a bloom filter of a sound store for several items stays within the bounds. -/
theorem checkedBloomContainsAll_eq (h : s.Every Value.Sound) (items : List Bytes) :
    s.checkedBloomContainsAll key items = .ok (s.bloomContainsAll key items) := by
  apply ask_eq
  rintro f? hf
  apply mapM_eq
  intro item _
  apply fetch_eq
  rintro f rfl
  exact (h.counted_bloom hf).toShaped.checkedContains_eq item

/-- An addition to a cuckoo filter of its shape may take place under a key. -/
theorem checkedExtendCuckoo_eq (h : s.Every Value.Sound)
    {checked : CuckooFilter → Checked (CuckooFilter × CuckooFilter.Addition)}
    {addition : CuckooFilter → CuckooFilter × CuckooFilter.Addition}
    (haddition : ∀ f, f.Shaped → checked f = .ok (addition f)) :
    s.checkedExtendCuckoo key checked = .ok (s.extendCuckoo key addition) := by
  apply checkedUpdate_eq
  rcases hget : s.get? key with _ | (q | f | f | sketch)
  case none =>
    dsimp only
    cases hmade : CuckooFilter.create s.machine.log2 s.config.cuckooCapacity
        s.config.cuckooErrorRate (s.machine.stream key) with
    | error reason => rfl
    | ok f =>
        dsimp only
        rw [haddition f (CuckooFilter.create_spec hmade).1, ok_bind]
        generalize addition f = result
        rfl
  case some.cuckoo =>
    dsimp only
    rw [haddition f (h key _ hget), ok_bind]
    generalize addition f = result
    rfl
  all_goals rfl

/-- Taking out of a filter stays within the bounds if the filter that is held does. -/
theorem checkedRemoval_eq {checked : CuckooFilter → Checked (CuckooFilter × Bool)}
    {remove : CuckooFilter → Bytes → CuckooFilter × Bool} {held : Option Value}
    (hremove : ∀ f, held = some (.cuckoo f) → checked f = .ok (remove f item)) :
    checkedRemoval checked held = .ok (removal remove item held) := by
  rcases held with _ | (q | f | f | sketch)
  case some.cuckoo =>
    rw [checkedRemoval, hremove f rfl]
    rfl
  all_goals rfl

/-- **Removing** from a cuckoo filter of a sound store stays within the bounds. -/
theorem checkedRemoveCuckoo_eq (h : s.Every Value.Sound) (item : Bytes) :
    s.checkedRemoveCuckoo key item = .ok (s.removeCuckoo key item) := by
  rw [removeCuckoo_eq]
  apply checkedUpdate_eq
  apply checkedRemoval_eq
  intro f hget
  exact CuckooFilter.Shaped.checkedRemove_eq (h key _ hget) item

/-- The cuckoo filters of a sound store have their shape. -/
theorem Every.shaped_cuckoo (h : s.Every Value.Sound) {f : CuckooFilter}
    (hf : s.cuckoo? key = .ok (some f)) : f.Shaped := by
  unfold cuckoo? at hf
  split at hf
  · rename_i held hget
    cases hf
    exact h key _ hget
  all_goals cases hf

/-- **Asking a cuckoo filter** of a sound store for an item stays within the bounds. -/
theorem checkedCuckooContains_eq (h : s.Every Value.Sound) (item : Bytes) :
    s.checkedCuckooContains key item = .ok (s.cuckooContains key item) := by
  apply ask_eq
  rintro f? hf
  apply fetch_eq
  rintro f rfl
  exact (h.shaped_cuckoo hf).checkedContains_eq item

/-- Asking a cuckoo filter of a sound store for several items stays within the bounds. -/
theorem checkedCuckooContainsAll_eq (h : s.Every Value.Sound) (items : List Bytes) :
    s.checkedCuckooContainsAll key items = .ok (s.cuckooContainsAll key items) := by
  apply ask_eq
  rintro f? hf
  apply mapM_eq
  intro item _
  apply fetch_eq
  rintro f rfl
  exact (h.shaped_cuckoo hf).checkedContains_eq item

/-- **Counting** in a sketch of a sound store stays within the bounds. -/
theorem checkedIncrementSketch_eq (h : s.Every Value.Sound) (pairs : List (Bytes × Nat)) :
    s.checkedIncrementSketch key pairs = .ok (s.incrementSketch key pairs) := by
  apply checkedUpdate_eq
  rcases hget : s.get? key with _ | (q | f | f | sketch)
  case some.sketch =>
    have hsketch : sketch.Standing := h key _ hget
    dsimp only
    rw [hsketch.checkedIncrementEach_eq, ok_bind, CountMinSketch.incrementAll]
    generalize sketch.incrementEach [] pairs = result
    rfl
  all_goals rfl

/-- **Asking a sketch** of a sound store for estimates stays within the bounds. -/
theorem checkedSketchEstimates_eq (h : s.Every Value.Sound) (items : List Bytes) :
    s.checkedSketchEstimates key items = .ok (s.sketchEstimates key items) := by
  apply ask_eq
  intro sketch hsketch
  have hstanding : sketch.Standing := by
    unfold sketchInfo at hsketch
    split at hsketch
    · rename_i held hget
      cases hsketch
      exact h key _ hget
    all_goals cases hsketch
  exact mapM_eq fun item _ => hstanding.checkedEstimate_eq item

end Store

end CompactStore
