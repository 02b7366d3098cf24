import CompactStore.Proofs.Command.Names

/-!
# Requests on different keys

What a command answers and what it leaves under its keys depends on the configuration, on
the machine and on what these keys hold, and on nothing else: `Command.run_agrees`.
Together with the frame, which says that all other keys stay, this makes requests that name
no key in common independent of each other: `serve_independent`.

The stream of random numbers for a cuckoo filter belongs to its key, so a filter that is
made does not depend on those that were made before it.
-/

namespace CompactStore

namespace Store

variable {α β : Type} {s t : Store} {key : Bytes} {keys : List Bytes}

/-- Two stores that agree on keys, and on what does not depend on any key. -/
structure AgreeOn (keys : List Bytes) (s t : Store) : Prop where
  config_eq : t.config = s.config
  machine_eq : t.machine = s.machine
  get?_eq : ∀ key ∈ keys, t.get? key = s.get? key

/-- Two outcomes that tell the same, and leave stores that agree on keys. -/
structure Corresponding (keys : List Bytes) (o p : Outcome α) : Prop where
  answer_eq : p.answer = o.answer
  events_eq : p.events = o.events
  stores : AgreeOn keys o.store p.store

/-- Stores that agree on a key hold the same under it. -/
theorem AgreeOn.get?_eq_of_singleton (h : AgreeOn [key] s t) : t.get? key = s.get? key :=
  h.get?_eq key List.mem_cons_self

/-! ### Reading -/

/-- Looking for a list looks at its key only. -/
theorem AgreeOn.list?_eq (h : AgreeOn [key] s t) : t.list? key = s.list? key := by
  rw [list?, list?, h.get?_eq_of_singleton]

/-- Looking for a bloom filter looks at its key only. -/
theorem AgreeOn.bloom?_eq (h : AgreeOn [key] s t) : t.bloom? key = s.bloom? key := by
  rw [bloom?, bloom?, h.get?_eq_of_singleton]

/-- Looking for a cuckoo filter looks at its key only. -/
theorem AgreeOn.cuckoo?_eq (h : AgreeOn [key] s t) : t.cuckoo? key = s.cuckoo? key := by
  rw [cuckoo?, cuckoo?, h.get?_eq_of_singleton]

/-- Looking for a sketch looks at its key only. -/
theorem AgreeOn.sketchInfo_eq (h : AgreeOn [key] s t) : t.sketchInfo key = s.sketchInfo key := by
  rw [sketchInfo, sketchInfo, h.get?_eq_of_singleton]

/-- Whether a key is there is told by this key only. -/
theorem AgreeOn.contains_eq (h : AgreeOn keys s t) (hkey : key ∈ keys) :
    t.contains key = s.contains key := by
  rw [contains_eq_isSome, contains_eq_isSome, h.get?_eq key hkey]

/-- The length of a list is told by its key only. -/
theorem AgreeOn.listLength_eq (h : AgreeOn [key] s t) : t.listLength key = s.listLength key := by
  rw [listLength, listLength, h.list?_eq]

/-- Reading alike corresponds. -/
theorem AgreeOn.answering {a b : Except Error α} (h : AgreeOn keys s t) (hanswer : b = a) :
    Corresponding keys (s.answering a) (t.answering b) :=
  ⟨hanswer, rfl, h⟩

/-! ### Changing -/

/-- Putting the answers into other words leaves outcomes corresponding. -/
theorem Corresponding.map {o p : Outcome α} (h : Corresponding keys o p) (f : α → β) :
    Corresponding keys (o.map f) (p.map f) :=
  ⟨congrArg (Except.map f) h.answer_eq, h.events_eq, h.stores⟩

/-- **The same operation on what a key holds.** -/
theorem AgreeOn.update (h : AgreeOn [key] s t) {f g : Option Value → Effect α} (hsame : g = f) :
    Corresponding [key] (s.update key f) (t.update key g) := by
  subst hsame
  have heffect : g (t.get? key) = g (s.get? key) := by rw [h.get?_eq_of_singleton]
  refine ⟨congrArg Effect.answer heffect, congrArg Effect.events heffect, ?_, ?_, ?_⟩
  · exact (config_put t key _).trans (h.config_eq.trans (config_put s key _).symm)
  · exact (machine_put t key _).trans (h.machine_eq.trans (machine_put s key _).symm)
  · intro other hother
    obtain rfl := List.mem_singleton.mp hother
    rw [get?_update, get?_update, if_pos rfl, if_pos rfl, heffect]

/-- Pushing looks at its key only. -/
theorem AgreeOn.pushList (h : AgreeOn [key] s t) (e : End) (values : List Bytes) :
    Corresponding [key] (s.pushList key e values) (t.pushList key e values) :=
  h.update (by rw [h.config_eq])

/-- Popping looks at its key only. -/
theorem AgreeOn.popList (h : AgreeOn [key] s t) (e : End) (count : Nat) :
    Corresponding [key] (s.popList key e count) (t.popList key e count) :=
  h.update rfl

/-- Reserving a bloom filter looks at its key only. -/
theorem AgreeOn.reserveBloom (h : AgreeOn [key] s t) (errorRate : Float) (capacity : Nat) :
    Corresponding [key] (s.reserveBloom key errorRate capacity)
      (t.reserveBloom key errorRate capacity) :=
  h.update (by rw [h.machine_eq])

/-- Adding to a bloom filter looks at its key only. -/
theorem AgreeOn.addBloomAll (h : AgreeOn [key] s t) (items : List Bytes) :
    Corresponding [key] (s.addBloomAll key items) (t.addBloomAll key items) :=
  h.update (by rw [h.config_eq, h.machine_eq])

/-- Reserving a cuckoo filter looks at its key only. -/
theorem AgreeOn.reserveCuckoo (h : AgreeOn [key] s t) (errorRate : Float) (capacity : Nat) :
    Corresponding [key] (s.reserveCuckoo key errorRate capacity)
      (t.reserveCuckoo key errorRate capacity) :=
  h.update (by rw [h.machine_eq])

/-- Adding to a cuckoo filter looks at its key only. -/
theorem AgreeOn.extendCuckoo (h : AgreeOn [key] s t)
    (addition : CuckooFilter → CuckooFilter × CuckooFilter.Addition) :
    Corresponding [key] (s.extendCuckoo key addition) (t.extendCuckoo key addition) :=
  h.update (by rw [h.config_eq, h.machine_eq])

/-- Removing from a cuckoo filter looks at its key only. -/
theorem AgreeOn.removeCuckoo (h : AgreeOn [key] s t) (item : Bytes) :
    Corresponding [key] (s.removeCuckoo key item) (t.removeCuckoo key item) :=
  h.update rfl

/-- Creating a sketch looks at its key only. -/
theorem AgreeOn.putSketch (h : AgreeOn [key] s t)
    (make : Unit → Except SizeError CountMinSketch) :
    Corresponding [key] (s.putSketch key make) (t.putSketch key make) :=
  h.update rfl

/-- Creating a sketch for rates of error looks at its key only. -/
theorem AgreeOn.createSketchFor (h : AgreeOn [key] s t) (errorRate probability : Float) :
    Corresponding [key] (s.createSketchFor key errorRate probability)
      (t.createSketchFor key errorRate probability) := by
  rw [Store.createSketchFor, Store.createSketchFor, h.machine_eq]
  exact h.putSketch _

/-- Counting looks at its key only. -/
theorem AgreeOn.incrementSketch (h : AgreeOn [key] s t) (pairs : List (Bytes × Nat)) :
    Corresponding [key] (s.incrementSketch key pairs) (t.incrementSketch key pairs) :=
  h.update rfl

/-- Deleting keys counts those that were there. -/
theorem AgreeOn.deleteEach (h : AgreeOn keys s t) (count : Nat) (gone : List Bytes)
    (hgone : ∀ key ∈ gone, key ∈ keys) :
    (t.deleteEach count gone).2 = (s.deleteEach count gone).2 ∧
      AgreeOn keys (s.deleteEach count gone).1 (t.deleteEach count gone).1 := by
  induction gone generalizing s t count with
  | nil => exact ⟨rfl, h⟩
  | cons key rest ih =>
      have hcontains := h.contains_eq (hgone key List.mem_cons_self)
      have hnext : AgreeOn keys (s.delete key).1 (t.delete key).1 := by
        refine ⟨h.config_eq, h.machine_eq, ?_⟩
        intro other hother
        rw [get?_delete, get?_delete, h.get?_eq other hother]
      rw [Store.deleteEach, Store.deleteEach]
      dsimp only [delete] at hnext ⊢
      rw [hcontains]
      exact ih hnext _ fun other hother => hgone other (List.mem_cons_of_mem key hother)

end Store

open Store

/-- **Locality.**  A command tells the same in stores that agree on its keys, and leaves
stores that agree on them. -/
theorem Command.run_agrees (c : Command) {s t : Store} (h : AgreeOn c.keys s t) :
    Corresponding c.keys (c.run s) (c.run t) := by
  cases c with
  | push e key values => exact (AgreeOn.pushList h e values).map _
  | pop e key count =>
      obtain _ | _ | count := count
      · exact (AgreeOn.popList h e 1).map _
      · have hlength := AgreeOn.listLength_eq h
        have hcontains : t.contains key = s.contains key := h.contains_eq List.mem_cons_self
        exact h.answering (by rw [hcontains, hlength])
      · exact (AgreeOn.popList h e (count + 1)).map _
  | length key => exact h.answering (by rw [AgreeOn.listLength_eq h])
  | range key start stop => exact h.answering (by rw [listRange, listRange, AgreeOn.list?_eq h])
  | index key i => exact h.answering (by rw [listIndex, listIndex, AgreeOn.list?_eq h])
  | bloomReserve key errorRate capacity => exact (AgreeOn.reserveBloom h _ _).map _
  | bloomAdd key item => exact ((AgreeOn.addBloomAll h [item]).map _).map _
  | bloomAddAll key items => exact (AgreeOn.addBloomAll h items).map _
  | bloomContains key item =>
      exact h.answering (by rw [Store.bloomContains, Store.bloomContains, AgreeOn.bloom?_eq h])
  | bloomContainsAll key items =>
      exact h.answering (by
        rw [Store.bloomContainsAll, Store.bloomContainsAll, AgreeOn.bloom?_eq h])
  | bloomInfo key =>
      exact h.answering (by rw [Store.bloomInfo, Store.bloomInfo, AgreeOn.bloom?_eq h])
  | bloomCard key =>
      exact h.answering (by rw [Store.bloomCard, Store.bloomCard, AgreeOn.bloom?_eq h])
  | cuckooReserve key errorRate capacity => exact (AgreeOn.reserveCuckoo h _ _).map _
  | cuckooAdd key item => exact ((AgreeOn.extendCuckoo h _).map _).map _
  | cuckooAddNew key item => exact (AgreeOn.extendCuckoo h _).map _
  | cuckooContains key item =>
      exact h.answering (by rw [Store.cuckooContains, Store.cuckooContains, AgreeOn.cuckoo?_eq h])
  | cuckooContainsAll key items =>
      exact h.answering (by
        rw [Store.cuckooContainsAll, Store.cuckooContainsAll, AgreeOn.cuckoo?_eq h])
  | cuckooRemove key item => exact (AgreeOn.removeCuckoo h item).map _
  | cuckooInfo key =>
      exact h.answering (by rw [Store.cuckooInfo, Store.cuckooInfo, AgreeOn.cuckoo?_eq h])
  | sketchCreate key rows columns => exact (AgreeOn.putSketch h _).map _
  | sketchCreateFor key errorRate probability => exact (AgreeOn.createSketchFor h _ _).map _
  | sketchIncrement key pairs => exact (AgreeOn.incrementSketch h pairs).map _
  | sketchEstimates key items =>
      exact h.answering (by
        rw [Store.sketchEstimates, Store.sketchEstimates, AgreeOn.sketchInfo_eq h])
  | sketchInfo key => exact h.answering (by rw [AgreeOn.sketchInfo_eq h])
  | delete keys =>
      obtain ⟨hcount, hstores⟩ := h.deleteEach 0 keys fun _ hkey => hkey
      exact ⟨congrArg (fun n => Except.ok (Reply.ofCount n)) hcount, rfl, hstores⟩
  | present keys =>
      have hcount : keys.countP t.contains = keys.countP s.contains :=
        List.countP_congr fun key hkey => by rw [h.contains_eq hkey]
      exact h.answering (by rw [hcount])
  | type key =>
      have hname : t.typeName? key = s.typeName? key := by
        rw [typeName?, typeName?, AgreeOn.get?_eq_of_singleton h]
      exact h.answering (by rw [hname])

namespace Store

/-! ### Requests -/

/-- **Frame.**  A request leaves the keys that it does not name alone. -/
theorem serve_frame (s : Store) (r : Request) :
    (s.serve r).store.config = s.config ∧ (s.serve r).store.machine = s.machine ∧
      ∀ key, key ∉ r.names → (s.serve r).store.get? key = s.get? key := by
  cases hcommand : r.command? with
  | none =>
      obtain ⟨e, hserve⟩ := exists_refusal hcommand
      rw [hserve]
      exact ⟨rfl, rfl, fun _ _ => rfl⟩
  | some c =>
      rw [(serve_of_command? hcommand).2, ← Request.keys_of_command? hcommand]
      exact c.run_frame s

/-- **Locality of requests.** -/
theorem serve_agrees {s t : Store} {r : Request} (h : AgreeOn r.names s t) :
    (t.serve r).reply = (s.serve r).reply ∧ (t.serve r).events = (s.serve r).events ∧
      AgreeOn r.names (s.serve r).store (t.serve r).store := by
  cases hcommand : r.command? with
  | none =>
      obtain ⟨e, hserve⟩ := exists_refusal hcommand
      rw [hserve, hserve]
      exact ⟨rfl, rfl, h⟩
  | some c =>
      rw [← Request.keys_of_command? hcommand] at h ⊢
      obtain ⟨hanswer, hevents, hstores⟩ := c.run_agrees h
      rw [serve_eq_of_command? hcommand, serve_eq_of_command? hcommand]
      exact ⟨congrArg replyTo hanswer, hevents, hstores⟩

/-- A request leaves what another one depends on that names none of its keys. -/
theorem agreeOn_serve (s : Store) {q r : Request} (h : ∀ key ∈ r.names, key ∉ q.names) :
    AgreeOn r.names s (s.serve q).store := by
  obtain ⟨hconfig, hmachine, hframe⟩ := s.serve_frame q
  exact ⟨hconfig, hmachine, fun key hkey => hframe key (h key hkey)⟩

/-- **Requests on different keys are independent**: a request leaves the keys that it does
not name, and of two requests that name no key in common each tells the same whichever is
served first, and they leave the same store. -/
theorem serve_independent (s : Store) (q : Request) :
    (∀ key, key ∉ q.names → (s.serve q).store.get? key = s.get? key) ∧
      ∀ r : Request, (∀ key ∈ q.names, key ∉ r.names) →
        (((s.serve r).store.serve q).reply = (s.serve q).reply ∧
          ((s.serve r).store.serve q).events = (s.serve q).events) ∧
        (((s.serve q).store.serve r).reply = (s.serve r).reply ∧
          ((s.serve q).store.serve r).events = (s.serve r).events) ∧
        ((s.serve r).store.serve q).store = ((s.serve q).store.serve r).store := by
  refine ⟨(s.serve_frame q).2.2, fun r h => ?_⟩
  obtain ⟨hreplyq, heventsq, hstoresq⟩ := serve_agrees (s.agreeOn_serve h)
  obtain ⟨hreplyr, heventsr, hstoresr⟩ :=
    serve_agrees (s.agreeOn_serve fun key hr hq => h key hq hr)
  refine ⟨⟨hreplyq, heventsq⟩, ⟨hreplyr, heventsr⟩, ?_⟩
  have hframeq := (s.serve r).store.serve_frame q
  have hframer := (s.serve q).store.serve_frame r
  apply ext_get?
  · rw [hstoresq.config_eq, hframer.1]
  · rw [hstoresq.machine_eq, hframer.2.1]
  intro key
  by_cases hq : key ∈ q.names
  · rw [hstoresq.get?_eq key hq, hframer.2.2 key (h key hq)]
  · rw [hframeq.2.2 key hq]
    by_cases hr : key ∈ r.names
    · exact (hstoresr.get?_eq key hr).symm
    · rw [(s.serve_frame r).2.2 key hr, hframer.2.2 key hr, (s.serve_frame q).2.2 key hq]

/-- Deleting two keys, and making a cuckoo filter under a third. -/
theorem serve_independent_deleting :
    let s := (empty ⟨id, id, fun _ _ => 0⟩ {}).after
      [⟨CommandName.rpush.bytes, [[0x61], [0x78]]⟩]
    let q : Request := ⟨CommandName.del.bytes, [[0x61], [0x62]]⟩
    let r : Request := ⟨CommandName.cfAdd.bytes, [[0x63], [0x78]]⟩
    [0x63] ∉ q.names ∧ (s.serve q).store.get? [0x63] = s.get? [0x63] ∧
      (∀ key ∈ q.names, key ∉ r.names) ∧
        ((s.serve r).store.serve q).store = ((s.serve q).store.serve r).store := by
  intro s q r
  have hdisjoint : ∀ key ∈ q.names, key ∉ r.names := by decide +kernel
  have hother : [0x63] ∉ q.names := by decide +kernel
  obtain ⟨hframe, hindependent⟩ := serve_independent s q
  exact ⟨hother, hframe _ hother, hdisjoint, (hindependent r hdisjoint).2.2⟩

end Store

end CompactStore
