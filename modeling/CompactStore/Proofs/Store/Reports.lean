import CompactStore.Proofs.Store.DefaultFilters

/-!
# What a command reports

A value is made in two ways.  Where a command asks for it, it is made as it is asked for, and
reported once it stands.  Where a command adds to a missing key, what it adds to is made by
itself, and this is reported first; so the report may be all that is left.

`Told` lists what an operation under a key may report, with what the key holds before and what
comes of it.  Every command is one of its four cases: `Command.told_run`.
-/

namespace CompactStore

/-- How a value is made. -/
inductive Making where
  | byItself
  | asAsked
deriving DecidableEq, Repr

/-- How a command makes a value if its key is missing. -/
def Command.making? : Command → Option Making
  | push .. | bloomAdd .. | bloomAddAll .. | cuckooAdd .. | cuckooAddNew .. => some .byItself
  | bloomReserve .. | cuckooReserve .. | sketchCreate .. | sketchCreateFor .. => some .asAsked
  | _ => none

/-- The key that a command works on, or the first of several. -/
def Command.key (c : Command) : Bytes :=
  c.keys.headD []

/-- The report before a value of a family is made by itself. -/
def Family.announcement? : Family → Option Event
  | list => some .creatingList
  | bloom => some .creatingBloom
  | cuckoo => some .creatingCuckoo
  | sketch | generic => none

/-- The report after a value was made as it was asked for. -/
def Value.confirmation? : Value → Option Event
  | list _ => none
  | bloom f => some (.bloomReserved f.capacity f.errorRate)
  | cuckoo f => some (.cuckooReserved f.capacity f.errorRate)
  | sketch s => some (.sketchCreated s.rows s.columns)

/-- The report of a value that is made. -/
def Making.report? (how : Making) (value : Value) : Option Event :=
  match how with
  | byItself => value.family.announcement?
  | asAsked => value.confirmation?

/-- What an outcome is under one key. -/
def Outcome.under {α : Type} (o : Outcome α) (key : Bytes) : Effect α where
  answer := o.answer
  held := o.store.get? key
  events := o.events

/-- What an operation of a family reports of what a key holds before, and what comes of it. -/
inductive Told {α : Type} (how? : Option Making) (family : Family) (before : Option Value)
    (effect : Effect α) : Prop where
  | quiet (hevents : effect.events = []) (hanswer : effect.answer ≠ .error .filterFull)
      (hmissing : before = none → effect.held = none ∧ how? ≠ some .byItself)
  | full (hevents : effect.events = [.cuckooFull]) (hanswer : effect.answer = .error .filterFull)
      (hthere : before ≠ none)
  | made {how : Making} {value : Value} {e : Event} (hhow : how? = some how)
      (hreport : how.report? value = some e) (hevents : effect.events = [e])
      (hanswer : effect.answer ≠ .error .filterFull) (hmissing : before = none)
      (hheld : effect.held = some value)
  | nothing {e : Event} (hhow : how? = some .byItself) (hreport : family.announcement? = some e)
      (hevents : effect.events = [e]) (hanswer : effect.answer ≠ .error .filterFull)
      (hmissing : before = none) (hheld : effect.held = none)

namespace Told

variable {α β : Type} {how? : Option Making} {family : Family} {before : Option Value}
  {effect : Effect α} {s : Store} {key : Bytes}

/-- A value that is there is reported on only if it is full. -/
theorem of_some {value : Value} (hevents : effect.events = [])
    (hanswer : effect.answer ≠ .error .filterFull) : Told how? family (some value) effect :=
  .quiet hevents hanswer nofun

/-- An operation that makes no value is quiet. -/
theorem of_keeps (hevents : effect.events = []) (hanswer : effect.answer ≠ .error .filterFull)
    (hmissing : before = none → effect.held = none) : Told none family before effect :=
  .quiet hevents hanswer fun hnone => ⟨hmissing hnone, nofun⟩

/-- An operation that only looks up is quiet. -/
theorem of_read {x : Except Error α} (h : Store.LooksUp x) :
    Told none family (s.get? key) ((s.answering x).under key) := by
  refine of_keeps rfl ?_ id
  intro hfull
  obtain hother | hother := h _ hfull <;> cases hother

/-- An operation that only reads, and cannot fail, is quiet. -/
theorem of_ok (a : α) : Told none family (s.get? key) ((s.answering (.ok a)).under key) :=
  of_read (Store.looksUp_ok a)

/-- What is made of a result has the errors of the result. -/
theorem map_eq_error {x : Except Error α} {f : α → β} {e : Error} :
    x.map f = .error e ↔ x = .error e := by
  cases x <;> simp [Except.map]

/-- Putting an answer into other words reports the same. -/
theorem map {o : Outcome α} (h : Told how? family before (o.under key)) (f : α → β) :
    Told how? family before ((o.map f).under key) := by
  have hanswer : (o.map f).answer = .error .filterFull ↔ o.answer = .error .filterFull :=
    map_eq_error
  cases h with
  | quiet hevents hfull hmissing => exact .quiet hevents (mt hanswer.mp hfull) hmissing
  | full hevents hfull hthere => exact .full hevents (hanswer.mpr hfull) hthere
  | made hhow hreport hevents hfull hmissing hheld =>
      exact .made hhow hreport hevents (mt hanswer.mp hfull) hmissing hheld
  | nothing hhow hreport hevents hfull hmissing hheld =>
      exact .nothing hhow hreport hevents (mt hanswer.mp hfull) hmissing hheld

/-- An operation does under its key what it does to what the key holds. -/
theorem update {f : Option Value → Effect α} (h : Told how? family (s.get? key) (f (s.get? key))) :
    Told how? family (s.get? key) ((s.update key f).under key) := by
  have hunder : (s.update key f).under key = f (s.get? key) :=
    congrArg (Effect.mk _ · _) (s.get?_put_self key _)
  rwa [hunder]

end Told

/-! ### Parameters of what was made -/

/-- A new bloom filter has the capacity and the rate that it was made with. -/
theorem BloomFilter.parameters_of_create {ln : Float → Float} {capacity : Nat} {rate : Float}
    {f : BloomFilter} (h : create ln capacity rate = .ok f) :
    f.capacity = capacity ∧ f.errorRate = rate := by
  obtain ⟨size, numHashes, -, -, -, rfl⟩ := exists_of_create h
  exact ⟨rfl, rfl⟩

/-- A new cuckoo filter has the capacity and the rate that it was made with. -/
theorem CuckooFilter.parameters_of_create {log2 : Float → Float} {capacity : Nat} {rate : Float}
    {stream : Nat → Nat} {f : CuckooFilter} (h : create log2 capacity rate stream = .ok f) :
    f.capacity = capacity ∧ f.errorRate = rate := by
  obtain ⟨-, -, n, -, rfl⟩ := create_eq_ok_iff.mp h
  exact ⟨rfl, rfl⟩

namespace Store

variable {α : Type} {how? : Option Making} {family : Family}

/-! ### Operations that make a value by themselves -/

/-- What is kept of a list that was just made. -/
theorem told_keepList (q : Quicklist) (n : Nat) :
    Told (some .byItself) .list none
      { answer := .ok n, held := keepList q, events := [.creatingList] } := by
  by_cases hempty : q.isEmpty = true
  · exact .nothing rfl rfl rfl nofun rfl (if_pos hempty)
  · exact .made rfl rfl rfl nofun rfl (if_neg hempty)

/-- Pushing makes a list by itself. -/
theorem told_pushList (s : Store) (key : Bytes) (e : End) (values : List Bytes) :
    Told (some .byItself) .list (s.get? key) ((s.pushList key e values).under key) := by
  apply Told.update
  rcases s.get? key with _ | (q | f | f | sketch)
  case none => exact told_keepList _ _
  all_goals exact .of_some rfl nofun

/-- Adding to a bloom filter makes one by itself. -/
theorem told_addBloomAll (s : Store) (key : Bytes) (items : List Bytes) :
    Told (some .byItself) .bloom (s.get? key) ((s.addBloomAll key items).under key) := by
  apply Told.update
  rcases s.get? key with _ | (q | f | f | sketch)
  case none =>
    dsimp only
    split
    · exact .nothing rfl rfl rfl nofun rfl rfl
    · exact .made rfl rfl rfl nofun rfl rfl
  all_goals exact .of_some rfl nofun

/-- A filter that is there may turn out to be full. -/
theorem told_additionEffect (value : Value) (f : CuckooFilter) (result : CuckooFilter.Addition) :
    Told how? .cuckoo (some value) (additionEffect [] f result) := by
  cases result with
  | full => exact .full rfl rfl nofun
  | _ => exact .of_some rfl nofun

/-- A filter that was just made is not full. -/
theorem told_additionEffect_new (f : CuckooFilter) {result : CuckooFilter.Addition}
    (h : result ≠ .full) :
    Told (some .byItself) .cuckoo none (additionEffect [.creatingCuckoo] f result) := by
  cases result with
  | full => exact absurd rfl h
  | _ => exact .made rfl rfl rfl nofun rfl rfl

/-- Adding to a cuckoo filter makes one by itself, and reports when it is full. -/
theorem told_extendCuckoo (s : Store) (key : Bytes)
    {addition : CuckooFilter → CuckooFilter × CuckooFilter.Addition}
    (haddition : ∀ f, CuckooFilter.Restrained f (addition f)) :
    Told (some .byItself) .cuckoo (s.get? key) ((s.extendCuckoo key addition).under key) := by
  apply Told.update
  rcases s.get? key with _ | (q | f | f | sketch)
  case none =>
    dsimp only
    split
    · exact .nothing rfl rfl rfl nofun rfl rfl
    · rename_i f hcreate
      obtain ⟨-, hempty⟩ := CuckooFilter.create_spec hcreate
      exact told_additionEffect_new _ ((haddition f).of_empty hempty)
  case some.cuckoo => exact told_additionEffect _ _ _
  all_goals exact .of_some rfl nofun

/-! ### Operations that make a value as it is asked for -/

/-- A value that is made is confirmed, and nothing is said of one that is not. -/
theorem told_making {made : Except SizeError α} {value : α → Value} {report : α → List Event}
    (hreport : ∀ a, made = .ok a → ∃ e, (value a).confirmation? = some e ∧ report a = [e])
    (held : Option Value) :
    Told (some .asAsked) family held (making made value report held) := by
  cases held with
  | some v => exact .of_some rfl nofun
  | none =>
      cases made with
      | error reason => exact .quiet rfl nofun fun _ => ⟨rfl, nofun⟩
      | ok a =>
          obtain ⟨e, hconfirmed, hevents⟩ := hreport a rfl
          exact .made rfl hconfirmed hevents nofun rfl rfl

/-- A bloom filter is made as it is asked for. -/
theorem told_reserveBloom (s : Store) (key : Bytes) (errorRate : Float) (capacity : Nat) :
    Told (some .asAsked) .bloom (s.get? key)
      ((s.reserveBloom key errorRate capacity).under key) := by
  rw [reserveBloom_eq]
  refine Told.update (told_making ?_ _)
  intro f hmade
  obtain ⟨hcapacity, hrate⟩ := BloomFilter.parameters_of_create hmade
  exact ⟨_, rfl, by rw [hcapacity, hrate]⟩

/-- A cuckoo filter is made as it is asked for. -/
theorem told_reserveCuckoo (s : Store) (key : Bytes) (errorRate : Float) (capacity : Nat) :
    Told (some .asAsked) .cuckoo (s.get? key)
      ((s.reserveCuckoo key errorRate capacity).under key) := by
  rw [reserveCuckoo_eq]
  refine Told.update (told_making ?_ _)
  intro f hmade
  obtain ⟨hcapacity, hrate⟩ := CuckooFilter.parameters_of_create hmade
  exact ⟨_, rfl, by rw [hcapacity, hrate]⟩

/-- A sketch is made as it is asked for. -/
theorem told_putSketch (s : Store) (key : Bytes)
    (make : Unit → Except SizeError CountMinSketch) :
    Told (some .asAsked) .sketch (s.get? key) ((s.putSketch key make).under key) := by
  rw [putSketch_eq]
  exact Told.update (told_making (fun sketch _ => ⟨_, rfl, rfl⟩) _)

/-! ### Operations that make nothing -/

/-- Popping makes nothing, though it may take the list away. -/
theorem told_popList (s : Store) (key : Bytes) (e : End) (count : Nat) :
    Told none .list (s.get? key) ((s.popList key e count).under key) := by
  apply Told.update
  rcases s.get? key with _ | (q | f | f | sketch)
  case none => exact .of_keeps rfl nofun id
  all_goals exact .of_some rfl nofun

/-- Taking an item out makes nothing. -/
theorem told_removal (remove : CuckooFilter → Bytes → CuckooFilter × Bool) (item : Bytes)
    (held : Option Value) : Told none .cuckoo held (removal remove item held) := by
  rcases held with _ | (q | f | f | sketch)
  case none => exact .of_keeps rfl nofun id
  all_goals exact .of_some rfl nofun

/-- Removing from a cuckoo filter makes nothing. -/
theorem told_removeCuckoo (s : Store) (key item : Bytes) :
    Told none .cuckoo (s.get? key) ((s.removeCuckoo key item).under key) := by
  rw [removeCuckoo_eq]
  exact Told.update (told_removal _ _ _)

/-- Counting makes nothing. -/
theorem told_incrementSketch (s : Store) (key : Bytes) (pairs : List (Bytes × Nat)) :
    Told none .sketch (s.get? key) ((s.incrementSketch key pairs).under key) := by
  apply Told.update
  rcases s.get? key with _ | (q | f | f | sketch)
  case none => exact .of_keeps rfl nofun id
  all_goals exact .of_some rfl nofun

end Store

namespace Command

open Store

/-- Deleting keys does not bring a missing key back. -/
theorem get?_delete_of_none {s : Store} {other : Bytes} (keys : List Bytes)
    (h : s.get? other = none) : ((delete keys).run s).store.get? other = none := by
  have hheld : ((delete keys).run s).store.get? other =
      if other ∈ keys then none else s.get? other := s.get?_deleteEach 0 keys other
  rw [hheld, h, ite_self]

/-- **One command** under its key. -/
theorem told_run (c : Command) (s : Store) :
    Told c.making? c.family (s.get? c.key) ((c.run s).under c.key) := by
  cases c with
  | push e key values => exact (s.told_pushList key e values).map _
  | pop e key count =>
      obtain _ | _ | count := count
      · exact (s.told_popList key e 1).map _
      · rw [run]
        split
        · exact ((Told.of_read (s.looksUp_list? key)).map _).map _
        · exact .of_ok _
      · exact (s.told_popList key e (count + 1)).map _
  | length key => exact ((Told.of_read (s.looksUp_list? key)).map _).map _
  | range key start stop => exact ((Told.of_read (s.looksUp_list? key)).map _).map _
  | index key i => exact ((Told.of_read (s.looksUp_list? key)).map _).map _
  | bloomReserve key errorRate capacity => exact (s.told_reserveBloom key errorRate capacity).map _
  | bloomAdd key item => exact ((s.told_addBloomAll key [item]).map _).map _
  | bloomAddAll key items => exact (s.told_addBloomAll key items).map _
  | bloomContains key item => exact ((Told.of_read (s.looksUp_bloom? key)).map _).map _
  | bloomContainsAll key items => exact ((Told.of_read (s.looksUp_bloom? key)).map _).map _
  | bloomInfo key => exact (Told.of_read (s.looksUp_bloomInfo key)).map _
  | bloomCard key => exact ((Told.of_read (s.looksUp_bloom? key)).map _).map _
  | cuckooReserve key errorRate capacity =>
      exact (s.told_reserveCuckoo key errorRate capacity).map _
  | cuckooAdd key item =>
      exact ((s.told_extendCuckoo key fun f => f.restrained_addOnce item).map _).map _
  | cuckooAddNew key item =>
      exact (s.told_extendCuckoo key fun f => f.restrained_addNew item).map _
  | cuckooContains key item => exact ((Told.of_read (s.looksUp_cuckoo? key)).map _).map _
  | cuckooContainsAll key items => exact ((Told.of_read (s.looksUp_cuckoo? key)).map _).map _
  | cuckooRemove key item => exact (s.told_removeCuckoo key item).map _
  | cuckooInfo key => exact (Told.of_read (s.looksUp_cuckooInfo key)).map _
  | sketchCreate key rows columns =>
      exact (s.told_putSketch key fun _ => CountMinSketch.create rows columns).map _
  | sketchCreateFor key errorRate probability =>
      exact (s.told_putSketch key fun _ =>
        CountMinSketch.createFor s.machine.ln errorRate probability).map _
  | sketchIncrement key pairs => exact (s.told_incrementSketch key pairs).map _
  | sketchEstimates key items => exact ((Told.of_read (s.looksUp_sketchInfo key)).map _).map _
  | sketchInfo key => exact (Told.of_read (s.looksUp_sketchInfo key)).map _
  | delete keys =>
      refine .of_keeps rfl ?_ (get?_delete_of_none keys)
      intro hfull
      cases hfull
  | present keys => exact .of_ok _
  | type key => exact .of_ok _

/-- No command makes anything under another key than its own. -/
theorem get?_run_of_ne (c : Command) {s : Store} {other : Bytes} (hother : other ≠ c.key)
    (hmissing : s.get? other = none) : (c.run s).store.get? other = none := by
  by_cases hkey : other ∈ c.keys
  case neg => exact ((c.run_frame s).2.2 other hkey).trans hmissing
  case pos =>
  cases c with
  | delete keys => exact get?_delete_of_none keys hmissing
  | present keys => exact hmissing
  | _ => exact absurd (List.mem_singleton.mp hkey) hother

end Command

end CompactStore
