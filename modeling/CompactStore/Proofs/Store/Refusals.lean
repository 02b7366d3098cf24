import CompactStore.Proofs.Command.Names
import CompactStore.Proofs.Store.Invariants

/-!
# What errors and reads leave

An error leaves every value as it was: a command fails before it changes anything,
with one exception.  A cuckoo filter finds out that it is full only after a chain of
evictions, and undoing the chain does not give back the random choices that it used.
So stores are compared at rest, with these choices left out.

A filter that was just made is full for no item, so no error leaves a new key behind.
Finding a value fails at a missing key and at another type only: `Store.LooksUp`.
-/

namespace CompactStore

/-- A value with the random choices that it used forgotten. -/
def Value.atRest : Value → Value
  | cuckoo f => cuckoo (f.advance 0)
  | value => value

namespace Store

/-- Two stores that differ at most in the random choices that were used. -/
structure SameAtRest (s t : Store) : Prop where
  config : t.config = s.config
  machine : t.machine = s.machine
  values : ∀ key, (t.get? key).map Value.atRest = (s.get? key).map Value.atRest

/-- An outcome that leaves the store at rest as it was if it is an error. -/
def Careful {α : Type} (s : Store) (o : Outcome α) : Prop :=
  ∀ e, o.answer = .error e → SameAtRest s o.store

variable {α β : Type} {s t : Store} {key : Bytes}

/-- A store is the same at rest as itself. -/
theorem SameAtRest.refl (s : Store) : SameAtRest s s :=
  ⟨rfl, rfl, fun _ => rfl⟩

/-- Stores that are the same at rest have the same keys. -/
theorem SameAtRest.contains (h : SameAtRest s t) (key : Bytes) :
    t.contains key = s.contains key := by
  have hsome : ∀ u : Store, u.contains key = ((u.get? key).map Value.atRest).isSome := by
    intro u
    rw [Option.isSome_map, contains_eq_isSome]
  rw [hsome, hsome, h.values]

/-- Putting a value that is the same at rest leaves the store the same at rest. -/
theorem sameAtRest_put {held : Option Value}
    (h : held.map Value.atRest = (s.get? key).map Value.atRest) :
    SameAtRest s (s.put key held) := by
  refine ⟨config_put s key held, machine_put s key held, ?_⟩
  intro other
  by_cases hkey : key = other
  · subst hkey
    rw [get?_put_self, h]
  · rw [get?_put_of_ne s held hkey]

/-! ### Operations -/

/-- What only answers is careful. -/
theorem careful_answering (s : Store) (answer : Except Error α) :
    s.Careful (s.answering answer) :=
  fun _ _ => SameAtRest.refl s

/-- Putting an answer into other words is as careful as the answer. -/
theorem careful_map {o : Outcome α} (f : α → β) (h : s.Careful o) : s.Careful (o.map f) := by
  intro e he
  rw [answer_map] at he
  cases hanswer : o.answer with
  | ok a =>
      rw [hanswer] at he
      cases he
  | error e' => exact h e' hanswer

/-- A change is careful if its errors leave what the key holds as it was at rest. -/
theorem careful_update {f : Option Value → Effect α}
    (h : ∀ e, (f (s.get? key)).answer = .error e →
      (f (s.get? key)).held.map Value.atRest = (s.get? key).map Value.atRest) :
    s.Careful (s.update key f) :=
  fun e he => sameAtRest_put (h e he)

/-- Pushing is careful: it fails only where it changes nothing. -/
theorem careful_pushList (s : Store) (key : Bytes) (e : End) (values : List Bytes) :
    s.Careful (s.pushList key e values) := by
  apply careful_update
  rcases s.get? key with _ | (q | f | f | sketch)
  case none => exact nofun
  case some.list => exact nofun
  all_goals exact fun _ _ => rfl

/-- Popping is careful: it fails only where it changes nothing. -/
theorem careful_popList (s : Store) (key : Bytes) (e : End) (count : Nat) :
    s.Careful (s.popList key e count) := by
  apply careful_update
  rcases s.get? key with _ | (q | f | f | sketch)
  case some.list => exact nofun
  all_goals exact fun _ _ => rfl

/-- Reserving a bloom filter is careful. -/
theorem careful_reserveBloom (s : Store) (key : Bytes) (errorRate : Float) (capacity : Nat) :
    s.Careful (s.reserveBloom key errorRate capacity) := by
  apply careful_update
  rcases s.get? key with _ | value
  · dsimp only
    split
    · exact fun _ _ => rfl
    · exact nofun
  · exact fun _ _ => rfl

/-- Adding to a bloom filter is careful: it fails only before anything is added. -/
theorem careful_addBloomAll (s : Store) (key : Bytes) (items : List Bytes) :
    s.Careful (s.addBloomAll key items) := by
  apply careful_update
  rcases s.get? key with _ | (q | f | f | sketch)
  case none =>
    dsimp only
    split
    · exact fun _ _ => rfl
    · exact nofun
  case some.bloom => exact nofun
  all_goals exact fun _ _ => rfl

/-- Reserving a cuckoo filter is careful. -/
theorem careful_reserveCuckoo (s : Store) (key : Bytes) (errorRate : Float) (capacity : Nat) :
    s.Careful (s.reserveCuckoo key errorRate capacity) := by
  apply careful_update
  rcases s.get? key with _ | value
  · dsimp only
    split
    · exact fun _ _ => rfl
    · exact nofun
  · exact fun _ _ => rfl

/-- An addition fails only when the filter is full. -/
theorem answer_additionEffect {events : List Event} {f : CuckooFilter}
    {result : CuckooFilter.Addition} {e : Error}
    (h : (additionEffect events f result).answer = .error e) : result = .full := by
  cases result with
  | full => rfl
  | added => cases h
  | present => cases h

/-- **An addition that fails** leaves the filter at rest as it was, and does not make
one: a filter that is full for an item was not just made. -/
theorem careful_extendCuckoo (h : s.CuckoosShaped) (key : Bytes)
    {addition : CuckooFilter → CuckooFilter × CuckooFilter.Addition}
    (haddition : ∀ f, CuckooFilter.Restrained f (addition f)) :
    s.Careful (s.extendCuckoo key addition) := by
  apply careful_update
  intro e he
  rcases hkey : s.get? key with _ | (q | f | f | sketch)
  case none =>
    rw [hkey] at he
    dsimp only at he ⊢
    split at he
    · rfl
    · rename_i f hcreate
      obtain ⟨-, hempty⟩ := CuckooFilter.create_spec hcreate
      exact absurd (answer_additionEffect he) ((haddition f).of_empty hempty)
  case some.cuckoo =>
    rw [hkey] at he
    dsimp only at he ⊢
    obtain ⟨used, hused⟩ := (haddition f).of_full (h key f hkey) (answer_additionEffect he)
    rw [held_additionEffect, hused]
    rfl
  all_goals rfl

/-- Taking out of a filter changes nothing where it fails. -/
theorem careful_removal (remove : CuckooFilter → Bytes → CuckooFilter × Bool) (item : Bytes)
    (held : Option Value) (e : Error) (he : (removal remove item held).answer = .error e) :
    (removal remove item held).held = held := by
  rcases held with _ | (q | f | f | sketch)
  case some.cuckoo => cases he
  all_goals rfl

/-- Removing from a cuckoo filter is careful. -/
theorem careful_removeCuckoo (s : Store) (key item : Bytes) :
    s.Careful (s.removeCuckoo key item) := by
  rw [removeCuckoo_eq]
  apply careful_update
  intro e he
  rw [careful_removal _ _ _ _ he]

/-- Creating a sketch is careful. -/
theorem careful_putSketch (s : Store) (key : Bytes)
    (make : Unit → Except SizeError CountMinSketch) : s.Careful (s.putSketch key make) := by
  apply careful_update
  rcases s.get? key with _ | value
  · dsimp only
    split
    · exact fun _ _ => rfl
    · exact nofun
  · exact fun _ _ => rfl

/-- Counting is careful: it fails only where it changes nothing. -/
theorem careful_incrementSketch (s : Store) (key : Bytes) (pairs : List (Bytes × Nat)) :
    s.Careful (s.incrementSketch key pairs) := by
  apply careful_update
  rcases s.get? key with _ | (q | f | f | sketch)
  case some.sketch => exact nofun
  all_goals exact fun _ _ => rfl

/-! ### Looking a value up -/

/-- An answer that fails at a missing key or at a value of another type, and at nothing else. -/
def LooksUp (x : Except Error α) : Prop :=
  ∀ e, x = .error e → e = .noSuchKey ∨ e = .wrongType

/-- What is found is looked up. -/
theorem looksUp_ok (a : α) : LooksUp (.ok a) :=
  nofun

/-- A look-up may fail at a missing key. -/
theorem looksUp_noSuchKey : LooksUp (.error .noSuchKey : Except Error α) :=
  fun _ he => .inl (Except.error.inj he).symm

/-- A look-up may fail at a value of another type. -/
theorem looksUp_wrongType : LooksUp (.error .wrongType : Except Error α) :=
  fun _ he => .inr (Except.error.inj he).symm

/-- A look-up that goes on with look-ups is one. -/
theorem LooksUp.bind {x : Except Error α} {f : α → Except Error β} (h : LooksUp x)
    (hf : ∀ a, LooksUp (f a)) : LooksUp (x.bind f) := by
  cases x with
  | ok a => exact hf a
  | error e => exact fun e' he => Except.error.inj he ▸ h e rfl

/-- Finding the list of a key is a look-up. -/
theorem looksUp_list? (s : Store) (key : Bytes) : LooksUp (s.list? key) := by
  unfold list?
  split
  · exact looksUp_ok _
  · exact looksUp_wrongType
  · exact looksUp_ok _

/-- Finding the bloom filter of a key is a look-up. -/
theorem looksUp_bloom? (s : Store) (key : Bytes) : LooksUp (s.bloom? key) := by
  unfold bloom?
  split
  · exact looksUp_ok _
  · exact looksUp_wrongType
  · exact looksUp_ok _

/-- Finding the cuckoo filter of a key is a look-up. -/
theorem looksUp_cuckoo? (s : Store) (key : Bytes) : LooksUp (s.cuckoo? key) := by
  unfold cuckoo?
  split
  · exact looksUp_ok _
  · exact looksUp_wrongType
  · exact looksUp_ok _

/-- Finding the sketch of a key is a look-up. -/
theorem looksUp_sketchInfo (s : Store) (key : Bytes) : LooksUp (s.sketchInfo key) := by
  unfold sketchInfo
  split
  · exact looksUp_ok _
  · exact looksUp_wrongType
  · exact looksUp_noSuchKey

/-- So is finding a bloom filter that must be there. -/
theorem looksUp_bloomInfo (s : Store) (key : Bytes) : LooksUp (s.bloomInfo key) := by
  apply (looksUp_bloom? s key).bind
  rintro (_ | f)
  · exact looksUp_noSuchKey
  · exact looksUp_ok f

/-- So is finding a cuckoo filter that must be there. -/
theorem looksUp_cuckooInfo (s : Store) (key : Bytes) : LooksUp (s.cuckooInfo key) := by
  apply (looksUp_cuckoo? s key).bind
  rintro (_ | f)
  · exact looksUp_noSuchKey
  · exact looksUp_ok f

end Store

namespace Command

/-! ### Commands -/

/-- **A command that fails** leaves the store at rest as it was. -/
theorem careful_run (c : Command) {s : Store} (h : s.CuckoosShaped) : s.Careful (c.run s) := by
  cases c with
  | push e key values => exact Store.careful_map _ (s.careful_pushList key e values)
  | pop e key count =>
      obtain _ | _ | count := count
      · exact Store.careful_map _ (s.careful_popList key e 1)
      · exact s.careful_answering _
      · exact Store.careful_map _ (s.careful_popList key e (count + 1))
  | bloomReserve key errorRate capacity =>
      exact Store.careful_map _ (s.careful_reserveBloom key errorRate capacity)
  | bloomAdd key item =>
      exact Store.careful_map _ (Store.careful_map _ (s.careful_addBloomAll key [item]))
  | bloomAddAll key items => exact Store.careful_map _ (s.careful_addBloomAll key items)
  | cuckooReserve key errorRate capacity =>
      exact Store.careful_map _ (s.careful_reserveCuckoo key errorRate capacity)
  | cuckooAdd key item =>
      rw [run, Store.addCuckoo]
      have hadd := Store.careful_extendCuckoo h key fun f => f.restrained_addOnce item
      exact Store.careful_map _ (Store.careful_map _ hadd)
  | cuckooAddNew key item =>
      rw [run, Store.addCuckooNew]
      have hadd := Store.careful_extendCuckoo h key fun f => f.restrained_addNew item
      exact Store.careful_map _ hadd
  | cuckooRemove key item => exact Store.careful_map _ (s.careful_removeCuckoo key item)
  | sketchCreate key rows columns => exact Store.careful_map _ (s.careful_putSketch key _)
  | sketchCreateFor key errorRate probability =>
      exact Store.careful_map _ (s.careful_putSketch key _)
  | sketchIncrement key pairs => exact Store.careful_map _ (s.careful_incrementSketch key pairs)
  | delete keys =>
      intro e herror
      cases herror
  | _ => exact s.careful_answering _

/-- A reply to what succeeded is no error if no reply to a result is. -/
theorem isError_of_map_eq_ok {α : Type} {f : α → Reply} {x : Except Error α} {reply : Reply}
    (hf : ∀ a, (f a).isError = false) (h : x.map f = .ok reply) : reply.isError = false := by
  cases x with
  | ok a =>
      obtain rfl := Except.ok.inj h
      exact hf a
  | error e => cases h

/-- A value that may be missing is replied as no error. -/
theorem isError_ofBytes? (bytes? : Option Bytes) : (Reply.ofBytes? bytes?).isError = false := by
  cases bytes? <;> rfl

/-- Popped values that may be missing are replied as no error. -/
theorem isError_manyReply (taken : Option (List Bytes)) : (manyReply taken).isError = false := by
  cases taken <;> rfl

/-- **A good answer is no error reply.** -/
theorem isError_of_ok (c : Command) (s : Store) {reply : Reply}
    (h : (c.run s).answer = .ok reply) : reply.isError = false := by
  cases c with
  | pop e key count =>
      obtain _ | _ | count := count
      · exact isError_of_map_eq_ok (fun taken => isError_ofBytes? _) h
      · rw [run, Store.answering] at h
        dsimp only at h
        split at h
        · exact isError_of_map_eq_ok (fun _ => rfl) h
        · cases h
          rfl
      · exact isError_of_map_eq_ok isError_manyReply h
  | index key i => exact isError_of_map_eq_ok isError_ofBytes? h
  | cuckooAdd key item =>
      rw [run] at h
      exact isError_of_map_eq_ok (fun _ => rfl) h
  | cuckooAddNew key item =>
      rw [run] at h
      exact isError_of_map_eq_ok (fun _ => rfl) h
  | cuckooRemove key item =>
      rw [run] at h
      exact isError_of_map_eq_ok (fun _ => rfl) h
  | delete keys =>
      cases h
      rfl
  | present keys =>
      cases h
      rfl
  | type key =>
      cases h
      rfl
  | _ => exact isError_of_map_eq_ok (fun _ => rfl) h

end Command

/-- Whether a command of this name only reads. -/
def CommandName.onlyReads : CommandName → Bool
  | llen | lrange | lindex => true
  | bfExists | bfMexists | bfInfo | bfCard => true
  | cfExists | cfMexists | cfInfo => true
  | cmsQuery | cmsInfo => true
  | exist | type => true
  | _ => false

/-- **A reading command** leaves the store, whatever it answers. -/
theorem Command.store_run_of_onlyReads {c : Command} (h : c.name.onlyReads = true) (s : Store) :
    (c.run s).store = s := by
  cases c with
  | push e => cases e <;> cases h
  | pop e => cases e <;> cases h
  | bloomReserve => cases h
  | bloomAdd => cases h
  | bloomAddAll => cases h
  | cuckooReserve => cases h
  | cuckooAdd => cases h
  | cuckooAddNew => cases h
  | cuckooRemove => cases h
  | sketchCreate => cases h
  | sketchCreateFor => cases h
  | sketchIncrement => cases h
  | delete => cases h
  | _ => rfl

namespace Store

/-- **Errors and reads change nothing.**  After any requests: a request that is
answered with an error leaves the same keys with the same values, but for the random
choices that cuckoo filters used; and a request for a reading command leaves the store
itself, whatever the answer is. -/
theorem serve_leaves {machine : Machine} {config : Config} {requests : List Request} {s : Store}
    (hs : s = (empty machine config).after requests) (r : Request) :
    ((s.serve r).reply.isError = true →
      SameAtRest s (s.serve r).store ∧
        ∀ key, (s.serve r).store.contains key = s.contains key) ∧
    (∀ name, r.asksFor? = some name → name.onlyReads = true → (s.serve r).store = s) := by
  have hshaped : s.CuckoosShaped := hs ▸ cuckoosShaped_after machine config requests
  cases hcommand : r.command? with
  | none =>
      obtain ⟨-, hstore⟩ := serve_of_command?_none (s := s) hcommand
      rw [hstore]
      exact ⟨fun _ => ⟨.refl s, fun _ => rfl⟩, fun _ _ _ => rfl⟩
  | some c =>
      obtain ⟨hreply, hstore⟩ := serve_of_command? (s := s) hcommand
      rw [hreply, hstore]
      constructor
      · intro herror
        cases hanswer : (c.run s).answer with
        | ok reply =>
            have hok : reply.isError = false := c.isError_of_ok s hanswer
            rw [hanswer, replyTo, hok] at herror
            cases herror
        | error e =>
            have hsame := c.careful_run hshaped e hanswer
            exact ⟨hsame, hsame.contains⟩
      · intro name hname hreads
        rw [Request.name_of_command? hcommand] at hname
        obtain rfl := Option.some.inj hname
        exact Command.store_run_of_onlyReads hreads s

/-- An item cannot be added to a key that holds a list, and the list stays. -/
theorem serve_add_to_list :
    let s := (empty ⟨id, id, fun _ _ => 0⟩ {}).after
      [⟨CommandName.rpush.bytes, [[0x6B], [0x61]]⟩]
    let response := s.serve ⟨CommandName.cfAdd.bytes, [[0x6B], [0x62]]⟩
    response.reply = .ofError .wrongType ∧ SameAtRest s response.store ∧
      (s.serve ⟨CommandName.llen.bytes, [[0x6B]]⟩).store = s := by
  have hreply : (((empty ⟨id, id, fun _ _ => 0⟩ {}).after
      [⟨CommandName.rpush.bytes, [[0x6B], [0x61]]⟩]).serve
        ⟨CommandName.cfAdd.bytes, [[0x6B], [0x62]]⟩).reply = .ofError .wrongType := rfl
  refine ⟨hreply, ?_, ?_⟩
  · exact ((serve_leaves rfl _).1 (hreply ▸ rfl)).1
  · exact (serve_leaves rfl _).2 .llen rfl rfl

end Store

end CompactStore
