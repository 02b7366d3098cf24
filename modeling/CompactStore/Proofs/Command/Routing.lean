import CompactStore.Proofs.Store.Refusals

/-!
# Where a command goes

A name is upper-cased and then routed in two steps.  With the marker of a family it goes to
this family, which knows its commands by their exact names and refuses every other; without
a marker it must be the name of a command on lists or on any type.  The two steps come to
the same as looking the name up among all commands: `Store.route_eq_routeInSteps`.

So a name of a command reaches its family, and what comes back is never that there is no
such command, since an error tells at which stage it arose: `Command.running_run`.  Any
other name is refused without a look at the store; but the two exits do not quote it alike,
since a family was given the upper-cased name and has no other: `Store.serve_routed`.
-/

namespace CompactStore

/-! ### Where an error arises -/

/-- The stages at which an error can arise. -/
inductive Stage where
  | configuring
  | routing
  | reading
  | running
deriving DecidableEq, Repr

/-- The stage at which an error arises. -/
def Error.stage : Error → Stage
  | size _ | filterFull | wrongType | keyExists | noSuchKey => .running
  | arity _ | notInteger | negative | notFloat => .reading
  | unknownCommand _ => .routing
  | parameter _ _ _ | unreadable => .configuring

/-- **The text of an unknown command** is told from the texts of all other errors. -/
theorem Error.stage_of_message {e : Error} {name : String}
    (h : e.message = (unknownCommand name).message) : e.stage = .routing := by
  -- behind the first four characters only this text goes on with a u
  have hchar : e.message.toList[4]? = some 'u' := by
    rw [h]
    unfold message
    simp
  unfold message at hchar
  cases e with
  | unknownCommand => rfl
  | size reason => cases reason <;> simp [SizeError.message] at hchar
  | _ => simp at hchar

/-- Whether what fails, fails at this stage. -/
def FailsAt {α : Type} (stage : Stage) (x : Except Error α) : Prop :=
  ∀ e, x = .error e → e.stage = stage

section FailsAt

variable {α β : Type} {stage : Stage} {x : Except Error α}

/-- What succeeds does not fail at another stage. -/
theorem failsAt_ok (stage : Stage) (a : α) : FailsAt stage (.ok a) :=
  fun _ he => nomatch he

/-- An error fails at its own stage. -/
theorem failsAt_error (e : Error) : FailsAt e.stage (.error e : Except Error α) :=
  fun _ he => Except.error.inj he ▸ rfl

/-- Two steps that fail at one stage only fail at this stage one after the other. -/
theorem FailsAt.bind (h : FailsAt stage x) {f : α → Except Error β}
    (hf : ∀ a, FailsAt stage (f a)) : FailsAt stage (x >>= f) := by
  cases x with
  | ok a => exact hf a
  | error e => exact fun e' he => Except.error.inj he ▸ h e rfl

/-- What is made of a result does not change the stage at which it fails. -/
theorem FailsAt.map (h : FailsAt stage x) (f : α → β) : FailsAt stage (x.map f) := by
  cases x with
  | ok a => exact failsAt_ok stage (f a)
  | error e => exact fun e' he => Except.error.inj he ▸ h e rfl

end FailsAt

namespace Command

/-! ### Reading -/

/-- An argument that is no integer is refused as it is read. -/
theorem reading_integer (arg : Bytes) : FailsAt .reading (integer arg) := by
  unfold integer
  split
  · exact failsAt_ok _ _
  · exact failsAt_error .notInteger

/-- An argument that is no number is refused as it is read. -/
theorem reading_natural (arg : Bytes) : FailsAt .reading (natural arg) := by
  unfold natural
  split
  · exact failsAt_ok _ _
  · exact failsAt_error .notInteger

/-- An argument that is no float is refused as it is read. -/
theorem reading_float (arg : Bytes) : FailsAt .reading (float arg) := by
  unfold float
  split
  · exact failsAt_ok _ _
  · exact failsAt_error .notFloat

/-- A count below zero is refused as it is read, as one that is no integer is. -/
theorem reading_popCount (arg : Bytes) : FailsAt .reading (popCount arg) := by
  apply (reading_integer arg).bind
  intro n
  split
  · exact failsAt_error .negative
  · exact failsAt_ok _ _

/-- Items and their numbers are read pair by pair, so the first number that is none is refused.
-/
theorem reading_pairs (args : List Bytes) : FailsAt .reading (pairs args) := by
  induction args using pairs.induct with
  | case1 item delta rest ih =>
      apply (reading_natural delta).bind
      intro n
      exact ih.bind fun _ => failsAt_ok _ _
  | case2 args hshort =>
      unfold pairs
      split
      · exact absurd rfl (hshort _ _ _)
      · exact failsAt_ok _ _

/-- **What is not read** has the wrong number of arguments, or an argument that is no
number. -/
theorem reading_read (written : CommandName) (args : List Bytes) :
    FailsAt .reading (read written args) := by
  unfold read
  split
  all_goals try exact failsAt_ok _ _
  -- what is left are the commands with numbers among their arguments
  case h_4 | h_6 => exact (reading_popCount _).bind fun _ => failsAt_ok _ _
  case h_9 => exact (reading_integer _).bind fun _ => failsAt_ok _ _
  case h_8 =>
    exact (reading_integer _).bind fun _ => (reading_integer _).bind fun _ => failsAt_ok _ _
  case h_10 | h_17 =>
    exact (reading_float _).bind fun _ => (reading_natural _).bind fun _ => failsAt_ok _ _
  case h_24 =>
    exact (reading_natural _).bind fun _ => (reading_natural _).bind fun _ => failsAt_ok _ _
  case h_25 =>
    exact (reading_float _).bind fun _ => (reading_float _).bind fun _ => failsAt_ok _ _
  case h_26 =>
    split
    · exact (reading_pairs _).bind fun _ => failsAt_ok _ _
    · exact failsAt_error (.arity _)
  -- and any other number of arguments
  exact failsAt_error (.arity _)

end Command

namespace Store

/-! ### Running -/

variable {s : Store} {key : Bytes}

/-- A look-up fails as the command runs. -/
theorem LooksUp.failsAt {α : Type} {x : Except Error α} (h : LooksUp x) :
    FailsAt .running x := by
  intro e he
  obtain rfl | rfl := h e he
  · rfl
  · rfl

/-- Making a value fails at a key that is there, and at sizes that are refused. -/
theorem running_making {α : Type} (made : Except SizeError α) (value : α → Value)
    (report : α → List Event) (held : Option Value) :
    FailsAt .running (making made value report held).answer := by
  cases held with
  | some v => exact failsAt_error .keyExists
  | none =>
      cases made with
      | error reason => exact failsAt_error (.size reason)
      | ok a => exact failsAt_ok _ _

/-- Pushing fails only as looking for the list does. -/
theorem running_pushList (s : Store) (key : Bytes) (e : End) (values : List Bytes) :
    FailsAt .running (s.pushList key e values).answer := by
  unfold pushList update
  rcases s.get? key with _ | (q | f | f | sketch)
  case none => exact failsAt_ok _ _
  case some.list => exact failsAt_ok _ _
  all_goals exact failsAt_error .wrongType

/-- Popping fails only as looking for the list does. -/
theorem running_popList (s : Store) (key : Bytes) (e : End) (count : Nat) :
    FailsAt .running (s.popList key e count).answer := by
  unfold popList update
  rcases s.get? key with _ | (q | f | f | sketch)
  case none => exact failsAt_ok _ _
  case some.list => exact failsAt_ok _ _
  all_goals exact failsAt_error .wrongType

/-- Adding to a bloom filter fails as looking for it and as making one does. -/
theorem running_addBloomAll (s : Store) (key : Bytes) (items : List Bytes) :
    FailsAt .running (s.addBloomAll key items).answer := by
  unfold addBloomAll update
  rcases s.get? key with _ | (q | f | f | sketch)
  case none =>
    dsimp only
    split
    · exact failsAt_error (.size _)
    · exact failsAt_ok _ _
  case some.bloom => exact failsAt_ok _ _
  all_goals exact failsAt_error .wrongType

/-- An addition fails only at a filter that is full. -/
theorem running_additionEffect (events : List Event) (f : CuckooFilter)
    (result : CuckooFilter.Addition) :
    FailsAt .running (additionEffect events f result).answer := by
  cases result with
  | full => exact failsAt_error .filterFull
  | _ => exact failsAt_ok _ _

/-- Adding to a cuckoo filter fails as looking for it, as making one and as an addition does. -/
theorem running_extendCuckoo (s : Store) (key : Bytes)
    (addition : CuckooFilter → CuckooFilter × CuckooFilter.Addition) :
    FailsAt .running (s.extendCuckoo key addition).answer := by
  unfold extendCuckoo update
  rcases s.get? key with _ | (q | f | f | sketch)
  case none =>
    dsimp only
    split
    · exact failsAt_error (.size _)
    · exact running_additionEffect _ _ _
  case some.cuckoo => exact running_additionEffect _ _ _
  all_goals exact failsAt_error .wrongType

/-- Taking out of a filter fails only at a value of another type. -/
theorem running_removal (remove : CuckooFilter → Bytes → CuckooFilter × Bool) (item : Bytes)
    (held : Option Value) : FailsAt .running (removal remove item held).answer := by
  rcases held with _ | (q | f | f | sketch)
  case none => exact failsAt_ok _ _
  case some.cuckoo => exact failsAt_ok _ _
  all_goals exact failsAt_error .wrongType

/-- Counting fails at a missing key, and at a value of another type. -/
theorem running_incrementSketch (s : Store) (key : Bytes) (pairs : List (Bytes × Nat)) :
    FailsAt .running (s.incrementSketch key pairs).answer := by
  unfold incrementSketch update
  rcases s.get? key with _ | (q | f | f | sketch)
  case none => exact failsAt_error .noSuchKey
  case some.sketch => exact failsAt_ok _ _
  all_goals exact failsAt_error .wrongType

/-- Making a sketch fails at a key that is there, and at dimensions that are refused. -/
theorem running_putSketch (s : Store) (key : Bytes)
    (make : Unit → Except SizeError CountMinSketch) :
    FailsAt .running (s.putSketch key make).answer := by
  rw [putSketch_eq]
  exact running_making _ _ _ _

end Store

namespace Command

open Store

/-- **A command that was read** fails because of what its key holds or of a size, and in no
other way. -/
theorem running_run (c : Command) (s : Store) : FailsAt .running (c.run s).answer := by
  cases c with
  | push e key values => exact (s.running_pushList key e values).map _
  | pop e key count =>
      obtain _ | _ | count := count
      · exact (s.running_popList key e 1).map _
      · rw [run, answering]
        dsimp only
        split
        · exact ((s.looksUp_list? key).failsAt.map _).map _
        · exact failsAt_ok _ _
      · exact (s.running_popList key e (count + 1)).map _
  | length key => exact ((s.looksUp_list? key).failsAt.map _).map _
  | range key start stop => exact ((s.looksUp_list? key).failsAt.map _).map _
  | index key i => exact ((s.looksUp_list? key).failsAt.map _).map _
  | bloomReserve key errorRate capacity =>
      rw [run, answer_map, reserveBloom_eq]
      exact (running_making _ _ _ _).map _
  | bloomAdd key item => exact ((s.running_addBloomAll key [item]).map _).map _
  | bloomAddAll key items => exact (s.running_addBloomAll key items).map _
  | bloomContains key item => exact ((s.looksUp_bloom? key).failsAt.map _).map _
  | bloomContainsAll key items => exact ((s.looksUp_bloom? key).failsAt.map _).map _
  | bloomInfo key => exact (s.looksUp_bloomInfo key).failsAt.map _
  | bloomCard key => exact ((s.looksUp_bloom? key).failsAt.map _).map _
  | cuckooReserve key errorRate capacity =>
      rw [run, answer_map, reserveCuckoo_eq]
      exact (running_making _ _ _ _).map _
  | cuckooAdd key item => exact ((s.running_extendCuckoo key _).map _).map _
  | cuckooAddNew key item => exact (s.running_extendCuckoo key _).map _
  | cuckooContains key item => exact ((s.looksUp_cuckoo? key).failsAt.map _).map _
  | cuckooContainsAll key items => exact ((s.looksUp_cuckoo? key).failsAt.map _).map _
  | cuckooRemove key item =>
      rw [run, answer_map, removeCuckoo_eq]
      exact (running_removal _ _ _).map _
  | cuckooInfo key => exact (s.looksUp_cuckooInfo key).failsAt.map _
  | sketchCreate key rows columns => exact (s.running_putSketch key _).map _
  | sketchCreateFor key errorRate probability => exact (s.running_putSketch key _).map _
  | sketchIncrement key pairs => exact (s.running_incrementSketch key pairs).map _
  | sketchEstimates key items => exact ((s.looksUp_sketchInfo key).failsAt.map _).map _
  | sketchInfo key => exact (s.looksUp_sketchInfo key).failsAt.map _
  | delete keys => exact failsAt_ok _ _
  | present keys => exact failsAt_ok _ _
  | type key => exact failsAt_ok _ _

end Command

/-! ### The two steps -/

/-- The family whose marker a name begins with. -/
def Family.ofMarker? (name : Bytes) : Option Family :=
  [bloom, cuckoo, sketch].find? fun family =>
    family.marker?.any fun marker => marker.isPrefixOf name

/-- A name has a family exactly if it begins with the marker of one. -/
theorem Family.isSome_ofMarker? (name : Bytes) : (ofMarker? name).isSome = isMarked name :=
  List.isSome_find?

namespace CommandName

/-- A command has its name. -/
theorem eq_of_ofBytes? {written : Bytes} {name : CommandName} (h : ofBytes? written = some name) :
    written = name.bytes := by
  have hsame := List.find?_some h
  exact (beq_iff_eq.mp hsame).symm

/-- What is no name is not found. -/
theorem ofBytes?_eq_none {written : Bytes} (h : ∀ name : CommandName, written ≠ name.bytes) :
    ofBytes? written = none := by
  cases hfound : ofBytes? written with
  | none => rfl
  | some name => exact absurd (eq_of_ofBytes? hfound) (h name)

/-- A name has the marker of its own family, or none if the family has none. -/
theorem ofMarker?_bytes (name : CommandName) :
    Family.ofMarker? name.bytes = none ∨ Family.ofMarker? name.bytes = some name.family := by
  cases name <;> decide

end CommandName

namespace Store

variable {s : Store} {written : Bytes} {args : List Bytes}

/-- Routes a command in two steps: by the marker of a family, and else by its name. -/
def routeInSteps (s : Store) (written : Bytes) (args : List Bytes) : Outcome Reply :=
  let upper := Bytes.upper written
  match Family.ofMarker? upper with
  | some family => s.executeIn family upper args
  | none =>
    match CommandName.ofBytes? upper with
    | some name => s.executeIn name.family upper args
    | none => s.answering (.error (unknownCommand written))

/-- A family runs the commands that it knows. -/
theorem executeIn_bytes (s : Store) (name : CommandName) (args : List Bytes) :
    s.executeIn name.family name.bytes args = s.runNamed name args := by
  unfold executeIn
  rw [CommandName.ofBytes?_bytes, Option.filter_some, if_pos (beq_self_eq_true _)]

/-- A family refuses what is no command. -/
theorem executeIn_unknown (h : ∀ name : CommandName, written ≠ name.bytes) (family : Family) :
    s.executeIn family written args = s.answering (.error (unknownCommand written)) := by
  unfold executeIn
  rw [CommandName.ofBytes?_eq_none h, Option.filter_none]

/-- The name of a command goes to its family. -/
theorem route_of_name {name : CommandName} (h : Bytes.upper written = name.bytes) :
    s.route written args = s.executeIn name.family (Bytes.upper written) args := by
  unfold route
  dsimp only
  rw [h, CommandName.ofBytes?_bytes, executeIn_bytes]

/-- What is no name of a command is refused. -/
theorem route_of_unknown (h : ∀ name : CommandName, Bytes.upper written ≠ name.bytes) :
    s.route written args = s.answering (.error (unknownCommand
      (if Family.isMarked (Bytes.upper written) then Bytes.upper written else written))) := by
  unfold route
  dsimp only
  rw [CommandName.ofBytes?_eq_none h]

/-- **Routing in two steps** comes to the same as looking up the name among all commands. -/
theorem route_eq_routeInSteps (s : Store) (written : Bytes) (args : List Bytes) :
    s.route written args = s.routeInSteps written args := by
  unfold routeInSteps
  dsimp only
  by_cases hknown : ∃ name : CommandName, Bytes.upper written = name.bytes
  case pos =>
    obtain ⟨name, hname⟩ := hknown
    rw [route_of_name hname, hname]
    obtain hnone | hfamily := name.ofMarker?_bytes
    · rw [hnone, CommandName.ofBytes?_bytes]
    · rw [hfamily]
  case neg =>
    have hunknown : ∀ name : CommandName, Bytes.upper written ≠ name.bytes :=
      fun name hname => hknown ⟨name, hname⟩
    rw [route_of_unknown hunknown, CommandName.ofBytes?_eq_none hunknown,
      ← Family.isSome_ofMarker?]
    cases Family.ofMarker? (Bytes.upper written) with
    | none => rfl
    | some family => exact (executeIn_unknown hunknown family).symm

/-- What a known name answers is not that it is unknown: an error arises later, and an answer
that is good is no error at all. -/
theorem reply_runNamed_ne (s : Store) (name : CommandName) (args : List Bytes) (text : String) :
    replyTo (s.runNamed name args).answer ≠ .ofError (.unknownCommand text) := by
  have hlater : ∀ e : Error, e.stage ≠ .routing →
      replyTo (.error e) ≠ .ofError (.unknownCommand text) :=
    fun e hstage hreply => hstage (Error.stage_of_message (Reply.err.inj hreply))
  unfold runNamed
  cases hread : Command.read name args with
  | error e =>
      have hstage : e.stage = .reading := Command.reading_read name args e hread
      exact hlater e (hstage ▸ nofun)
  | ok c =>
      dsimp only
      cases hanswer : (c.run s).answer with
      | error e =>
          have hstage : e.stage = .running := c.running_run s e hanswer
          exact hlater e (hstage ▸ nofun)
      | ok reply =>
          have hgood : reply.isError = false := c.isError_of_ok s hanswer
          rintro rfl
          cases hgood

/-- **Every command goes to its family, and nothing else goes anywhere.**  A request is routed
in two steps.  Under the name of a command, in any case, it responds as the family does to the
upper-cased name, and never that there is no such command.  Any other request is refused as
an unknown command, without a look at the store.  The error quotes the name as it was sent,
unless it has the marker of a family once it is upper-cased: then the family refuses it, and
quotes the upper-cased name. -/
theorem serve_routed (s : Store) (r : Request) :
    s.serve r = (s.routeInSteps r.name r.args).response ∧
    (∀ name : CommandName, Bytes.upper r.name = name.bytes →
      s.serve r = (s.executeIn name.family (Bytes.upper r.name) r.args).response ∧
        ∀ text, (s.serve r).reply ≠ .ofError (.unknownCommand text)) ∧
    ((∀ name : CommandName, Bytes.upper r.name ≠ name.bytes) →
      s.serve r = {
        reply := .ofError (unknownCommand
          (if Family.isMarked (Bytes.upper r.name) then Bytes.upper r.name else r.name))
        store := s
        events := [] }) := by
  have hserve : s.serve r = (s.route r.name r.args).response := rfl
  refine ⟨?_, ?_, ?_⟩
  · rw [hserve, route_eq_routeInSteps]
  · intro name hname
    rw [hserve, route_of_name hname]
    refine ⟨rfl, ?_⟩
    rw [hname, executeIn_bytes]
    exact s.reply_runNamed_ne name r.args
  · intro hunknown
    rw [hserve, route_of_unknown hunknown]
    rfl

/-- A name in mixed case goes to its family; a name that is no text is quoted as it was sent,
and a name with a marker is not. -/
theorem serve_routed_mixed_case :
    let s := empty ⟨id, id, fun _ n => n⟩ {}
    (s.serve ⟨Bytes.ofAscii "rPush".toList, [[0x6B], [0x61]]⟩ =
        (s.executeIn .list CommandName.rpush.bytes [[0x6B], [0x61]]).response) ∧
      s.serve ⟨[0x67, 0xFF], []⟩ = ⟨.err "ERR unknown command 'g\uFFFD'", s, []⟩ ∧
      s.serve ⟨Bytes.ofAscii "Cf.x".toList, []⟩ = ⟨.err "ERR unknown command 'CF.X'", s, []⟩ := by
  intro s
  refine ⟨?_, ?_, ?_⟩
  · exact ((s.serve_routed _).2.1 .rpush (by decide)).1
  · exact (s.serve_routed ⟨[0x67, 0xFF], []⟩).2.2 (by rintro (_ | _) <;> decide)
  · exact (s.serve_routed ⟨Bytes.ofAscii "Cf.x".toList, []⟩).2.2 (by rintro (_ | _) <;> decide)

/-- **Not every name is quoted as it was sent.** -/
theorem serve_routed_requoted :
    let r : Request := ⟨Bytes.ofAscii "bf.foo".toList, []⟩
    let s := empty ⟨id, id, fun _ n => n⟩ {}
    (∀ name : CommandName, Bytes.upper r.name ≠ name.bytes) ∧
      (s.serve r).reply = .err "ERR unknown command 'BF.FOO'" ∧
      (s.serve r).reply ≠ .ofError (unknownCommand r.name) := by
  intro r s
  have hreply : (s.serve r).reply = .err "ERR unknown command 'BF.FOO'" := rfl
  refine ⟨?_, hreply, ?_⟩
  · rintro (_ | _) <;> decide
  · intro hquoted
    have htext := Reply.err.inj (hreply.symm.trans hquoted)
    exact absurd htext (by decide +kernel)

end Store

end CompactStore
