import CompactStore.Proofs.Command.Routing
import CompactStore.Proofs.Store.Reports

/-!
# What the log tells

A request adds one record to the log at most.  It tells of a key that is added, of a filter
that is full, or of a value that came to nothing after it was announced.  The last kind is why
the log says more than the keys: a value that is made by itself is announced before anyone
knows whether it can be made, and before it is known whether a list keeps anything that was
pushed.  Then the store stays as it was, and the record is all that is left.

`Logged` has these cases, and `serve_logs` says what they come to in reachable stores.
-/

namespace CompactStore

/-- The records that a response adds to the log. -/
def Store.Response.log (response : Store.Response) : List LogRecord :=
  response.events.map Event.logRecord

/-- The records that tell of a value: before it is made by itself, or after it was made as it
was asked for. -/
inductive LogRecord.TellsOf : Making → LogRecord → Prop where
  | creating (what : String) : TellsOf .byItself ⟨.debug, "creating " ++ what⟩
  | reserved (what shape : String) : TellsOf .asAsked ⟨.info, what ++ " reserved " ++ shape⟩
  | created (what shape : String) : TellsOf .asAsked ⟨.info, what ++ " created " ++ shape⟩

/-- An announcement tells of a value that is made by itself. -/
theorem Family.tellsOf_announcement {family : Family} {e : Event}
    (h : family.announcement? = some e) : e.logRecord.TellsOf .byItself := by
  cases family <;> cases h
  · exact .creating "list"
  · exact .creating "bloom filter with default parameters"
  · exact .creating "cuckoo filter with default parameters"

/-- The words for a new sketch end with its shape in parentheses. -/
theorem Event.message_sketchCreated (rows columns : Nat) :
    (sketchCreated rows columns).message = "count-min sketch" ++ " created " ++
      ("(" ++ String.ofList (Decimal.render rows) ++ " rows x "
        ++ String.ofList (Decimal.render columns) ++ " columns)") := by
  have hhead : "count-min sketch created (" = "count-min sketch" ++ " created " ++ "(" := by
    decide +kernel
  calc (sketchCreated rows columns).message
      = "count-min sketch created (" ++ String.ofList (Decimal.render rows) ++ " rows x "
          ++ String.ofList (Decimal.render columns) ++ " columns)" := rfl
    _ = _ := by simp only [hhead, String.append_assoc]

/-- A report tells of a value in the way in which it is made. -/
theorem Making.tellsOf_report {how : Making} {value : Value} {e : Event}
    (h : how.report? value = some e) : e.logRecord.TellsOf how := by
  cases how with
  | byItself => exact Family.tellsOf_announcement h
  | asAsked =>
      cases value with
      | list q => cases h
      | bloom f =>
          cases h
          exact .reserved "bloom filter" _
      | cuckoo f =>
          cases h
          exact .reserved "cuckoo filter" _
      | sketch s =>
          cases h
          rw [Event.logRecord, Event.message_sketchCreated]
          exact .created "count-min sketch" _

/-- No value is told of by a record that a filter is full. -/
theorem LogRecord.TellsOf.severity_ne {how : Making} {record : LogRecord}
    (h : record.TellsOf how) : record.severity ≠ .warn := by
  cases h <;> nofun

/-- **The text of a full filter** is told from the texts of all other errors. -/
theorem Error.eq_filterFull_of_message {e : Error} (h : e.message = filterFull.message) :
    e = filterFull := by
  -- behind the first four characters only this text goes on with an f
  have hchar : e.message.toList[4]? = some 'f' := by
    rw [h]
    rfl
  unfold message at hchar
  cases e with
  | filterFull => rfl
  | size reason => cases reason <;> simp [SizeError.message] at hchar
  | _ => simp at hchar

namespace Store

/-- A key that was missing is there. -/
def AddsKey (s t : Store) : Prop :=
  ∃ key, s.contains key = false ∧ t.contains key = true

/-- A request for a command that makes by itself what it adds to, under a key that is missing
before and is missing afterwards. -/
def MakesNothing (s : Store) (r : Request) : Prop :=
  ∃ c, r.command? = some c ∧ c.making? = some .byItself ∧ s.contains c.key = false ∧
    (s.serve r).store.contains c.key = false

/-- What a request may add to the log. -/
inductive Logged (s : Store) (r : Request) : Prop where
  | quiet (hlog : (s.serve r).log = []) (hreply : (s.serve r).reply ≠ .ofError .filterFull)
      (hkeys : ¬ AddsKey s (s.serve r).store) (hmade : ¬ MakesNothing s r)
  | full (hlog : (s.serve r).log = [Event.cuckooFull.logRecord])
      (hreply : (s.serve r).reply = .ofError .filterFull)
      (hkeys : ¬ AddsKey s (s.serve r).store) (hmade : ¬ MakesNothing s r)
  | made {c : Command} {how : Making} {value : Value} {e : Event}
      (hcommand : r.command? = some c) (hhow : c.making? = some how)
      (hreport : how.report? value = some e) (hlog : (s.serve r).log = [e.logRecord])
      (hreply : (s.serve r).reply ≠ .ofError .filterFull) (hmissing : s.get? c.key = none)
      (hheld : (s.serve r).store.get? c.key = some value)
      (hothers : ∀ key, key ≠ c.key → s.get? key = none → (s.serve r).store.get? key = none)
  | nothing {c : Command} {e : Event}
      (hcommand : r.command? = some c) (hhow : c.making? = some .byItself)
      (hreport : c.family.announcement? = some e) (hlog : (s.serve r).log = [e.logRecord])
      (hreply : (s.serve r).reply ≠ .ofError .filterFull) (hmissing : s.get? c.key = none)
      (hkeys : ¬ AddsKey s (s.serve r).store)
      (hheld : (s.serve r).store.get? c.key = none)

variable {s : Store} {r : Request} {c : Command}

/-- A request that reads as no command is refused before anything runs. -/
theorem exists_refusal_of_stage (h : r.command? = none) :
    ∃ e : Error, e.stage ≠ .running ∧
      s.serve r = { reply := .ofError e, store := s, events := [] } := by
  cases hname : r.asksFor? with
  | some name =>
      rw [Request.command?_of_asksFor? hname] at h
      cases hread : Command.read name r.args with
      | ok c =>
          rw [hread] at h
          cases h
      | error e =>
          have hstage : e.stage = .reading := Command.reading_read name r.args e hread
          exact ⟨e, hstage ▸ nofun, serve_of_read_error hname hread⟩
  | none =>
      have hunknown : ∀ name : CommandName, Bytes.upper r.name ≠ name.bytes := by
        intro name hbytes
        rw [Request.asksFor?, hbytes, CommandName.ofBytes?_bytes] at hname
        cases hname
      have hserve : s.serve r = (s.route r.name r.args).response := rfl
      rw [hserve, route_of_unknown hunknown]
      exact ⟨unknownCommand _, (nofun : Stage.routing ≠ .running), rfl⟩

/-- A command that is full for an item is the only one whose reply says so. -/
theorem reply_eq_filterFull_iff (hcommand : r.command? = some c) :
    (s.serve r).reply = .ofError .filterFull ↔ (c.run s).answer = .error .filterFull := by
  rw [(serve_of_command? hcommand).1]
  constructor
  · intro hreply
    cases hanswer : (c.run s).answer with
    | error e =>
        rw [hanswer] at hreply
        rw [Error.eq_filterFull_of_message (Reply.err.inj hreply)]
    | ok reply =>
        have hgood := c.isError_of_ok s hanswer
        rw [hanswer] at hreply
        obtain rfl : reply = .ofError .filterFull := hreply
        cases hgood
  · intro hanswer
    rw [hanswer]
    rfl

/-- Where the key of a command is not added, none is. -/
theorem not_addsKey (hcommand : r.command? = some c)
    (hkey : s.get? c.key = none → (s.serve r).store.get? c.key = none) :
    ¬ AddsKey s (s.serve r).store := by
  rintro ⟨key, hmissing, hthere⟩
  have hnone : s.get? key = none := contains_eq_false_iff.mp hmissing
  have hafter : (s.serve r).store.get? key = none := by
    by_cases hother : key = c.key
    · rw [hother] at hnone ⊢
      exact hkey hnone
    · rw [(serve_of_command? hcommand).2]
      exact c.get?_run_of_ne hother hnone
  rw [contains_eq_false_iff.mpr hafter] at hthere
  cases hthere

/-- A request that makes nothing asks for a command that makes a value by itself, and its key
stays missing. -/
theorem command_of_makesNothing (h : MakesNothing s r) (hcommand : r.command? = some c) :
    c.making? = some .byItself ∧ s.get? c.key = none ∧ (s.serve r).store.get? c.key = none := by
  obtain ⟨c', hcommand', hhow, hbefore, hafter⟩ := h
  obtain rfl := Option.some.inj (hcommand'.symm.trans hcommand)
  exact ⟨hhow, contains_eq_false_iff.mp hbefore, contains_eq_false_iff.mp hafter⟩

/-- A refused request logs nothing. -/
theorem logged_of_command?_none (s : Store) (hcommand : r.command? = none) : Logged s r := by
  obtain ⟨e, hstage, hserve⟩ := exists_refusal_of_stage (s := s) hcommand
  refine .quiet (by rw [hserve]; rfl) ?_ ?_ ?_
  · rw [hserve]
    intro hreply
    rw [Error.eq_filterFull_of_message (Reply.err.inj hreply)] at hstage
    exact hstage rfl
  · rw [hserve]
    rintro ⟨key, hmissing, hthere⟩
    rw [hmissing] at hthere
    cases hthere
  · rintro ⟨c, hsome, -⟩
    rw [hcommand] at hsome
    cases hsome

/-- **One request.** -/
theorem logged_serve (s : Store) (r : Request) : Logged s r := by
  cases hcommand : r.command? with
  | none => exact logged_of_command?_none s hcommand
  | some c =>
      have hlog : (s.serve r).log = (c.run s).events.map Event.logRecord :=
        congrArg Response.log (serve_eq_of_command? hcommand)
      have hreply := reply_eq_filterFull_iff (s := s) hcommand
      have hstore : (s.serve r).store = (c.run s).store := (serve_of_command? hcommand).2
      cases c.told_run s with
      | quiet hevents hanswer hmissing =>
          refine .quiet (hlog.trans (congrArg _ hevents)) (mt hreply.mp hanswer) ?_ ?_
          · exact not_addsKey hcommand fun hnone => hstore ▸ (hmissing hnone).1
          · intro hmakes
            obtain ⟨hhow, hnone, -⟩ := command_of_makesNothing hmakes hcommand
            exact (hmissing hnone).2 hhow
      | full hevents hanswer hthere =>
          refine .full (hlog.trans (congrArg _ hevents)) (hreply.mpr hanswer) ?_ ?_
          · exact not_addsKey hcommand fun hnone => absurd hnone hthere
          · exact fun hmakes => hthere (command_of_makesNothing hmakes hcommand).2.1
      | made hhow hreport hevents hanswer hmissing hheld =>
          refine .made hcommand hhow hreport (hlog.trans (congrArg _ hevents))
            (mt hreply.mp hanswer) hmissing (hstore ▸ hheld) ?_
          exact fun key hother hnone => hstore ▸ c.get?_run_of_ne hother hnone
      | nothing hhow hreport hevents hanswer hmissing hheld =>
          exact .nothing hcommand hhow hreport (hlog.trans (congrArg _ hevents))
            (mt hreply.mp hanswer) hmissing (not_addsKey hcommand fun _ => hstore ▸ hheld)
            (hstore ▸ hheld)

/-! ### What the cases come to -/

/-- That a filter is full tells of no new value. -/
theorem cuckooFull_not_tellsOf (how : Making) : ¬ Event.cuckooFull.logRecord.TellsOf how :=
  fun h => h.severity_ne rfl

/-- A record is of one of the two kinds, and there is one at most. -/
theorem Logged.records (h : Logged s r) :
    (s.serve r).log.length ≤ 1 ∧ ∀ record ∈ (s.serve r).log,
      (∃ how, record.TellsOf how) ∨ record = Event.cuckooFull.logRecord := by
  cases h with
  | quiet hlog => simp [hlog]
  | full hlog => simp [hlog]
  | @made _ how _ _ _ _ hreport hlog =>
      simp only [hlog, List.length_singleton, List.mem_singleton, forall_eq]
      exact ⟨Nat.le_refl 1, .inl ⟨how, Making.tellsOf_report hreport⟩⟩
  | nothing _ _ hreport hlog =>
      simp only [hlog, List.length_singleton, List.mem_singleton, forall_eq]
      exact ⟨Nat.le_refl 1, .inl ⟨.byItself, Family.tellsOf_announcement hreport⟩⟩

/-- A record tells of a value exactly if a key was added or nothing came of what was
announced. -/
theorem Logged.tellsOf_iff (h : Logged s r) :
    (∃ record ∈ (s.serve r).log, ∃ how, record.TellsOf how) ↔
      AddsKey s (s.serve r).store ∨ MakesNothing s r := by
  cases h with
  | quiet hlog _ hkeys hmade => simp [hlog, hkeys, hmade]
  | full hlog _ hkeys hmade => simp [hlog, hkeys, hmade, cuckooFull_not_tellsOf]
  | @made c how _ _ _ _ hreport hlog _ hmissing hheld =>
      refine iff_of_true ⟨_, by rw [hlog]; exact List.mem_singleton_self _, how,
        Making.tellsOf_report hreport⟩ (.inl ⟨c.key, contains_eq_false_iff.mpr hmissing, ?_⟩)
      rw [contains_eq_isSome, hheld, Option.isSome_some]
  | @nothing c _ hcommand hhow hreport hlog _ hmissing _ hheld =>
      refine iff_of_true ⟨_, by rw [hlog]; exact List.mem_singleton_self _, .byItself,
        Family.tellsOf_announcement hreport⟩ (.inr ⟨c, hcommand, hhow, ?_, ?_⟩)
      · exact contains_eq_false_iff.mpr hmissing
      · exact contains_eq_false_iff.mpr hheld

/-- A warning is logged exactly with the reply that a filter is full. -/
theorem Logged.warn_iff (h : Logged s r) :
    (∃ record ∈ (s.serve r).log, record.severity = .warn) ↔
      (s.serve r).reply = .ofError .filterFull := by
  cases h with
  | quiet hlog hreply => simp [hlog, hreply]
  | full hlog hreply =>
      refine iff_of_true ⟨_, by rw [hlog]; exact List.mem_singleton_self _, rfl⟩ hreply
  | made _ _ hreport hlog hreply =>
      simp [hlog, hreply, (Making.tellsOf_report hreport).severity_ne]
  | nothing _ _ hreport hlog hreply =>
      simp [hlog, hreply, (Family.tellsOf_announcement hreport).severity_ne]

/-- The record of a value that was made under a missing key. -/
theorem Logged.log_of_added (h : Logged s r) {key : Bytes} {value : Value}
    (hmissing : s.get? key = none) (hheld : (s.serve r).store.get? key = some value) :
    ∃ c how e, r.command? = some c ∧ c.making? = some how ∧ how.report? value = some e ∧
      (s.serve r).log = [e.logRecord] := by
  have hadds : AddsKey s (s.serve r).store := by
    refine ⟨key, contains_eq_false_iff.mpr hmissing, ?_⟩
    rw [contains_eq_isSome, hheld, Option.isSome_some]
  cases h with
  | quiet _ _ hkeys => exact absurd hadds hkeys
  | full _ _ hkeys => exact absurd hadds hkeys
  | nothing _ _ _ _ _ _ hkeys => exact absurd hadds hkeys
  | @made c how _ e hcommand hhow hreport hlog _ _ hmade hothers =>
      by_cases hkey : key = c.key
      · rw [hkey, hmade] at hheld
        obtain rfl := Option.some.inj hheld
        exact ⟨c, how, e, hcommand, hhow, hreport, hlog⟩
      · rw [hothers key hkey hmissing] at hheld
        cases hheld

/-- The record of a value that came to nothing. -/
theorem Logged.log_of_nothing (h : Logged s r) (hnothing : MakesNothing s r) :
    ∃ c e, r.command? = some c ∧ c.family.announcement? = some e ∧
      (s.serve r).log = [e.logRecord] := by
  cases h with
  | quiet _ _ _ hmade => exact absurd hnothing hmade
  | full _ _ _ hmade => exact absurd hnothing hmade
  | nothing hcommand _ hreport hlog => exact ⟨_, _, hcommand, hreport, hlog⟩
  | made hcommand _ _ _ _ _ hheld =>
      rw [(command_of_makesNothing hnothing hcommand).2.2] at hheld
      cases hheld

/-! ### Values that come to nothing -/

/-- A push under a missing key leaves nothing if it stores nothing. -/
theorem pushList_of_nothing {key : Bytes} {e : End} {values : List Bytes}
    (hmissing : s.get? key = none) (hheld : (s.pushList key e values).store.get? key = none) :
    (s.pushList key e values).store = s ∧ (s.pushList key e values).answer = .ok 0 := by
  obtain ⟨hanswer, hstore⟩ := pushList_of_keepList (.inl rfl) hmissing e values
  rw [hstore, get?_put_self] at hheld
  have hempty : ((Quicklist.empty s.config.listNodeMax).push e values).1.isEmpty = true := by
    by_contra hfilled
    rw [keepList, if_neg hfilled] at hheld
    cases hheld
  have hlen : ((Quicklist.empty s.config.listNodeMax).push e values).1.len = 0 :=
    of_decide_eq_true hempty
  exact ⟨by rw [hstore, hheld, ← hmissing, put_get?], by rw [hanswer, hlen]⟩

end Store

namespace Command

variable {c : Command} {s : Store}

/-- The name of a command belongs to its family. -/
theorem family_name (c : Command) : c.name.family = c.family := by
  cases c with
  | push e => cases e <;> rfl
  | pop e => cases e <;> rfl
  | _ => rfl

/-- What makes a value by itself pushes to a list or adds to a filter. -/
theorem cases_of_byItself (h : c.making? = some .byItself) :
    (∃ e key values, c = .push e key values) ∨
      c.name ∈ CommandName.adding ∧ c.keys = [c.key] := by
  cases c with
  | push e key values => exact .inl ⟨e, key, values, rfl⟩
  | bloomAdd | bloomAddAll | cuckooAdd | cuckooAddNew =>
      exact .inr ⟨by simp [name, CommandName.adding], rfl⟩
  | _ => cases h

/-- **Nothing comes** of a push that stores no value, and of an addition to a filter that
would be too large.  The store stays as it was. -/
theorem run_of_nothing (hvalid : s.config.Valid) (hhow : c.making? = some .byItself)
    (hmissing : s.get? c.key = none) (hheld : (c.run s).store.get? c.key = none) :
    (c.run s).store = s ∧
      (c.family = .list ∧ (c.run s).answer = .ok (.int 0) ∨
        ¬ s.config.DefaultFits s.machine c.family ∧
          (c.run s).answer = .error (.size .capacityTooLarge)) := by
  obtain ⟨e, key, values, rfl⟩ | ⟨hadding, hkeys⟩ := cases_of_byItself hhow
  · obtain ⟨hstore, hanswer⟩ := Store.pushList_of_nothing hmissing hheld
    exact ⟨hstore, .inl ⟨rfl, congrArg (Except.map Reply.ofCount) hanswer⟩⟩
  · have hmakes := c.makesIfFits_run hadding hkeys hvalid hmissing
    rw [family_name] at hmakes
    cases hmakes with
    | made _ _ hmade =>
        rw [hmade] at hheld
        cases hheld
    | tooLarge hlarge hanswer hstore => exact ⟨hstore, .inr ⟨hlarge, hanswer⟩⟩

end Command

namespace Store

variable {s : Store}

/-- **The log tells of every key that is added, and of nothing else but what came to nothing.**
Let a configuration come of reading a text and of setting parameters, and let a store with it
have answered any calls.  A request adds one record to the log at most.  The record tells of a
value if a key was added, with the value's own sizes if it was asked for; or if nothing came of
a value that was announced: then the store is as it was, and nothing of a list could be stored,
or the configured size of a filter does not fit.  The record is a warning exactly if the reply
is that the filter is full.  There is no other record. -/
theorem serve_logs {machine : Machine} {config : Config} {calls : List Call}
    (hconfig : config.Reached) (hs : s = (empty machine config).afterCalls calls) (r : Request) :
    (s.serve r).log.length ≤ 1 ∧
    (∀ record ∈ (s.serve r).log,
      (∃ how, record.TellsOf how) ∨ record = Event.cuckooFull.logRecord) ∧
    ((∃ record ∈ (s.serve r).log, ∃ how, record.TellsOf how) ↔
      AddsKey s (s.serve r).store ∨ MakesNothing s r) ∧
    ((∃ record ∈ (s.serve r).log, record.severity = .warn) ↔
      (s.serve r).reply = .ofError .filterFull) ∧
    (∀ key value, s.get? key = none → (s.serve r).store.get? key = some value →
      ∃ c how e, r.command? = some c ∧ c.making? = some how ∧ how.report? value = some e ∧
        e.logRecord.TellsOf how ∧ (s.serve r).log = [e.logRecord]) ∧
    (MakesNothing s r → (s.serve r).store = s ∧
      ∃ c e, r.command? = some c ∧ c.family.announcement? = some e ∧
        e.logRecord.TellsOf .byItself ∧ (s.serve r).log = [e.logRecord] ∧
        (c.family = .list ∧ (s.serve r).reply = .int 0 ∨
          ¬ config.DefaultFits machine c.family ∧
            (s.serve r).reply = .ofError (.size .capacityTooLarge))) := by
  have hlogged := s.logged_serve r
  obtain ⟨hlength, hrecords⟩ := hlogged.records
  refine ⟨hlength, hrecords, hlogged.tellsOf_iff, hlogged.warn_iff, ?_, ?_⟩
  · intro key value hmissing hheld
    obtain ⟨c, how, e, hcommand, hhow, hreport, hlog⟩ := hlogged.log_of_added hmissing hheld
    exact ⟨c, how, e, hcommand, hhow, hreport, Making.tellsOf_report hreport, hlog⟩
  · intro hnothing
    obtain ⟨c, e, hcommand, hreport, hlog⟩ := hlogged.log_of_nothing hnothing
    obtain ⟨hhow, hmissing, hheld⟩ := command_of_makesNothing hnothing hcommand
    obtain ⟨hreply, hstore⟩ := serve_of_command? (s := s) hcommand
    obtain ⟨rfl, rfl⟩ : s.config = config ∧ s.machine = machine :=
      hs ▸ config_afterCalls machine config calls
    rw [hstore] at hheld
    obtain ⟨hsame, hwhy⟩ := c.run_of_nothing hconfig.valid hhow hmissing hheld
    refine ⟨hstore.trans hsame, c, e, hcommand, hreport, Family.tellsOf_announcement hreport, hlog,
      ?_⟩
    rw [hreply]
    obtain ⟨hlist, hanswer⟩ | ⟨hlarge, hanswer⟩ := hwhy
    · exact .inl ⟨hlist, by rw [hanswer]; rfl⟩
    · exact .inr ⟨hlarge, by rw [hanswer]; rfl⟩

/-- A text asks for a bloom filter that is too large.  A push to a key whose list was taken off
adds it again, and items for a bloom filter are announced in vain. -/
theorem serve_logs_push_and_refusal :
    let machine : Machine := ⟨fun _ => -4.605170185988091, fun _ => 9.643856189774725, fun _ n => n⟩
    let config : Config := { bloomCapacity := 500000000 }
    let s := (empty machine config).afterCalls
      [.request ⟨CommandName.rpush.bytes, [[0x6B], [0x61]]⟩, .take [0x6B] .back 1]
    let push : Request := ⟨CommandName.lpush.bytes, [[0x6B], [0x61]]⟩
    let addAll : Request := ⟨CommandName.bfMadd.bytes, [[0x62], [0x61], [0x62]]⟩
    Config.parse "bf-default-capacity 500000000" = .ok config ∧
      AddsKey s (s.serve push).store ∧
      (∃ record ∈ (s.serve push).log, ∃ how, record.TellsOf how) ∧
      MakesNothing s addAll ∧
      (s.serve addAll).store = s ∧ (s.serve addAll).log.length = 1 := by
  intro machine config s push addAll
  have hparse : Config.parse "bf-default-capacity 500000000" = .ok config := rfl
  have hadds : AddsKey s (s.serve push).store := ⟨[0x6B], by decide +kernel, by decide +kernel⟩
  have hnothing : MakesNothing s addAll :=
    ⟨.bloomAddAll [0x62] [[0x61], [0x62]], rfl, rfl, by decide +kernel, by decide +kernel⟩
  obtain ⟨-, -, hpushed, -⟩ := serve_logs (.parsed hparse) (s := s) rfl push
  obtain ⟨-, -, -, -, -, hrefused⟩ := serve_logs (.parsed hparse) (s := s) rfl addAll
  obtain ⟨hstore, _, e, -, -, -, hlog, -⟩ := hrefused hnothing
  exact ⟨hparse, hadds, hpushed.mpr (.inl hadds), hnothing, hstore, congrArg List.length hlog⟩

/-- **Not every announcement is followed by a key.**  A text is read, and with this configuration
the first item for a bloom filter is refused.  The filter was announced, and no key is added. -/
theorem announced_without_key :
    let machine : Machine := ⟨fun _ => -4.605170185988091, fun _ => 9.643856189774725, fun _ n => n⟩
    let config : Config := { bloomCapacity := 500000000 }
    let s := empty machine config
    let add : Request := ⟨CommandName.bfAdd.bytes, [[0x62], [0x78]]⟩
    Config.parse "bf-default-capacity 500000000" = .ok config ∧
      (s.serve add).log = [⟨.debug, "creating bloom filter with default parameters"⟩] ∧
      ¬ AddsKey s (s.serve add).store ∧
      ¬ ((∃ record ∈ (s.serve add).log, ∃ how, record.TellsOf how) ↔
        AddsKey s (s.serve add).store) := by
  intro machine config s add
  have hlog : (s.serve add).log = [Event.creatingBloom.logRecord] := by decide +kernel
  have hcommand : add.command? = some (.bloomAdd [0x62] [0x78]) := rfl
  have hgone : (s.serve add).store.contains [0x62] = false := by decide +kernel
  have hkeys : ¬ AddsKey s (s.serve add).store :=
    not_addsKey hcommand fun _ => contains_eq_false_iff.mp hgone
  have htells : Event.creatingBloom.logRecord.TellsOf .byItself :=
    @Family.tellsOf_announcement .bloom _ rfl
  refine ⟨rfl, hlog, hkeys, fun hiff => hkeys (hiff.mp ⟨_, ?_, .byItself, htells⟩)⟩
  rw [hlog]
  exact List.mem_singleton_self _

end Store

end CompactStore
