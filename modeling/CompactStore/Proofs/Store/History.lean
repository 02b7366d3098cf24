import CompactStore.Command.Run

/-!
# Requests one after another

A request is what a client sends: a name and arguments.  `Store.after` is the store
that requests leave, one served after the other.

An operation changes a store through `Store.update` only, which is a change under
one key.  So a property of a store that speaks about each key by itself is kept as
soon as it is kept under this key.
-/

namespace CompactStore

namespace Store

variable {α β : Type} {s : Store}

/-! ### One operation -/

@[simp] theorem store_map (o : Outcome α) (f : α → β) : (o.map f).store = o.store := rfl

@[simp] theorem answer_map (o : Outcome α) (f : α → β) : (o.map f).answer = o.answer.map f := rfl

@[simp] theorem store_answering (s : Store) (answer : Except Error α) :
    (s.answering answer).store = s := rfl

/-- Putting a value leaves the configuration. -/
@[simp] theorem config_put (s : Store) (key : Bytes) (held : Option Value) :
    (s.put key held).config = s.config := by
  cases held <;> rfl

/-- Putting a value leaves the machine. -/
@[simp] theorem machine_put (s : Store) (key : Bytes) (held : Option Value) :
    (s.put key held).machine = s.machine := by
  cases held <;> rfl

/-- **Frame.**  Changing what a key holds leaves the other keys. -/
theorem get?_update (s : Store) (key other : Bytes) (f : Option Value → Effect α) :
    (s.update key f).store.get? other =
      if key = other then (f (s.get? key)).held else s.get? other := by
  by_cases h : key = other
  · subst h
    rw [if_pos rfl]
    exact get?_put_self s key _
  · rw [if_neg h]
    exact get?_put_of_ne s _ h

/-- An operation that leaves its key as it was leaves the store as it was. -/
theorem store_update_eq_self {key : Bytes} {f : Option Value → Effect α}
    (h : (f (s.get? key)).held = s.get? key) : (s.update key f).store = s := by
  change s.put key (f (s.get? key)).held = s
  rw [h, put_get?]

/-- A key is there exactly if something is held under it. -/
theorem contains_eq_isSome (s : Store) (key : Bytes) : s.contains key = (s.get? key).isSome :=
  Std.ExtTreeMap.contains_eq_isSome_getElem?

/-- Deleting a key leaves the other keys. -/
theorem get?_delete (s : Store) (key other : Bytes) :
    (s.delete key).1.get? other = if key = other then none else s.get? other := by
  have hdelete : (s.delete key).1 = s.put key none := rfl
  rw [hdelete]
  by_cases h : key = other
  · subst h
    rw [if_pos rfl]
    exact get?_put_self s key none
  · rw [if_neg h]
    exact get?_put_of_ne s none h

/-- **Deleting keys** leaves exactly the others. -/
theorem get?_deleteEach (s : Store) (count : Nat) (keys : List Bytes) (other : Bytes) :
    (s.deleteEach count keys).1.get? other = if other ∈ keys then none else s.get? other := by
  induction keys generalizing s count with
  | nil => rfl
  | cons key rest ih =>
      rw [deleteEach, ih, get?_delete]
      by_cases hrest : other ∈ rest
      · rw [if_pos hrest, if_pos (List.mem_cons_of_mem _ hrest)]
      · rw [if_neg hrest]
        by_cases hkey : key = other
        · rw [if_pos hkey, if_pos (by simp [hkey])]
        · rw [if_neg hkey, if_neg (by simp [hrest, Ne.symm hkey])]

/-- Deleting keys leaves the configuration and the machine. -/
theorem config_deleteEach (s : Store) (count : Nat) (keys : List Bytes) :
    (s.deleteEach count keys).1.config = s.config ∧
      (s.deleteEach count keys).1.machine = s.machine := by
  induction keys generalizing s count with
  | nil => exact ⟨rfl, rfl⟩
  | cons key rest ih => exact ih (s.delete key).1 _

end Store

/-- **A command changes what one of its keys holds**, or it only reads, or it
deletes its keys. -/
theorem Command.store_run (c : Command) (s : Store) :
    (∃ key ∈ c.keys, ∃ held, (c.run s).store = s.put key held) ∨ (c.run s).store = s ∨
      ∃ keys, c = .delete keys := by
  cases c with
  | push e key values => exact .inl ⟨key, by simp [keys], _, rfl⟩
  | pop e key count =>
      obtain _ | _ | count := count
      · exact .inl ⟨key, by simp [keys], _, rfl⟩
      · exact .inr (.inl rfl)
      · exact .inl ⟨key, by simp [keys], _, rfl⟩
  | bloomReserve key => exact .inl ⟨key, by simp [keys], _, rfl⟩
  | bloomAdd key => exact .inl ⟨key, by simp [keys], _, rfl⟩
  | bloomAddAll key => exact .inl ⟨key, by simp [keys], _, rfl⟩
  | cuckooReserve key => exact .inl ⟨key, by simp [keys], _, rfl⟩
  | cuckooAdd key => exact .inl ⟨key, by simp [keys], _, rfl⟩
  | cuckooAddNew key => exact .inl ⟨key, by simp [keys], _, rfl⟩
  | cuckooRemove key => exact .inl ⟨key, by simp [keys], _, rfl⟩
  | sketchCreate key => exact .inl ⟨key, by simp [keys], _, rfl⟩
  | sketchCreateFor key => exact .inl ⟨key, by simp [keys], _, rfl⟩
  | sketchIncrement key => exact .inl ⟨key, by simp [keys], _, rfl⟩
  | delete keys => exact .inr (.inr ⟨keys, rfl⟩)
  | _ => exact .inr (.inl rfl)

/-- **Frame.**  A command leaves the keys that it does not name alone, and what the
machine and the configuration supply. -/
theorem Command.run_frame (c : Command) (s : Store) :
    (c.run s).store.config = s.config ∧ (c.run s).store.machine = s.machine ∧
      ∀ other, other ∉ c.keys → (c.run s).store.get? other = s.get? other := by
  rcases c.store_run s with ⟨key, hkey, held, hput⟩ | hself | ⟨keys, rfl⟩
  · rw [hput]
    refine ⟨Store.config_put s key held, Store.machine_put s key held, ?_⟩
    intro other hother
    exact Store.get?_put_of_ne s held fun heq => hother (heq ▸ hkey)
  · rw [hself]
    exact ⟨rfl, rfl, fun _ _ => rfl⟩
  · obtain ⟨hconfig, hmachine⟩ := Store.config_deleteEach s 0 keys
    refine ⟨hconfig, hmachine, ?_⟩
    intro other hother
    exact (Store.get?_deleteEach s 0 keys other).trans (if_neg hother)

/-! ### Many requests -/

/-- A command as it comes from a client. -/
structure Request where
  name : Bytes
  args : List Bytes
deriving DecidableEq, Repr

/-- What a client gets to see of an outcome. -/
def Outcome.response (o : Outcome Reply) : Store.Response where
  reply := Store.replyTo o.answer
  store := o.store
  events := o.events

/-- The command that a request reads as, if it reads as one. -/
def Request.command? (r : Request) : Option Command :=
  match CommandName.ofBytes? (Bytes.upper r.name) with
  | some name => (Command.read name r.args).toOption
  | none => none

namespace Store

/-- Serves a request. -/
def serve (s : Store) (r : Request) : Response :=
  s.execute r.name r.args

/-- The store after requests. -/
def after (s : Store) (requests : List Request) : Store :=
  requests.foldl (fun s r => (s.serve r).store) s

variable {s : Store} {r : Request} {c : Command}

/-- A request that reads as a command responds with the outcome of running it. -/
theorem serve_eq_of_command? (h : r.command? = some c) :
    s.serve r = { reply := replyTo (c.run s).answer, store := (c.run s).store,
                  events := (c.run s).events } := by
  unfold Request.command? at h
  split at h
  · rename_i name hname
    unfold serve execute route runNamed
    dsimp only
    rw [hname]
    dsimp only
    cases hread : Command.read name r.args with
    | error e => rw [hread] at h; cases h
    | ok c' =>
        rw [hread] at h
        obtain rfl : c' = c := Option.some.inj h
        rfl
  · cases h

/-- A request that reads as a command runs it. -/
theorem serve_of_command? (h : r.command? = some c) :
    (s.serve r).reply = replyTo (c.run s).answer ∧ (s.serve r).store = (c.run s).store := by
  rw [serve_eq_of_command? h]
  exact ⟨rfl, rfl⟩

/-- A request that reads as no command is refused in every store alike. -/
theorem exists_refusal (h : r.command? = none) :
    ∃ e, ∀ s : Store, s.serve r = { reply := .ofError e, store := s, events := [] } := by
  unfold Request.command? at h
  unfold serve execute route runNamed
  dsimp only
  cases hname : CommandName.ofBytes? (Bytes.upper r.name) with
  | some name =>
      rw [hname] at h
      dsimp only at h ⊢
      cases hread : Command.read name r.args with
      | error e => exact ⟨e, fun _ => rfl⟩
      | ok c =>
          rw [hread] at h
          cases h
  | none => exact ⟨_, fun _ => rfl⟩

/-- A request that reads as no command is refused. -/
theorem serve_of_command?_none (h : r.command? = none) :
    (∃ e, (s.serve r).reply = .ofError e) ∧ (s.serve r).store = s := by
  obtain ⟨e, hserve⟩ := exists_refusal h
  rw [hserve]
  exact ⟨⟨e, rfl⟩, rfl⟩

/-- **What every command keeps, every run keeps.** -/
theorem after_keeps {P : Store → Prop} {Q : Command → Prop}
    (hstep : ∀ s c, Q c → P s → P (c.run s).store) {requests : List Request}
    (hrequests : ∀ r ∈ requests, ∀ c, r.command? = some c → Q c) (h : P s) :
    P (s.after requests) := by
  induction requests generalizing s with
  | nil => exact h
  | cons r rest ih =>
      have hnext : P (s.serve r).store := by
        cases hcommand : r.command? with
        | none =>
            rw [(serve_of_command?_none hcommand).2]
            exact h
        | some c =>
            rw [(serve_of_command? hcommand).2]
            exact hstep s c (hrequests r (by simp) c hcommand) h
      exact ih (fun r hr => hrequests r (by simp [hr])) hnext

end Store

end CompactStore
