import CompactStore.Proofs.Store.History

/-!
# The name of a command

A command is read under exactly one name, so what a request asks for is told by its
name alone, whatever its arguments are.  Which of the arguments are keys is told by the
name as well.
-/

namespace CompactStore

/-- The arguments of a command that are keys: all of them, or the first. -/
def CommandName.keysAmong : CommandName → List Bytes → List Bytes
  | del, args | exist, args => args
  | _, args => args.take 1

namespace Command

/-- The name under which a command is read. -/
def name : Command → CommandName
  | push .front _ _ => .lpush
  | push .back _ _ => .rpush
  | pop .front _ _ => .lpop
  | pop .back _ _ => .rpop
  | length _ => .llen
  | range _ _ _ => .lrange
  | index _ _ => .lindex
  | bloomReserve _ _ _ => .bfReserve
  | bloomAdd _ _ => .bfAdd
  | bloomAddAll _ _ => .bfMadd
  | bloomContains _ _ => .bfExists
  | bloomContainsAll _ _ => .bfMexists
  | bloomInfo _ => .bfInfo
  | bloomCard _ => .bfCard
  | cuckooReserve _ _ _ => .cfReserve
  | cuckooAdd _ _ => .cfAdd
  | cuckooAddNew _ _ => .cfAddnx
  | cuckooContains _ _ => .cfExists
  | cuckooContainsAll _ _ => .cfMexists
  | cuckooRemove _ _ => .cfDel
  | cuckooInfo _ => .cfInfo
  | sketchCreate _ _ _ => .cmsInitByDim
  | sketchCreateFor _ _ _ => .cmsInitByProb
  | sketchIncrement _ _ => .cmsIncrBy
  | sketchEstimates _ _ => .cmsQuery
  | sketchInfo _ => .cmsInfo
  | delete _ => .del
  | present _ => .exist
  | type _ => .type

/-- Two steps that succeed, succeed one after the other. -/
theorem exists_of_bind_eq_ok {α β : Type} {x : Except Error α} {f : α → Except Error β} {b : β}
    (h : (x >>= f) = .ok b) : ∃ a, x = .ok a ∧ f a = .ok b := by
  cases x with
  | ok a => exact ⟨a, rfl, h⟩
  | error e => cases h

/-- **What a command is read from**: its own name, and its keys among the arguments. -/
theorem read_spec {name : CommandName} {args : List Bytes} {c : Command}
    (h : read name args = .ok c) : c.name = name ∧ c.keys = name.keysAmong args := by
  unfold read at h
  split at h
  all_goals try cases h <;> exact ⟨rfl, rfl⟩
  -- what is left are the commands with numbers among their arguments
  case h_4 | h_6 | h_9 =>
    obtain ⟨n, -, hread⟩ := exists_of_bind_eq_ok h
    cases hread
    exact ⟨rfl, rfl⟩
  case h_8 | h_10 | h_17 | h_24 | h_25 =>
    obtain ⟨m, -, hrest⟩ := exists_of_bind_eq_ok h
    obtain ⟨n, -, hread⟩ := exists_of_bind_eq_ok hrest
    cases hread
    exact ⟨rfl, rfl⟩
  case h_26 =>
    split at h
    · obtain ⟨pairs, -, hread⟩ := exists_of_bind_eq_ok h
      cases hread
      exact ⟨rfl, rfl⟩
    · cases h

end Command

namespace Request

/-- The name that a request asks for, if there is a command of this name. -/
def asksFor? (r : Request) : Option CommandName :=
  CommandName.ofBytes? (Bytes.upper r.name)

/-- The name of a command is in upper case. -/
theorem upper_bytes (name : CommandName) : Bytes.upper name.bytes = name.bytes := by
  cases name <;> decide

/-- A request by the name of a command, in any case, reads as its arguments do. -/
theorem command?_of_upper {written : Bytes} {name : CommandName}
    (h : Bytes.upper written = name.bytes) (args : List Bytes) :
    command? ⟨written, args⟩ = (Command.read name args).toOption := by
  unfold command?
  rw [h, CommandName.ofBytes?_bytes]

/-- A request by the name of a command reads as its arguments do. -/
theorem command?_bytes (name : CommandName) (args : List Bytes) :
    command? ⟨name.bytes, args⟩ = (Command.read name args).toOption :=
  command?_of_upper (upper_bytes name) args

/-- A request is read under the name that it asks for. -/
theorem read_of_command? {r : Request} {c : Command} (h : r.command? = some c) :
    r.asksFor? = some c.name ∧ Command.read c.name r.args = .ok c := by
  unfold command? at h
  unfold asksFor?
  split at h
  · rename_i name hname
    cases hread : Command.read name r.args with
    | ok c' =>
        rw [hread] at h
        obtain rfl : c' = c := Option.some.inj h
        rw [hname, (Command.read_spec hread).1]
        exact ⟨rfl, hread⟩
    | error e =>
        rw [hread] at h
        cases h
  · cases h

/-- A request that asks for a command reads as its arguments do. -/
theorem command?_of_asksFor? {r : Request} {name : CommandName} (h : r.asksFor? = some name) :
    r.command? = (Command.read name r.args).toOption := by
  unfold asksFor? at h
  unfold command?
  rw [h]

/-- The keys that a request names.  A request for no command names its first argument. -/
def names (r : Request) : List Bytes :=
  match r.asksFor? with
  | some name => name.keysAmong r.args
  | none => r.args.take 1

/-- A request names the keys of its command. -/
theorem keys_of_command? {r : Request} {c : Command} (h : r.command? = some c) :
    c.keys = r.names := by
  obtain ⟨hname, hread⟩ := read_of_command? h
  rw [names, hname]
  exact (Command.read_spec hread).2

theorem name_of_command? {r : Request} {c : Command} (h : r.command? = some c) :
    r.asksFor? = some c.name :=
  (read_of_command? h).1

end Request

/-- A request whose arguments are not read is refused with the error that reading gives. -/
theorem Store.serve_of_read_error {s : Store} {r : Request} {name : CommandName} {e : Error}
    (hname : r.asksFor? = some name) (hread : Command.read name r.args = .error e) :
    s.serve r = { reply := .ofError e, store := s, events := [] } := by
  unfold Request.asksFor? at hname
  unfold serve execute route runNamed
  dsimp only
  rw [hname]
  dsimp only
  rw [hread]
  rfl

end CompactStore
