import CompactStore.Proofs.Store.Families
import CompactStore.Proofs.Store.Sequences

/-!
# List commands refine sequences

A list command on a key that is absent or holds a list does what the reference
does with its sequence, and nothing else touches a sequence except a deletion.  So
the invariant is kept by every command, and `serve_refines_step` holds for every
request after any others.
-/

namespace CompactStore

open Quicklist ListCommand

namespace Command

open Store

variable {s : Store} {key : Bytes}

/-- Every value that the command pushes can be stored. -/
def PushesStorable : Command → Prop
  | .push _ _ block => ∀ value ∈ block, Storable value
  | _ => True

instance : DecidablePred PushesStorable := by
  intro c
  cases c <;> unfold PushesStorable <;> infer_instance

/-- The commands on lists are those of `ListCommand` on some key. -/
theorem exists_under_of_family {c : Command} (h : c.family = .list) :
    ∃ key, ∃ l : ListCommand, c = l.under key := by
  cases c with
  | push e key block => exact ⟨key, .push e block, rfl⟩
  | pop e key count =>
      cases count with
      | none => exact ⟨key, .pop e, rfl⟩
      | some count => exact ⟨key, .popMany e count, rfl⟩
  | length key => exact ⟨key, .length, rfl⟩
  | range key start stop => exact ⟨key, .range start stop, rfl⟩
  | index key i => exact ⟨key, .index i, rfl⟩
  | _ => cases h

/-- A command on lists has one key. -/
theorem keys_under (key : Bytes) (l : ListCommand) : (l.under key).keys = [key] := by
  cases l <;> rfl

/-- A pop of no values takes nothing; it only asks whether there is a list. -/
theorem run_pop_zero (s : Store) (e : End) (key : Bytes) :
    (pop e key (some 0)).run s = s.answering
      (if s.contains key then (s.listLength key).map fun _ => .arr [] else .ok .nil) :=
  rfl

/-- Popping up to a number of values replies all of them. -/
theorem run_pop_succ (s : Store) (e : End) (key : Bytes) (count : Nat) :
    (pop e key (some (count + 1))).run s = (s.popList key e (count + 1)).map manyReply :=
  rfl

/-- **A list command does what the reference does**, on a key that is absent or
holds a list. -/
theorem run_under (hsound : s.ListsSound) (hkey : s.TakesLists key) {l : ListCommand}
    (hstorable : (l.under key).PushesStorable) :
    replyTo ((l.under key).run s).answer = (l.step (s.sequence? key)).2 ∧
      Represents (((l.under key).run s).store.get? key) (l.step (s.sequence? key)).1 := by
  have h := hsound.represents hkey
  generalize s.sequence? key = held at h
  cases l with
  | push e block =>
      have hblock : ∀ value ∈ block, Storable value := hstorable
      obtain ⟨hanswer, hheld⟩ := pushList_spec h e hsound.nodeMax_le hblock
      rw [ListCommand.under, run, answer_map, hanswer]
      exact ⟨rfl, hheld⟩
  | pop e =>
      rw [ListCommand.under, run, answer_map, store_map]
      cases held with
      | none =>
          obtain ⟨hanswer, hheld⟩ := popList_of_missing h e 1
          rw [hanswer]
          exact ⟨rfl, hheld⟩
      | some values =>
          obtain ⟨hanswer, hheld⟩ := popList_spec h e 1
          rw [Option.getD_some, List.drop_one] at hheld
          refine ⟨?_, hheld⟩
          rw [hanswer, Option.getD_some, ListCommand.step]
          cases e.orient values <;> rfl
  | popMany e count =>
      obtain _ | count := count
      · rw [ListCommand.under, run_pop_zero, store_answering, contains_of_represents h]
        cases held with
        | none => exact ⟨rfl, h⟩
        | some values =>
            obtain ⟨q?, hlist, -⟩ := list?_spec h
            refine ⟨?_, ?_⟩
            · rw [answering, listLength, hlist]
              rfl
            · rw [ListCommand.step, List.drop_zero, End.orient_orient, kept_of_ne_nil h.ne_nil]
              exact h
      · rw [ListCommand.under, run_pop_succ, answer_map, store_map]
        cases held with
        | none =>
            obtain ⟨hanswer, hheld⟩ := popList_of_missing h e (count + 1)
            rw [hanswer]
            exact ⟨rfl, hheld⟩
        | some values =>
            obtain ⟨hanswer, hheld⟩ := popList_spec h e (count + 1)
            have hne : (e.orient values).take (count + 1) ≠ [] := by
              simpa using h.ne_nil
            rw [hanswer, Option.getD_some, kept_of_ne_nil hne]
            exact ⟨rfl, hheld⟩
  | length =>
      obtain ⟨q?, hlist, hread⟩ := list?_spec h
      rw [ListCommand.under, run, store_answering, answering, listLength, hlist]
      refine ⟨?_, h⟩
      rcases hread with ⟨rfl, rfl⟩ | ⟨q, values, rfl, rfl, hq⟩
      · rfl
      · rw [ListCommand.step, Option.getD_some, ← hq.len_eq]
        rfl
  | range start stop =>
      obtain ⟨q?, hlist, hread⟩ := list?_spec h
      rw [ListCommand.under, run, store_answering, answering, listRange, hlist]
      refine ⟨?_, h⟩
      rcases hread with ⟨rfl, rfl⟩ | ⟨q, values, rfl, rfl, hq⟩
      · simp [Except.map, replyTo, ListCommand.step, Deque.slice]
      · rw [ListCommand.step, Option.getD_some, ← hq.range_eq]
        rfl
  | index i =>
      obtain ⟨q?, hlist, hread⟩ := list?_spec h
      rw [ListCommand.under, run, store_answering, answering, listIndex, hlist]
      refine ⟨?_, h⟩
      rcases hread with ⟨rfl, rfl⟩ | ⟨q, values, rfl, rfl, hq⟩
      · simp [Except.map, replyTo, ListCommand.step, Deque.at?]
      · rw [ListCommand.step, Option.getD_some, ← hq.index?_eq]
        rfl

/-- On a key that holds a value of another type a list command changes nothing. -/
theorem store_run_under (hkey : ¬s.TakesLists key) (l : ListCommand) :
    ((l.under key).run s).store = s := by
  have hother : ∃ value, s.get? key = some value ∧ ∀ q, value ≠ .list q := by
    by_contra hnone
    apply hkey
    intro value hget
    by_contra hlist
    exact hnone ⟨value, hget, fun q hq => hlist ⟨q, hq⟩⟩
  obtain ⟨value, hget, hlist⟩ := hother
  cases l with
  | push e block => exact store_pushList_of_other hget hlist e block
  | pop e => exact store_popList_of_other hget hlist e 1
  | popMany e count =>
      obtain _ | count := count
      · rfl
      · exact store_popList_of_other hget hlist e (count + 1)
  | _ => rfl

/-- Another family keeps the list that a key holds. -/
theorem quicklist?_of_step {family : Family} {before after : Option Value}
    (h : FamilyStep family before after) (hfamily : family ≠ .list) :
    after.bind Value.quicklist? = before.bind Value.quicklist? := by
  have hnone : ∀ value : Value, value.family = family → value.quicklist? = none := by
    intro value hvalue
    cases value with
    | list q => exact absurd hvalue.symm hfamily
    | _ => rfl
  cases h with
  | same => rfl
  | made value hvalue => exact hnone value hvalue
  | changed v w hv hw => exact (hnone w hw).trans (hnone v hv).symm
  | emptied q hlist => exact absurd hlist hfamily

/-- A command of another family leaves every list, unless it deletes. -/
theorem quicklist?_run (c : Command) (s : Store) (hfamily : c.family ≠ .list)
    (hdelete : ∀ keys, c ≠ .delete keys) (key : Bytes) :
    (c.run s).store.quicklist? key = s.quicklist? key :=
  quicklist?_of_step (c.run_step s hdelete key) hfamily

/-- Deleting keys takes their lists away and leaves the others. -/
theorem quicklist?_delete (s : Store) (keys : List Bytes) (key : Bytes) :
    ((Command.delete keys).run s).store.quicklist? key =
      if key ∈ keys then none else s.quicklist? key := by
  have hget := get?_deleteEach s 0 keys key
  have hrun : ((Command.delete keys).run s).store = (s.deleteEach 0 keys).1 := rfl
  rw [hrun, quicklist?, hget]
  split <;> rfl

/-- **The invariant is kept** by every command whose values can be stored. -/
theorem listsSound_run {c : Command} (h : s.ListsSound) (hstorable : c.PushesStorable) :
    (c.run s).store.ListsSound := by
  refine ⟨(c.run_frame s).1.symm ▸ h.nodeMax_le, ?_⟩
  intro key q hq
  by_cases hfamily : c.family = .list
  · obtain ⟨own, l, rfl⟩ := exists_under_of_family hfamily
    by_cases hkey : s.TakesLists own
    · by_cases hown : key = own
      · subst hown
        have hheld := (run_under h hkey hstorable).2
        unfold quicklist? at hq
        generalize ((l.under key).run s).store.get? key = after at hheld hq
        match after, (l.step (s.sequence? key)).1, hheld with
        | some (.list r), some left, hr =>
            obtain rfl := Option.some.inj hq
            exact ⟨left, hr⟩
        | none, none, _ => cases hq
      · have hframe := ((l.under own).run_frame s).2.2 key (by
          rw [keys_under]
          exact fun hmem => hown (List.mem_singleton.mp hmem))
        rw [quicklist?, hframe] at hq
        exact h.stores key q hq
    · rw [store_run_under hkey l] at hq
      exact h.stores key q hq
  · by_cases hdelete : ∃ keys, c = .delete keys
    · obtain ⟨keys, rfl⟩ := hdelete
      rw [quicklist?_delete] at hq
      split at hq
      · cases hq
      · exact h.stores key q hq
    · rw [quicklist?_run c s hfamily (fun keys hc => hdelete ⟨keys, hc⟩)] at hq
      exact h.stores key q hq

end Command

/-! ### Every request of a run -/

namespace Request

/-- Every value that the request pushes can be stored. -/
def PushesStorable (r : Request) : Prop :=
  ∀ c ∈ r.command?, c.PushesStorable

instance : DecidablePred PushesStorable := fun _ =>
  inferInstanceAs (Decidable (∀ c ∈ _, _))

/-- The keys that the request deletes. -/
def deletes (r : Request) : List Bytes :=
  match r.command? with
  | some (.delete keys) => keys
  | _ => []

end Request

namespace Store

variable {s : Store} {r : Request} {key : Bytes}

/-- **After requests that push what can be stored** every list stores its sequence. -/
theorem listsSound_after {machine : Machine} {config : Config} {requests : List Request}
    (hmax : config.listNodeMax ≤ Listpack.maxBytes)
    (hrequests : ∀ r ∈ requests, r.PushesStorable) :
    ((empty machine config).after requests).ListsSound := by
  apply after_keeps (P := ListsSound) (Q := Command.PushesStorable)
  · exact fun _ _ hstorable h => Command.listsSound_run h hstorable
  · exact hrequests
  · refine ⟨hmax, ?_⟩
    intro key q hq
    simp [quicklist?, get?, empty] at hq

/-- A request that is for no list leaves every sequence that it does not delete. -/
theorem sequence?_serve_of_other
    (hother : ∀ key l, r.command? = some (ListCommand.under key l) → ¬s.TakesLists key)
    (key : Bytes) :
    (s.serve r).store.sequence? key = if key ∈ r.deletes then none else s.sequence? key := by
  unfold sequence? Request.deletes
  cases hcommand : r.command? with
  | none =>
      rw [(serve_of_command?_none hcommand).2, if_neg (by simp)]
  | some c =>
      rw [(serve_of_command? hcommand).2]
      by_cases hfamily : c.family = .list
      · obtain ⟨own, l, rfl⟩ := Command.exists_under_of_family hfamily
        rw [Command.store_run_under (hother own l hcommand) l]
        cases l <;> rw [if_neg (by simp [ListCommand.under])]
      · by_cases hdelete : ∃ keys, c = .delete keys
        · obtain ⟨keys, rfl⟩ := hdelete
          rw [Command.quicklist?_delete]
          dsimp only
          split <;> rfl
        · rw [Command.quicklist?_run c s hfamily fun keys hc => hdelete ⟨keys, hc⟩]
          split
          · rename_i keys hc
            exact absurd ⟨keys, Option.some.inj hc⟩ hdelete
          · rw [if_neg (by simp)]

/-- **List commands refine sequences under keys.**  After any requests of any
family whose pushed values can be stored: no key holds an empty sequence; a list
command on a key that is absent or holds a list replies as the reference, leaves
what the reference leaves, and leaves every other key alone; and any other request
changes sequences only by deleting keys. -/
theorem serve_refines_step {machine : Machine} {config : Config} {requests : List Request}
    (hmax : config.listNodeMax ≤ Listpack.maxBytes)
    (hrequests : ∀ r ∈ requests, r.PushesStorable)
    (hs : s = (empty machine config).after requests) (hr : r.PushesStorable) :
    (∀ key, s.sequence? key ≠ some []) ∧
    (∀ key l, r.command? = some (ListCommand.under key l) → s.TakesLists key →
      (s.serve r).reply = (l.step (s.sequence? key)).2 ∧
      (s.serve r).store.sequence? key = (l.step (s.sequence? key)).1 ∧
      (s.serve r).store.contains key = (l.step (s.sequence? key)).1.isSome ∧
      (s.serve r).store.TakesLists key ∧
      ∀ other, other ≠ key → (s.serve r).store.get? other = s.get? other) ∧
    ((∀ key l, r.command? = some (ListCommand.under key l) → ¬s.TakesLists key) →
      ∀ key, (s.serve r).store.sequence? key =
        if key ∈ r.deletes then none else s.sequence? key) := by
  have hsound : s.ListsSound := hs ▸ listsSound_after hmax hrequests
  refine ⟨hsound.sequence?_ne_nil, ?_, sequence?_serve_of_other⟩
  intro key l hcommand hkey
  obtain ⟨hreply, hstore⟩ := serve_of_command? (s := s) hcommand
  obtain ⟨hanswer, hheld⟩ := Command.run_under hsound hkey (hr _ hcommand)
  rw [hreply, hstore]
  refine ⟨hanswer, hheld.map_values, contains_of_represents hheld, hheld.eq_list, ?_⟩
  intro other hother
  apply ((l.under key).run_frame s).2.2
  rw [Command.keys_under]
  exact fun hmem => hother (List.mem_singleton.mp hmem)

/-- Two values are pushed, and a pop of five takes both of them and the key. -/
theorem serve_pop_many_after_push :
    (((empty ⟨id, id, fun _ _ => 0⟩ {}).after
        [⟨CommandName.rpush.bytes, [[0x6B], [0x61], [0x62]]⟩]).serve
      ⟨CommandName.lpop.bytes, [[0x6B], [0x35]]⟩).reply = .arr [.str [0x61], .str [0x62]] ∧
    (((empty ⟨id, id, fun _ _ => 0⟩ {}).after
        [⟨CommandName.rpush.bytes, [[0x6B], [0x61], [0x62]]⟩]).serve
      ⟨CommandName.lpop.bytes, [[0x6B], [0x35]]⟩).store.contains [0x6B] = false := by
  have hmax : ({} : Config).listNodeMax ≤ Listpack.maxBytes := by decide
  have hpush : Request.PushesStorable
      ⟨CommandName.rpush.bytes, [[0x6B], [0x61], [0x62]]⟩ := by
    decide +kernel
  have hpop : Request.PushesStorable ⟨CommandName.lpop.bytes, [[0x6B], [0x35]]⟩ := by
    decide +kernel
  have hempty : empty ⟨id, id, fun _ _ => 0⟩ {} = (empty ⟨id, id, fun _ _ => 0⟩ {}).after [] := rfl
  have hmissing : (empty ⟨id, id, fun _ _ => 0⟩ {}).TakesLists [0x6B] := by
    intro value hvalue
    simp [get?, empty] at hvalue
  obtain ⟨-, hpushed, -⟩ := serve_refines_step hmax (by simp) hempty hpush
  obtain ⟨-, hsequence, -, hkey, -⟩ := hpushed [0x6B] (.push .back [[0x61], [0x62]]) rfl hmissing
  obtain ⟨-, hpopped, -⟩ := serve_refines_step hmax (List.forall_mem_singleton.mpr hpush) rfl hpop
  obtain ⟨hreply, -, hcontains, -⟩ := hpopped [0x6B] (.popMany .front 5) rfl hkey
  have hvalues : ((empty ⟨id, id, fun _ _ => 0⟩ {}).after
      [⟨CommandName.rpush.bytes, [[0x6B], [0x61], [0x62]]⟩]).sequence? [0x6B] =
      some [[0x61], [0x62]] := hsequence
  rw [hreply, hcontains, hvalues]
  exact ⟨rfl, rfl⟩

end Store

end CompactStore
