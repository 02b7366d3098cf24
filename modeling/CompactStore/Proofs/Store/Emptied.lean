import CompactStore.Proofs.Bounds.Runs
import CompactStore.Proofs.Quicklist.Oversized
import CompactStore.Proofs.Store.Independence

/-!
# No key holds an empty list

Whether a list stays under its key is told by its count: after a push to a key that holds
nothing, and after every pop.  The count is that of the values, in every list that pushes and
pops make, so the lists that stay hold values and those that go hold none:
`holds_no_empty_list`.  Of a list that has gone nothing is left, and a push to its key makes
the list that it would make in a new store.
-/

namespace CompactStore

open Quicklist

namespace Quicklist

variable {q : Quicklist} {e : End} {value : Bytes}

/-- A chain has as many values as it counts. -/
theorem Chained.length_values (h : q.Chained) : q.values.length = q.len := by
  obtain ⟨parts, hparts⟩ := h
  rw [values, List.length_map, hparts.length_entries]

/-! ### What a push brings -/

/-- Pushing one value sets it first, or leaves the values. -/
theorem Chained.values_pushOne (h : q.Chained) (e : End) (value : Bytes) :
    e.orient (Quicklist.pushOne e q value).values = e.orient q.values ∨
      e.orient (Quicklist.pushOne e q value).values = value :: e.orient q.values := by
  obtain ⟨_ | ⟨⟨i, es⟩, rest⟩, hparts⟩ := h.exists_holds e
  · exact absurd hparts.first (by simp)
  obtain hself | ⟨after, hafter, -, hentries⟩ | ⟨-, hself⟩ := hparts.pushOne_cases value
  · exact .inl (by rw [hself])
  · refine .inr ?_
    rw [hafter.orient_values, hentries, List.map_cons, Entry.text_ofBytes, hparts.orient_values]
  · refine .inl ?_
    rw [hself, values, hparts.alike_extend.entries_eq, values]

/-- **Pushes** bring some of the values, in their order, and keep those that are there. -/
theorem Chained.values_foldl_pushOne (h : q.Chained) (e : End) (block : List Bytes) :
    ∃ stored : List Bytes, stored.Sublist block ∧
      e.orient (block.foldl (Quicklist.pushOne e) q).values =
        stored.reverse ++ e.orient q.values := by
  induction block generalizing q with
  | nil => exact ⟨[], .slnil, rfl⟩
  | cons value rest ih =>
      obtain ⟨stored, hsub, hvalues⟩ := ih (h.pushOne e value).1
      rcases h.values_pushOne e value with hsame | hfirst
      · exact ⟨stored, hsub.cons value, by rw [List.foldl_cons, hvalues, hsame]⟩
      · exact ⟨value :: stored, hsub.cons_cons value, by simp [hvalues, hfirst]⟩

/-- **A new list** holds some of the values that are pushed, in call order, and nothing
else. -/
theorem values_push_empty (nodeMax : Nat) (e : End) (block : List Bytes) :
    (((empty nodeMax).push e block).1).values.Sublist block := by
  have hnew : (empty nodeMax).values = [] := (chained_empty nodeMax).isEmpty_iff.mp rfl
  cases e with
  | front =>
      obtain ⟨stored, hsub, hvalues⟩ :=
        (chained_empty nodeMax).values_foldl_pushOne .front block.reverse
      rw [hnew, End.orient_nil, List.append_nil] at hvalues
      have hpushed : ((empty nodeMax).push .front block).1.values = stored.reverse := hvalues
      rw [hpushed]
      simpa using hsub.reverse
  | back =>
      obtain ⟨stored, hsub, hvalues⟩ :=
        (chained_empty nodeMax).values_foldl_pushOne .back block
      rw [hnew, End.orient_nil, List.append_nil] at hvalues
      have hpushed : ((empty nodeMax).push .back block).1.values = stored :=
        List.reverse_injective hvalues
      rwa [hpushed]

end Quicklist

/-- A call that pushes these values at an end of the list under a key. -/
inductive Call.Pushes (key : Bytes) (e : End) (block : List Bytes) : Call → Prop where
  | request (r : Request) (h : r.command? = some (.push e key block)) :
      Pushes key e block (.request r)
  | command : Pushes key e block (.command (.push e key block))

/-- A call that takes at most so many values off an end of the list under a key. -/
inductive Call.Pops (key : Bytes) (e : End) : Nat → Call → Prop where
  | request (r : Request) (count : Option Nat) (h : r.command? = some (.pop e key count)) :
      Pops key e (count.getD 1) (.request r)
  | command (count : Option Nat) : Pops key e (count.getD 1) (.command (.pop e key count))
  | take (count : Nat) : Pops key e count (.take key e count)

namespace Store

/-- The store after calls. -/
def afterCalls (s : Store) (calls : List Call) : Store :=
  calls.foldl (fun s call => (s.answer call).store) s

variable {s : Store} {key : Bytes} {e : End} {block : List Bytes} {count : Nat} {call : Call}

/-! ### Runs -/

/-- **What every call keeps, every run keeps.** -/
theorem afterCalls_keeps {P : Store → Prop} (hcall : ∀ s call, P s → P (s.answer call).store)
    (h : P s) (calls : List Call) : P (s.afterCalls calls) := by
  induction calls generalizing s with
  | nil => exact h
  | cons call rest ih => exact ih (hcall s call h)

/-- A call changes neither the configuration nor the machine. -/
theorem config_answer (s : Store) (call : Call) :
    (s.answer call).store.config = s.config ∧ (s.answer call).store.machine = s.machine := by
  cases call with
  | request r =>
      obtain ⟨hconfig, hmachine, -⟩ := s.serve_frame r
      exact ⟨hconfig, hmachine⟩
  | command c =>
      obtain ⟨hconfig, hmachine, -⟩ := c.run_frame s
      exact ⟨hconfig, hmachine⟩
  | take key e count => exact ⟨s.config_put key _, s.machine_put key _⟩

/-- **After any calls** every value of the store is sound. -/
theorem sound_afterCalls (machine : Machine) (config : Config) (calls : List Call) :
    ((empty machine config).afterCalls calls).Every Value.Sound :=
  afterCalls_keeps (P := Every Value.Sound) (fun _ call h => sound_answer h call)
    (every_empty machine config) calls

/-- After any calls the configuration and the machine are those of the empty store. -/
theorem config_afterCalls (machine : Machine) (config : Config) (calls : List Call) :
    ((empty machine config).afterCalls calls).config = config ∧
      ((empty machine config).afterCalls calls).machine = machine := by
  apply afterCalls_keeps (P := fun s => s.config = config ∧ s.machine = machine)
  · intro s call h
    obtain ⟨hconfig, hmachine⟩ := s.config_answer call
    exact ⟨hconfig.trans h.1, hmachine.trans h.2⟩
  · exact ⟨rfl, rfl⟩

/-! ### Pushes and pops -/

/-- A call that pushes is answered like the command. -/
theorem answer_of_pushes (h : call.Pushes key e block) :
    s.answer call = ((Command.push e key block).run s).response := by
  cases h with
  | request r hcommand => exact serve_eq_of_command? hcommand
  | command => rfl

/-- A pop of a count of zero takes nothing, so all pops leave what taking values leaves. -/
theorem store_run_pop (h : s.Every Value.ListShaped) (hkey : s.TakesLists key)
    (count : Option Nat) :
    ((Command.pop e key count).run s).store = (s.popList key e (count.getD 1)).store := by
  obtain _ | _ | count := count
  · rfl
  · obtain ⟨q, hq, hget⟩ := exists_keepList h hkey
    have hstays : (s.popList key e 0).store = s.put key (s.get? key) := by
      rw [(popList_of_keepList hq.chained hget e 0).2, hget]
      rfl
    rw [Option.getD_some, hstays, put_get?]
    rfl
  · rfl

/-- A call that pops leaves what popping leaves. -/
theorem store_answer_of_pops (h : s.Every Value.ListShaped) (hkey : s.TakesLists key)
    (hpops : call.Pops key e count) :
    (s.answer call).store = (s.popList key e count).store := by
  cases hpops with
  | request r count hcommand =>
      have hstore : (s.serve r).store = _ := (serve_of_command? hcommand).2
      exact hstore.trans (store_run_pop h hkey count)
  | command count => exact store_run_pop h hkey count
  | take count => rfl

/-- A key is missing exactly if nothing is held under it. -/
theorem contains_eq_false_iff : s.contains key = false ↔ s.get? key = none := by
  rw [contains_eq_isSome, Option.isSome_eq_false_iff, Option.isNone_iff_eq_none]

/-- **The key of a list goes** with the pop that empties the list. -/
theorem contains_popList (h : s.Every Value.ListShaped) {q : Quicklist}
    (hget : s.get? key = some (.list q)) (e : End) (count : Nat) :
    (s.popList key e count).store.contains key = false ↔ (q.popMany e count).1.len = 0 := by
  have hq : q.Standing := h key _ hget
  have hkept : s.get? key = keepList q := hget.trans (keepList_of_standing hq).symm
  rw [contains_eq_false_iff, (popList_of_keepList hq.1 hkept e count).2, get?_put_self, keepList]
  by_cases hempty : (q.popMany e count).1.isEmpty = true
  · rw [if_pos hempty]
    exact iff_of_true rfl (decide_eq_true_eq.mp hempty)
  · rw [if_neg hempty]
    exact iff_of_false (Option.some_ne_none _) fun hlen => hempty (decide_eq_true hlen)

/-- A key of the type of lists holds a list. -/
theorem exists_list_of_typeName (h : s.typeName? key = some "list") :
    ∃ q, s.get? key = some (.list q) := by
  obtain ⟨value, hget, hname⟩ := Option.map_eq_some_iff.mp h
  cases value with
  | list q => exact ⟨q, hget⟩
  | _ => simp [Value.typeName] at hname

/-- **At a key that is not there**, a push makes what it makes of a list without values. -/
theorem store_pushList_of_absent (hnone : s.get? key = none) (e : End) (block : List Bytes) :
    (s.pushList key e block).store =
      s.put key (keepList ((Quicklist.empty s.config.listNodeMax).push e block).1) :=
  (pushList_of_keepList (.inl rfl) hnone e block).2

/-- Pushing nothing to a missing key makes no list. -/
theorem store_pushList_nil (hnone : s.get? key = none) (e : End) :
    (s.pushList key e []).store = s := by
  have hnothing : keepList ((Quicklist.empty s.config.listNodeMax).push e []).1 = none := by
    cases e <;> rfl
  rw [store_pushList_of_absent hnone, hnothing, ← hnone, put_get?]

/-- A list that a push makes has values of this push only. -/
theorem sublist_of_pushList {q : Quicklist} (hnone : s.get? key = none)
    (hmade : (s.pushList key e block).store.get? key = some (.list q)) :
    q.values.Sublist block := by
  rw [store_pushList_of_absent hnone, get?_put_self, keepList] at hmade
  split at hmade
  · cases hmade
  · cases hmade
    exact values_push_empty s.config.listNodeMax e block

/-- **No key holds an empty list**, whatever was asked of a store, and its count is that of
its values.  A key is gone after a pop exactly if the pop has emptied its list.  At a key that
is not there, a push of no values makes nothing, and any push does what it does in a new
store: the list that it makes holds some of its values and nothing else. -/
theorem holds_no_empty_list (machine : Machine) (config : Config) {calls : List Call}
    (hs : s = (empty machine config).afterCalls calls) (key : Bytes) :
    (s.typeName? key = some "list" →
      ∃ q, s.get? key = some (.list q) ∧ 1 ≤ q.len ∧ q.values.length = q.len) ∧
    (∀ q, s.get? key = some (.list q) → ∀ e count call, call.Pops key e count →
      ((s.answer call).store.contains key = false ↔ (q.popMany e count).1.len = 0)) ∧
    (s.contains key = false →
      (∀ e call, call.Pushes key e [] → (s.answer call).store = s) ∧
      ∀ e block call, call.Pushes key e block →
        (s.answer call).reply = ((empty machine config).answer call).reply ∧
        (s.answer call).store.get? key = ((empty machine config).answer call).store.get? key ∧
        ∀ q, (s.answer call).store.get? key = some (.list q) → q.values.Sublist block) := by
  have hsound : s.Every Value.Sound := hs ▸ sound_afterCalls machine config calls
  have hshaped : s.Every Value.ListShaped := fun key value hvalue =>
    (Value.sound_iff.mp (hsound key value hvalue)).1
  obtain ⟨hconfig, hmachine⟩ := config_afterCalls machine config calls
  rw [← hs] at hconfig hmachine
  refine ⟨?_, ?_, ?_⟩
  · intro hname
    obtain ⟨q, hget⟩ := exists_list_of_typeName hname
    have hq : q.Standing := hshaped key _ hget
    exact ⟨q, hget, Nat.one_le_iff_ne_zero.mpr (isEmpty_eq_false_iff.mp hq.2),
      hq.1.length_values⟩
  · intro q hget e count call hpops
    have hkey : s.TakesLists key := by
      intro value hvalue
      exact ⟨q, Option.some.inj (hvalue.symm.trans hget)⟩
    rw [store_answer_of_pops hshaped hkey hpops]
    exact contains_popList hshaped hget e count
  · intro hgone
    have hnone : s.get? key = none := contains_eq_false_iff.mp hgone
    -- at this key the store is like an empty one, and pushing looks at nothing else
    have hagree : AgreeOn [key] (empty machine config) s := by
      refine ⟨hconfig, hmachine, fun other hother => ?_⟩
      rw [List.mem_singleton.mp hother, hnone]
      rfl
    refine ⟨?_, ?_⟩
    · intro e call hpushes
      rw [answer_of_pushes hpushes]
      exact store_pushList_nil hnone e
    · intro e block call hpushes
      rw [answer_of_pushes hpushes, answer_of_pushes hpushes]
      obtain ⟨hanswer, -, hstores⟩ := (Command.push e key block).run_agrees hagree
      exact ⟨congrArg replyTo hanswer, hstores.get?_eq_of_singleton,
        fun q hmade => sublist_of_pushList hnone hmade⟩

/-- A push of nothing, a push of two values, and a pop that asks for five: it empties the
list, and a push of no values to its key leaves the key missing. -/
theorem holds_no_empty_list_emptied :
    let new := empty ⟨id, id, fun _ n => n⟩ {}
    let calls := [Call.command (.push .back [0x6B] []),
      .request ⟨CommandName.rpush.bytes, [[0x6B], [0x61], [0x62]]⟩]
    let s := new.afterCalls calls
    let t := new.afterCalls (calls ++ [.take [0x6B] .back 5])
    s.typeName? [0x6B] = some "list" ∧ t.contains [0x6B] = false ∧
      (∃ q, s.get? [0x6B] = some (.list q) ∧ 1 ≤ q.len ∧ (q.popMany .back 5).1.len = 0) ∧
      (t.answer (.command (.push .front [0x6B] []))).store = t ∧
      (t.answer (.command (.push .front [0x6B] [[0x63]]))).reply =
        (new.answer (.command (.push .front [0x6B] [[0x63]]))).reply := by
  intro new calls s t
  have hlist : s.typeName? [0x6B] = some "list" := by decide +kernel
  have hgone : t.contains [0x6B] = false := by decide +kernel
  obtain ⟨hheld, hpop, -⟩ := holds_no_empty_list ⟨id, id, fun _ n => n⟩ {} (s := s) rfl [0x6B]
  obtain ⟨-, -, habsent⟩ := holds_no_empty_list ⟨id, id, fun _ n => n⟩ {} (s := t) rfl [0x6B]
  obtain ⟨q, hget, hlen, -⟩ := hheld hlist
  obtain ⟨hnothing, hfresh⟩ := habsent hgone
  have hemptied : (s.answer (.take [0x6B] .back 5)).store.contains [0x6B] = false := hgone
  refine ⟨hlist, hgone, ⟨q, hget, hlen, ?_⟩, hnothing _ _ .command, (hfresh _ _ _ .command).1⟩
  exact (hpop q hget .back 5 _ (.take 5)).mp hemptied

end Store

end CompactStore
