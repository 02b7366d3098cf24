import CompactStore.Proofs.Store.Invariants
import Mathlib.Data.List.Infix

/-!
# The type of a key

A key keeps its type for as long as it is there.  It goes when it is deleted, or with the
pop that takes all that its list holds, and not in any other way.  A command of another
family is refused, whatever it asks; a command that makes a value is refused at every key
that is there.
-/

namespace CompactStore

open Quicklist Store

/-- Values of one family have one type. -/
theorem Value.typeName_eq {value later : Value} (h : later.family = value.family) :
    later.typeName = value.typeName := by
  cases value <;> cases later <;> first | rfl | cases h

namespace FamilyStep

variable {family : Family} {value later : Value}

/-- What stays keeps its type, whose step it may be. -/
theorem family_eq (h : FamilyStep family (some value) (some later)) :
    later.family = value.family := by
  cases h with
  | same => rfl
  | changed v w hv hw => exact hw.trans hv.symm

/-- Only a list is taken away. -/
theorem eq_list_of_none (h : FamilyStep family (some value) none) :
    family = .list ∧ ∃ q, value = .list q := by
  cases h with
  | emptied q hlist => exact ⟨hlist, q, rfl⟩

end FamilyStep

namespace Store

variable {s : Store} {key : Bytes} {value later : Value} {r q : Request} {since : List Request}

/-! ### While a key is there -/

/-- **One request** leaves the type of a key that stays. -/
theorem family_serve (hget : s.get? key = some value)
    (hlater : (s.serve r).store.get? key = some later) : later.family = value.family := by
  cases hcommand : r.command? with
  | none =>
      rw [(serve_of_command?_none hcommand).2, hget] at hlater
      rw [Option.some.inj hlater]
  | some c =>
      rw [(serve_of_command? hcommand).2] at hlater
      obtain ⟨keys, -, -, hnone⟩ | hstep := c.run_cases s key
      · rw [hnone] at hlater
        cases hlater
      · rw [hget, hlater] at hstep
        exact hstep.family_eq

/-- **A run** leaves the type of a key that stays all along. -/
theorem family_after (hget : s.get? key = some value)
    (hstays : ∀ front, front <+: since → (s.after front).contains key = true) :
    ∃ later, (s.after since).get? key = some later ∧ later.family = value.family := by
  induction since generalizing s value with
  | nil => exact ⟨value, hget, rfl⟩
  | cons r rest ih =>
      have hone : (s.serve r).store.contains key = true := hstays [r] ⟨rest, rfl⟩
      rw [contains_eq_isSome] at hone
      obtain ⟨next, hnext⟩ := Option.isSome_iff_exists.mp hone
      obtain ⟨later, hlater, hfamily⟩ := ih hnext fun front hfront =>
        hstays (r :: front) (List.cons_prefix_cons.mpr ⟨rfl, hfront⟩)
      exact ⟨later, hlater, hfamily.trans (family_serve hget hnext)⟩

/-- A request for a type replies that of the value. -/
theorem reply_type (hget : s.get? key = some value) (hq : q.command? = some (.type key)) :
    (s.serve q).reply = .ofText value.typeName := by
  rw [(serve_of_command? hq).1, Command.run, answering, typeName?, hget]
  rfl

/-! ### How a key goes -/

/-- A pop that takes a list away has taken all that it held. -/
theorem popList_of_removed {list : Quicklist} {e : End} {count : Nat}
    (hget : s.get? key = some (.list list)) (hshaped : list.Standing)
    (hgone : (s.popList key e count).store.get? key = none) :
    (s.popList key e count).answer = .ok (some (e.orient list.values)) ∧
      list.values ≠ [] ∧ list.values.length ≤ count := by
  have hkept : s.get? key = keepList list := by rw [hget, keepList_of_standing hshaped]
  obtain ⟨hanswer, hstore⟩ := popList_of_keepList hshaped.1 hkept e count
  obtain ⟨hleft, htaken⟩ := hshaped.1.popEach e count []
  have hcount := length_popEach_le list e count []
  have hvalues : list.values ≠ [] := fun hnil =>
    Bool.false_ne_true (hshaped.2.symm.trans (hshaped.1.isEmpty_iff.mpr hnil))
  rw [hstore, get?_put_self, keepList] at hgone
  have hempty : (list.popMany e count).1.isEmpty = true := by
    by_contra hmore
    rw [if_neg hmore] at hgone
    cases hgone
  have hall : (list.popMany e count).2 = e.orient list.values := by
    rw [hleft.isEmpty_iff.mp hempty, End.orient_nil, List.append_nil] at htaken
    exact htaken.symm
  rw [hanswer, hall, List.isEmpty_eq_false_iff.mpr ((End.orient_eq_nil e _).not.mpr hvalues)]
  refine ⟨rfl, hvalues, ?_⟩
  rw [List.length_nil, Nat.zero_add] at hcount
  rwa [← End.length_orient e, ← hall]

/-! ### A value of another type -/

/-- A value of another type is no list. -/
theorem list_of_other (hget : s.get? key = some value) (hfamily : value.family ≠ .list) :
    s.list? key = .error .wrongType ∧
      (∀ e block, (s.pushList key e block).answer = .error .wrongType) ∧
      ∀ e count, (s.popList key e count).answer = .error .wrongType := by
  unfold list? pushList popList update
  rw [hget]
  cases value with
  | list q => exact absurd rfl hfamily
  | _ => exact ⟨rfl, fun _ _ => rfl, fun _ _ => rfl⟩

/-- A value of another type is no bloom filter. -/
theorem bloom_of_other (hget : s.get? key = some value) (hfamily : value.family ≠ .bloom) :
    s.bloom? key = .error .wrongType ∧
      ∀ items, (s.addBloomAll key items).answer = .error .wrongType := by
  unfold bloom? addBloomAll update
  rw [hget]
  cases value with
  | bloom f => exact absurd rfl hfamily
  | _ => exact ⟨rfl, fun _ => rfl⟩

/-- A value of another type is no cuckoo filter. -/
theorem cuckoo_of_other (hget : s.get? key = some value) (hfamily : value.family ≠ .cuckoo) :
    s.cuckoo? key = .error .wrongType ∧
      (∀ addition, (s.extendCuckoo key addition).answer = .error .wrongType) ∧
      ∀ item, (s.removeCuckoo key item).answer = .error .wrongType := by
  unfold cuckoo? extendCuckoo removeCuckoo update
  rw [hget]
  cases value with
  | cuckoo f => exact absurd rfl hfamily
  | _ => exact ⟨rfl, fun _ => rfl, fun _ => rfl⟩

/-- A value of another type is no sketch. -/
theorem sketch_of_other (hget : s.get? key = some value) (hfamily : value.family ≠ .sketch) :
    s.sketchInfo key = .error .wrongType ∧
      ∀ pairs, (s.incrementSketch key pairs).answer = .error .wrongType := by
  unfold sketchInfo incrementSketch update
  rw [hget]
  cases value with
  | sketch sketch => exact absurd rfl hfamily
  | _ => exact ⟨rfl, fun _ => rfl⟩

end Store

/-- The reply of a pop that took these values. -/
def popReply (values : List Bytes) : Option Nat → Reply
  | none => .ofBytes? values.head?
  | some _ => .ofValues values

namespace Command

variable {s : Store} {c : Command} {key : Bytes} {value : Value}

/-- A key that is gone, and was not deleted, held a list, and the command was a pop that
took all of it. -/
theorem exists_pop_of_removed (hshaped : s.Every Value.ListShaped)
    (hget : s.get? key = some value) (hgone : (c.run s).store.get? key = none)
    (hstep : FamilyStep c.family (s.get? key) ((c.run s).store.get? key)) :
    ∃ e count list, c = .pop e key count ∧ value = .list list ∧ list.values ≠ [] ∧
      list.values.length ≤ count.getD 1 ∧
      replyTo (c.run s).answer = popReply (e.orient list.values) count := by
  rw [hget, hgone] at hstep
  obtain ⟨hfamily, list, rfl⟩ := hstep.eq_list_of_none
  obtain ⟨own, l, rfl⟩ := exists_under_of_family hfamily
  -- a command on another key would have left this one
  have hown : own = key := by
    by_contra hne
    have hframe := ((l.under own).run_frame s).2.2 key (by
      rw [keys_under]
      exact fun hmem => hne (List.mem_singleton.mp hmem).symm)
    rw [hframe, hget] at hgone
    cases hgone
  subst hown
  have hlist : list.Standing := hshaped own _ hget
  cases l with
  | push e block =>
      have hstore := (pushList_of_keepList (.inr hlist)
        (hget.trans (keepList_of_standing hlist).symm) e block).2
      -- a list that was pushed to stands, so its key stays
      have hpushed : (list.push e block).1.Standing :=
        push_keeps (fun _ value _ h => h.pushOne e value) hlist
      rw [ListCommand.under, run, store_map, hstore, get?_put_self,
        keepList_of_standing hpushed] at hgone
      cases hgone
  | pop e =>
      have hpopped : (s.popList own e 1).store.get? own = none := hgone
      obtain ⟨hanswer, hvalues, hlength⟩ := popList_of_removed hget hlist hpopped
      refine ⟨e, none, list, rfl, rfl, hvalues, hlength, ?_⟩
      rw [ListCommand.under, run, answer_map, hanswer]
      rfl
  | popMany e count =>
      obtain _ | count := count
      · exact absurd (hget.symm.trans hgone) (Option.some_ne_none _)
      · have hpopped : (s.popList own e (count + 1)).store.get? own = none := hgone
        obtain ⟨hanswer, hvalues, hlength⟩ := popList_of_removed hget hlist hpopped
        refine ⟨e, some (count + 1), list, rfl, rfl, hvalues, hlength, ?_⟩
        rw [ListCommand.under, run_pop_succ, answer_map, hanswer]
        rfl
  | _ => exact absurd (hget.symm.trans hgone) (Option.some_ne_none _)

/-! ### What is refused -/

/-- Whether the command makes a value under its key, and does nothing else. -/
def creates : Command → Bool
  | bloomReserve .. | cuckooReserve .. | sketchCreate .. | sketchCreateFor .. => true
  | _ => false

/-- **A key that is there** is not made again, whatever it holds. -/
theorem answer_run_of_creates (hcreates : c.creates = true) (hkey : key ∈ c.keys)
    (hget : s.get? key = some value) : (c.run s).answer = .error .keyExists := by
  cases c with
  | bloomReserve k errorRate capacity =>
      obtain rfl := List.mem_singleton.mp hkey
      rw [run, answer_map, reserveBloom, update, hget]
      rfl
  | cuckooReserve k errorRate capacity =>
      obtain rfl := List.mem_singleton.mp hkey
      rw [run, answer_map, reserveCuckoo, update, hget]
      rfl
  | sketchCreate k rows columns =>
      obtain rfl := List.mem_singleton.mp hkey
      rw [run, answer_map, createSketch, putSketch, update, hget]
      rfl
  | sketchCreateFor k errorRate probability =>
      obtain rfl := List.mem_singleton.mp hkey
      rw [run, answer_map, createSketchFor, putSketch, update, hget]
      rfl
  | _ => cases hcreates

/-- Commands on lists refuse a value of another type. -/
theorem answer_run_under_of_other (hget : s.get? key = some value) (hfamily : value.family ≠ .list)
    (l : ListCommand) : ((l.under key).run s).answer = .error .wrongType := by
  obtain ⟨hlist, hpush, hpop⟩ := list_of_other hget hfamily
  cases l with
  | push e block =>
      rw [ListCommand.under, run, answer_map, hpush]
      rfl
  | pop e =>
      rw [ListCommand.under, run, answer_map, hpop]
      rfl
  | popMany e count =>
      obtain _ | count := count
      · have hcontains : s.contains key = true := by
          rw [contains_eq_isSome, hget, Option.isSome_some]
        rw [ListCommand.under, run_pop_zero, hcontains, if_pos rfl, answering, listLength, hlist]
        rfl
      · rw [ListCommand.under, run_pop_succ, answer_map, hpop]
        rfl
  | length =>
      rw [ListCommand.under, run, answering, listLength, hlist]
      rfl
  | range start stop =>
      rw [ListCommand.under, run, answering, listRange, hlist]
      rfl
  | index i =>
      rw [ListCommand.under, run, answering, listIndex, hlist]
      rfl

/-- **A value of another type** refuses every command that does not make one. -/
theorem answer_run_of_other (hget : s.get? key = some value) (hkey : key ∈ c.keys)
    (hcreates : c.creates = false) (hgeneric : c.family ≠ .generic)
    (hfamily : value.family ≠ c.family) : (c.run s).answer = .error .wrongType := by
  by_cases hlist : c.family = .list
  · obtain ⟨own, l, rfl⟩ := exists_under_of_family hlist
    rw [keys_under, List.mem_singleton] at hkey
    subst hkey
    exact answer_run_under_of_other hget (hlist ▸ hfamily) l
  cases c with
  | bloomAdd k item =>
      obtain rfl := List.mem_singleton.mp hkey
      rw [run, answer_map, addBloom, answer_map, (bloom_of_other hget hfamily).2]
      rfl
  | bloomAddAll k items =>
      obtain rfl := List.mem_singleton.mp hkey
      rw [run, answer_map, (bloom_of_other hget hfamily).2]
      rfl
  | bloomContains k item =>
      obtain rfl := List.mem_singleton.mp hkey
      rw [run, answering, Store.bloomContains, (bloom_of_other hget hfamily).1]
      rfl
  | bloomContainsAll k items =>
      obtain rfl := List.mem_singleton.mp hkey
      rw [run, answering, Store.bloomContainsAll, (bloom_of_other hget hfamily).1]
      rfl
  | bloomInfo k =>
      obtain rfl := List.mem_singleton.mp hkey
      rw [run, answering, Store.bloomInfo, (bloom_of_other hget hfamily).1]
      rfl
  | bloomCard k =>
      obtain rfl := List.mem_singleton.mp hkey
      rw [run, answering, Store.bloomCard, (bloom_of_other hget hfamily).1]
      rfl
  | cuckooAdd k item =>
      obtain rfl := List.mem_singleton.mp hkey
      rw [run, answer_map, addCuckoo, answer_map, (cuckoo_of_other hget hfamily).2.1]
      rfl
  | cuckooAddNew k item =>
      obtain rfl := List.mem_singleton.mp hkey
      rw [run, answer_map, addCuckooNew, (cuckoo_of_other hget hfamily).2.1]
      rfl
  | cuckooContains k item =>
      obtain rfl := List.mem_singleton.mp hkey
      rw [run, answering, Store.cuckooContains, (cuckoo_of_other hget hfamily).1]
      rfl
  | cuckooContainsAll k items =>
      obtain rfl := List.mem_singleton.mp hkey
      rw [run, answering, Store.cuckooContainsAll, (cuckoo_of_other hget hfamily).1]
      rfl
  | cuckooRemove k item =>
      obtain rfl := List.mem_singleton.mp hkey
      rw [run, answer_map, (cuckoo_of_other hget hfamily).2.2]
      rfl
  | cuckooInfo k =>
      obtain rfl := List.mem_singleton.mp hkey
      rw [run, answering, Store.cuckooInfo, (cuckoo_of_other hget hfamily).1]
      rfl
  | sketchIncrement k pairs =>
      obtain rfl := List.mem_singleton.mp hkey
      rw [run, answer_map, (sketch_of_other hget hfamily).2]
      rfl
  | sketchEstimates k items =>
      obtain rfl := List.mem_singleton.mp hkey
      rw [run, answering, Store.sketchEstimates, (sketch_of_other hget hfamily).1]
      rfl
  | sketchInfo k =>
      obtain rfl := List.mem_singleton.mp hkey
      rw [run, answering, (sketch_of_other hget hfamily).1]
      rfl
  | push | pop | length | range | index => exact absurd rfl hlist
  | bloomReserve | cuckooReserve | sketchCreate | sketchCreateFor => cases hcreates
  | delete | present | type => exact absurd rfl hgeneric

end Command

namespace Store

variable {s : Store} {key : Bytes} {value : Value} {r : Request} {c : Command}

/-- **One request** takes a key away by deleting it, or by popping all that its list
holds. -/
theorem removed_serve (hshaped : s.Every Value.ListShaped) (hget : s.get? key = some value)
    (hgone : (s.serve r).store.get? key = none) :
    key ∈ r.deletes ∨ ∃ e count list, r.command? = some (.pop e key count) ∧
      value = .list list ∧ list.values ≠ [] ∧ list.values.length ≤ count.getD 1 ∧
      (s.serve r).reply = popReply (e.orient list.values) count := by
  cases hcommand : r.command? with
  | none =>
      rw [(serve_of_command?_none hcommand).2, hget] at hgone
      cases hgone
  | some c =>
      obtain ⟨hreply, hstore⟩ := serve_of_command? (s := s) hcommand
      rw [hstore] at hgone
      obtain ⟨keys, rfl, hkey, -⟩ | hstep := c.run_cases s key
      · left
        rw [Request.deletes, hcommand]
        exact hkey
      · right
        obtain ⟨e, count, list, rfl, hpop⟩ :=
          Command.exists_pop_of_removed hshaped hget hgone hstep
        rw [hreply]
        exact ⟨e, count, list, rfl, hpop⟩

/-- A key that is there refuses what would make it, and what asks for another type. -/
theorem refused_serve (hget : s.get? key = some value) (hcommand : r.command? = some c)
    (hkey : key ∈ c.keys) (hgeneric : c.family ≠ .generic) :
    (c.creates = true → (s.serve r).reply = .ofError .keyExists) ∧
      (c.creates = false → value.family ≠ c.family →
        (s.serve r).reply = .ofError .wrongType) := by
  rw [(serve_of_command? hcommand).1]
  refine ⟨fun hcreates => ?_, fun hcreates hfamily => ?_⟩
  · rw [Command.answer_run_of_creates hcreates hkey hget]
    rfl
  · rw [Command.answer_run_of_other hget hkey hcreates hgeneric hfamily]
    rfl

/-- **The discipline of types**, in every reachable store.  A key that is there all along
a run keeps its type, which is the one it is said to have.  A key that a request takes away
was deleted by it, or held a list of which it popped and told all.  A command that makes a
value is refused because the key is there, whatever it holds; any other command of another
family is refused because of the type. -/
theorem serve_keeps_types (machine : Machine) (config : Config) (requests : List Request)
    (key : Bytes) :
    let s := (empty machine config).after requests
    (∀ value since, s.get? key = some value →
      (∀ front, front <+: since → (s.after front).contains key = true) →
      ∃ later, (s.after since).get? key = some later ∧ later.family = value.family ∧
        ∀ q : Request, q.command? = some (.type key) →
          (s.serve q).reply = .ofText value.typeName ∧
          ((s.after since).serve q).reply = .ofText value.typeName) ∧
    (∀ value r, s.get? key = some value → (s.serve r).store.get? key = none →
      key ∈ r.deletes ∨ ∃ e count list, r.command? = some (.pop e key count) ∧
        value = .list list ∧ list.values ≠ [] ∧ list.values.length ≤ count.getD 1 ∧
        (s.serve r).reply = popReply (e.orient list.values) count) ∧
    (∀ value (r : Request) c, s.get? key = some value → r.command? = some c → key ∈ c.keys →
      c.family ≠ .generic →
      (c.creates = true → (s.serve r).reply = .ofError .keyExists) ∧
      (c.creates = false → value.family ≠ c.family →
        (s.serve r).reply = .ofError .wrongType)) := by
  intro s
  refine ⟨?stays, ?goes, ?refused⟩
  case stays =>
    intro value since hget hstays
    obtain ⟨later, hlater, hfamily⟩ := family_after hget hstays
    refine ⟨later, hlater, hfamily, ?_⟩
    intro q hq
    rw [reply_type hlater hq, reply_type hget hq, Value.typeName_eq hfamily]
    exact ⟨rfl, rfl⟩
  case goes =>
    intro value r hget hgone
    exact removed_serve (listShaped_after machine config requests) hget hgone
  case refused =>
    intro value r c hget hcommand hkey hgeneric
    exact refused_serve hget hcommand hkey hgeneric

/-- A list of two values is still a list when there are three, goes with a pop of five,
and takes neither a filter in its place nor a question to one. -/
theorem serve_keeps_types_list :
    let s := (empty ⟨id, id, fun _ n => n⟩ {}).after
      [⟨CommandName.rpush.bytes, [[0x6B], [0x61], [0x62]]⟩]
    ((s.after [⟨CommandName.lpush.bytes, [[0x6B], [0x63]]⟩]).serve
      ⟨CommandName.type.bytes, [[0x6B]]⟩).reply = .ofText "list" ∧
    (s.serve ⟨CommandName.lpop.bytes, [[0x6B], [0x35]]⟩).store.get? [0x6B] = none ∧
    (∃ list, s.get? [0x6B] = some (.list list) ∧
      (s.serve ⟨CommandName.lpop.bytes, [[0x6B], [0x35]]⟩).reply = .ofValues list.values) ∧
    (s.serve ⟨CommandName.bfReserve.bytes, [[0x6B], [0x30, 0x2E, 0x35], [0x39]]⟩).reply =
      .ofError .keyExists ∧
    (s.serve ⟨CommandName.cfExists.bytes, [[0x6B], [0x61]]⟩).reply = .ofError .wrongType := by
  intro s
  have hfamily : (s.get? [0x6B]).map Value.family = some .list := by decide +kernel
  obtain ⟨list, hget⟩ : ∃ list, s.get? [0x6B] = some (.list list) := by
    obtain ⟨value, hget, hlist⟩ := Option.map_eq_some_iff.mp hfamily
    cases value with
    | list list => exact ⟨list, hget⟩
    | _ => cases hlist
  have hgone : ((s.serve ⟨CommandName.lpop.bytes, [[0x6B], [0x35]]⟩).store.get? [0x6B]).isNone := by
    decide +kernel
  have hprefixes : ∀ front ∈ [⟨CommandName.lpush.bytes, [[0x6B], [0x63]]⟩].inits,
      (s.after front).contains [0x6B] = true := by
    decide +kernel
  obtain ⟨hstays, hgoes, hrefused⟩ := serve_keeps_types ⟨id, id, fun _ n => n⟩ {}
    [⟨CommandName.rpush.bytes, [[0x6B], [0x61], [0x62]]⟩] [0x6B]
  obtain ⟨-, -, -, htype⟩ := hstays _ _ hget fun front hfront =>
    hprefixes front ((List.mem_inits _ _).mpr hfront)
  have hnone := Option.isNone_iff_eq_none.mp hgone
  obtain ⟨hreserve, -⟩ := hrefused _
    ⟨CommandName.bfReserve.bytes, [[0x6B], [0x30, 0x2E, 0x35], [0x39]]⟩ _ hget rfl
    List.mem_cons_self Family.noConfusion
  obtain ⟨-, hexists⟩ := hrefused _ ⟨CommandName.cfExists.bytes, [[0x6B], [0x61]]⟩ _ hget rfl
    List.mem_cons_self Family.noConfusion
  refine ⟨(htype ⟨CommandName.type.bytes, [[0x6B]]⟩ rfl).2, hnone, ⟨list, hget, ?_⟩,
    hreserve rfl, hexists rfl Family.noConfusion⟩
  obtain hdeleted | ⟨e, count, popped, hcommand, hvalue, -, -, hreply⟩ := hgoes _ _ hget hnone
  · cases hdeleted
  · have hread : Command.pop .front [0x6B] (some 5) = .pop e [0x6B] count :=
      Option.some.inj hcommand
    obtain ⟨rfl, -, rfl⟩ := Command.pop.inj hread
    obtain rfl := Value.list.inj hvalue
    exact hreply

end Store

end CompactStore
