import CompactStore.Proofs.Command.Names
import Mathlib.Data.Finset.Card
import Mathlib.Data.Finset.Dedup

/-!
# Deleting keys and asking for keys

The keys of a request are taken out one after another, and each is looked for in the
store that the keys before it have left.  A key that stands twice is therefore found
once, and the number that is told is the size of a *set*: the keys of the request that
the store holds.  Each key taken out leaves this set and the store together, so the
store gets smaller by what is told, and neither the order of the keys nor how often each
stands makes a difference.

A question looks for every key in the same store, so it counts a key as often as it
stands.
-/

namespace CompactStore

namespace Store

/-- The keys among some that a store holds, each once. -/
def heldAmong (s : Store) (keys : List Bytes) : Finset Bytes :=
  keys.toFinset.filter fun key => s.contains key

variable {s : Store} {key other : Bytes} {keys rest : List Bytes}

theorem mem_heldAmong : key ∈ s.heldAmong keys ↔ key ∈ keys ∧ s.contains key = true := by
  rw [heldAmong, Finset.mem_filter, List.mem_toFinset]

/-! ### One key -/

/-- Deleting a key takes this key away and no other. -/
theorem contains_delete :
    (s.delete key).1.contains other = true ↔ other ≠ key ∧ s.contains other = true := by
  rw [contains_eq_isSome, contains_eq_isSome, get?_delete]
  by_cases h : key = other
  · simp [h]
  · simp [h, Ne.symm h]

/-- A key that is taken out is none of the held ones any more. -/
theorem heldAmong_delete :
    (s.delete key).1.heldAmong rest = (s.heldAmong (key :: rest)).erase key := by
  ext other
  rw [mem_heldAmong, contains_delete, Finset.mem_erase, mem_heldAmong, List.mem_cons]
  tauto

/-- Of the held keys, the first is one if it is held, and the others are those that are
held without it. -/
theorem card_heldAmong_cons : (s.heldAmong (key :: rest)).card =
    (s.contains key).toNat + ((s.delete key).1.heldAmong rest).card := by
  rw [heldAmong_delete]
  cases hfound : s.contains key with
  | true =>
      have hmem : key ∈ s.heldAmong (key :: rest) :=
        mem_heldAmong.mpr ⟨List.mem_cons_self, hfound⟩
      rw [← Finset.card_erase_add_one hmem, Nat.add_comm]
      rfl
  | false =>
      have hmem : key ∉ s.heldAmong (key :: rest) := fun hmem => by
        rw [(mem_heldAmong.mp hmem).2] at hfound
        cases hfound
      rw [Finset.erase_eq_of_notMem hmem]
      exact (Nat.zero_add _).symm

/-- A store gets smaller by a key that it holds. -/
theorem size_delete : (s.delete key).1.size + (s.contains key).toNat = s.size := by
  have herase : (s.delete key).1.size = if s.contains key then s.size - 1 else s.size :=
    Std.ExtTreeMap.size_erase
  cases hfound : s.contains key with
  | true =>
      have hpositive : s.size ≠ 0 := fun hzero =>
        Std.ExtTreeMap.ne_empty_of_mem hfound (Std.ExtTreeMap.eq_empty_iff_size_eq_zero.mpr hzero)
      rw [hfound, if_pos rfl] at herase
      rw [herase]
      exact Nat.sub_one_add_one hpositive
  | false =>
      rw [hfound] at herase
      exact herase

/-! ### One key after another -/

/-- A key is counted when the store that the keys before it have left holds it. -/
theorem deleteEach_cons (s : Store) (count : Nat) (key : Bytes) (rest : List Bytes) :
    s.deleteEach count (key :: rest) =
      (s.delete key).1.deleteEach (count + (s.contains key).toNat) rest := by
  have hstep : s.deleteEach count (key :: rest) = (s.delete key).1.deleteEach
      (if s.contains key then count + 1 else count) rest := rfl
  rw [hstep]
  cases s.contains key <;> rfl

/-- **The number that is told** is that of the held keys, each counted once. -/
theorem count_deleteEach (s : Store) (count : Nat) (keys : List Bytes) :
    (s.deleteEach count keys).2 = count + (s.heldAmong keys).card := by
  induction keys generalizing s count with
  | nil => rfl
  | cons key rest ih => rw [deleteEach_cons, ih, card_heldAmong_cons, Nat.add_assoc]

/-- **A store gets smaller by the number that is told.** -/
theorem size_deleteEach (s : Store) (count : Nat) (keys : List Bytes) :
    (s.deleteEach count keys).1.size + (s.deleteEach count keys).2 = s.size + count := by
  induction keys generalizing s count with
  | nil => rfl
  | cons key rest ih =>
      have hkey : (s.delete key).1.size + (s.contains key).toNat = s.size := size_delete
      have hrest := ih (s.delete key).1 (count + (s.contains key).toNat)
      rw [deleteEach_cons]
      omega

/-- **Only which keys there are matters**, neither their order nor how often each stands. -/
theorem deleteEach_congr (s : Store) {others : List Bytes}
    (h : ∀ key, key ∈ others ↔ key ∈ keys) : s.deleteEach 0 others = s.deleteEach 0 keys := by
  have hheld : s.heldAmong others = s.heldAmong keys := by
    ext key
    rw [mem_heldAmong, mem_heldAmong, h key]
  have hstores : (s.deleteEach 0 others).1 = (s.deleteEach 0 keys).1 := by
    obtain ⟨hconfig, hmachine⟩ := s.config_deleteEach 0 others
    obtain ⟨hconfig', hmachine'⟩ := s.config_deleteEach 0 keys
    refine ext_get? (hconfig.trans hconfig'.symm) (hmachine.trans hmachine'.symm) ?_
    intro key
    simp only [get?_deleteEach, h key]
  have hcounts : (s.deleteEach 0 others).2 = (s.deleteEach 0 keys).2 := by
    rw [count_deleteEach, count_deleteEach, hheld]
  exact Prod.ext hstores hcounts

/-- No key that was taken out is found. -/
theorem countP_contains_deleteEach (s : Store) (count : Nat) (keys : List Bytes) :
    keys.countP (s.deleteEach count keys).1.contains = 0 := by
  rw [List.countP_eq_zero]
  intro key hkey
  rw [contains_eq_isSome, get?_deleteEach, if_pos hkey]
  exact Bool.false_ne_true

/-! ### Requests -/

/-- A request to delete keys deletes one after another. -/
theorem serve_delete {written : Bytes} (hname : Bytes.upper written = CommandName.del.bytes)
    (hkeys : keys ≠ []) : s.serve ⟨written, keys⟩ =
      ⟨.ofCount (s.deleteEach 0 keys).2, (s.deleteEach 0 keys).1, []⟩ := by
  obtain ⟨key, rest, rfl⟩ := List.exists_cons_of_ne_nil hkeys
  have hread : Request.command? ⟨written, key :: rest⟩ = some (.delete (key :: rest)) :=
    Request.command?_of_upper hname _
  exact serve_eq_of_command? hread

/-- A request for keys counts those that are there, and a key twice if it is asked for twice. -/
theorem serve_present {written : Bytes} (hname : Bytes.upper written = CommandName.exist.bytes)
    (hkeys : keys ≠ []) : s.serve ⟨written, keys⟩ =
      ⟨.ofCount (keys.countP s.contains), s, []⟩ := by
  obtain ⟨key, rest, rfl⟩ := List.exists_cons_of_ne_nil hkeys
  have hread : Request.command? ⟨written, key :: rest⟩ = some (.present (key :: rest)) :=
    Request.command?_of_upper hname _
  exact serve_eq_of_command? hread

/-- **Deleting and asking.**  A deletion of keys tells how many different ones of them the
store held, takes exactly these out and leaves what every other key holds, and the store
gets smaller by the number that is told; the keys in another order are answered the same
and leave the same store.  A question for keys tells at how many places a key stands that
the store holds, and after a deletion of the same keys it tells none. -/
theorem serve_deleting_and_asking (s : Store) {del exist : Bytes} {keys : List Bytes}
    (hdel : Bytes.upper del = CommandName.del.bytes)
    (hexist : Bytes.upper exist = CommandName.exist.bytes) (hkeys : keys ≠ []) :
    let gone := s.serve ⟨del, keys⟩
    (gone.reply = .ofCount (s.heldAmong keys).card ∧
      (∀ key, gone.store.get? key = if key ∈ keys then none else s.get? key) ∧
      gone.store.size + (s.heldAmong keys).card = s.size ∧
      ∀ others : List Bytes, others.Perm keys → s.serve ⟨del, others⟩ = gone) ∧
    (s.serve ⟨exist, keys⟩).reply = .ofCount (keys.countP s.contains) ∧
      (s.serve ⟨exist, keys⟩).store = s ∧
      (gone.store.serve ⟨exist, keys⟩).reply = .int 0 := by
  intro gone
  have hgone : gone = _ := serve_delete hdel hkeys
  have hcount : (s.deleteEach 0 keys).2 = (s.heldAmong keys).card :=
    (s.count_deleteEach 0 keys).trans (Nat.zero_add _)
  refine ⟨⟨?_, ?_, ?_, ?_⟩, ?_, ?_, ?_⟩
  · rw [hgone, hcount]
  · intro key
    rw [hgone]
    exact s.get?_deleteEach 0 keys key
  · rw [hgone, ← hcount]
    exact s.size_deleteEach 0 keys
  · intro others hperm
    have hothers : others ≠ [] := fun hnil => hkeys (List.nil_perm.mp (hnil ▸ hperm))
    rw [hgone, serve_delete hdel hothers, s.deleteEach_congr fun _ => hperm.mem_iff]
  · rw [serve_present hexist hkeys]
  · rw [serve_present hexist hkeys]
  · rw [serve_present hexist hkeys, hgone, countP_contains_deleteEach]
    rfl

/-- Five keys, of which one stands three times and one is missing, under names in mixed
case: two keys go, and a sketch stays behind. -/
theorem serve_deleting_and_asking_repeated :
    let s := (empty ⟨id, id, fun _ n => n⟩ {}).after
      [⟨CommandName.rpush.bytes, [[0x61], [0x78]]⟩,
        ⟨CommandName.rpush.bytes, [[0x62], [0x78], [0x79]]⟩,
        ⟨CommandName.cmsInitByDim.bytes, [[0x63], [0x32], [0x33]]⟩]
    let del := Bytes.ofAscii "del".toList
    let exist := Bytes.ofAscii "Exists".toList
    let keys := [[0x61], [0x7A], [0x61], [0x62], [0x61]]
    let gone := s.serve ⟨del, keys⟩
    s.size = 3 ∧ gone.reply = .int 2 ∧ gone.store.size = 1 ∧
      gone.store.get? [0x61] = none ∧ gone.store.get? [0x63] = s.get? [0x63] ∧
      s.contains [0x63] = true ∧
      s.serve ⟨del, [[0x62], [0x61], [0x61], [0x61], [0x7A]]⟩ = gone ∧
      (s.serve ⟨exist, keys⟩).reply = .int 4 ∧
      (gone.store.serve ⟨exist, keys⟩).reply = .int 0 := by
  intro s del exist keys gone
  have hsize : s.size = 3 := by decide +kernel
  have hheld : (s.heldAmong keys).card = 2 := by decide +kernel
  have hplaces : keys.countP s.contains = 4 := by decide +kernel
  have hperm : [[0x62], [0x61], [0x61], [0x61], [0x7A]].Perm keys := by decide +kernel
  have hdel : Bytes.upper del = CommandName.del.bytes := by decide +kernel
  have hexist : Bytes.upper exist = CommandName.exist.bytes := by decide +kernel
  have hkeys : keys ≠ [] := List.cons_ne_nil _ _
  obtain ⟨⟨hreply, hget, hshrunk, horder⟩, hasked, -, hnone⟩ :=
    serve_deleting_and_asking s hdel hexist hkeys
  rw [hheld] at hreply
  rw [hheld, hsize] at hshrunk
  rw [hplaces] at hasked
  have hsketch : s.contains [0x63] = true := by decide +kernel
  have hafter : gone.store.size = 1 := Nat.add_right_cancel hshrunk
  refine ⟨hsize, hreply, hafter, ?_, ?_, hsketch, horder _ hperm, hasked, hnone⟩
  · exact (hget [0x61]).trans (if_pos (by decide +kernel))
  · exact (hget [0x63]).trans (if_neg (by decide +kernel))

end Store

end CompactStore
