import CompactStore.Proofs.Quicklist.Oversized
import Mathlib.Data.List.Infix
import Mathlib.Order.Bounds.Lattice

/-!
# The arena never leaks

The arena never shrinks, and it grows only when a node is linked and no index is free.  Then
every index is linked.  So after any operation the arena is as large as it was, or as the
chain is now, whichever is more (`size_apply`), and in a run it is as large as the longest
chain that was met: `run_never_leaks`.
-/

namespace CompactStore.Quicklist

open Deque

variable {q r s : Quicklist} {e : End}

/-! ### Linking fills the arena -/

/-- Nodes were linked, and the arena grew only as far as they ask for. -/
def Fills (q r : Quicklist) : Prop :=
  q.nodeCount ≤ r.nodeCount ∧ r.nodes.size = max q.nodes.size r.nodeCount

/-- There is an index for every linked node. -/
theorem nodeCount_le (q : Quicklist) : q.nodeCount ≤ q.nodes.size :=
  Nat.sub_le _ _

/-- Where nothing was linked, the arena is as large as it was. -/
theorem Fills.refl (q : Quicklist) : Fills q q :=
  ⟨Nat.le_refl _, (Nat.max_eq_left q.nodeCount_le).symm⟩

/-- Linking nodes and then others is linking nodes. -/
theorem Fills.trans (h : Fills q r) (h' : Fills r s) : Fills q s := by
  obtain ⟨hcount, hsize⟩ := h
  obtain ⟨hcount', hsize'⟩ := h'
  refine ⟨hcount.trans hcount', ?_⟩
  rw [hsize', hsize, Nat.max_assoc, Nat.max_eq_right hcount']

/-- The numbers of indices and of free ones are all that counts. -/
theorem Fills.congr (h : Fills q r) (hsize : s.nodes.size = r.nodes.size)
    (hfree : s.free = r.free) : Fills q s := by
  have hcount : s.nodeCount = r.nodeCount := by rw [nodeCount, nodeCount, hsize, hfree]
  rw [Fills, hcount, hsize]
  exact h

/-- **A free index is used first**, and without one every index is linked afterwards. -/
theorem fills_place (q : Quicklist) (new : Node) : Fills q (q.place new).1 := by
  obtain ⟨nodes, free, head, tail, count, nodeMax⟩ := q
  cases free with
  | nil =>
      simp only [Fills, nodeCount, place, Array.size_push, List.length_nil]
      omega
  | cons i free =>
      simp only [Fills, nodeCount, place, Array.size_setIfInBounds, List.length_cons]
      omega

/-- Linking one node fills the arena. -/
theorem fills_extend (q : Quicklist) (e : End) : Fills q (q.extend e) := by
  apply (fills_place q (({} : Node).link e.opposite (some (q.edge e)))).congr
  · cases e <;> exact size_modifyNode _ _ _
  · cases e <;> rfl

/-- Pushing to the node at an end links no node. -/
theorem fills_pushEdge (q : Quicklist) (e : End) (value : Bytes) :
    Fills q (q.pushEdge e value) :=
  (Fills.refl q).congr (size_modifyNode _ _ _) rfl

/-- Pushing a value fills the arena. -/
theorem fills_pushOne (q : Quicklist) (e : End) (value : Bytes) : Fills q (pushOne e q value) := by
  unfold pushOne
  split
  · exact Fills.refl q
  · dsimp only
    split
    · exact (fills_extend q e).trans (fills_pushEdge _ e value)
    · exact fills_pushEdge q e value

/-- Pushing values fills the arena, by induction on them. -/
theorem fills_push (q : Quicklist) (e : End) (values : List Bytes) : Fills q (q.push e values).1 :=
  push_keeps (fun r value _ h => h.trans (fills_pushOne r e value)) (Fills.refl q)

/-! ### Unlinking keeps the arena -/

/-- Taking a node off keeps its index in the arena. -/
theorem size_trim (q : Quicklist) (e : End) : (q.trim e).nodes.size = q.nodes.size := by
  unfold trim
  dsimp only
  split
  · rfl
  · split
    · cases e <;> exact size_modifyNode _ _ _
    · rfl

/-- Popping a value keeps the arena. -/
theorem size_pop? {value : Bytes} (h : q.pop? e = some (value, r)) :
    r.nodes.size = q.nodes.size := by
  obtain ⟨f, rfl⟩ := exists_trim_of_pop? h
  exact (size_trim _ e).trans (size_modifyNode q _ f)

/-- **One operation** leaves the arena as large as it was, or as there are linked nodes now. -/
theorem size_apply (q : Quicklist) (op : Operation) :
    (q.apply op).1.nodes.size = max q.nodes.size (q.apply op).1.nodeCount := by
  cases op with
  | push e values => exact (fills_push q e values).2
  | pop e =>
      rw [apply]
      cases hpop : q.pop? e with
      | none => exact (Nat.max_eq_left q.nodeCount_le).symm
      | some taken =>
          have hsize := size_pop? hpop
          rw [← hsize]
          exact (Nat.max_eq_left taken.2.nodeCount_le).symm

/-! ### The longest chain of a run -/

/-- The numbers of nodes that are linked at the same time, at the start of a run and after
each of its operations. -/
def linkedDuring (nodeMax : Nat) (ops : List Operation) : Set Nat :=
  {n | ∃ before, before <+: ops ∧ (run apply (empty nodeMax) before).1.chain.length = n}

/-- The same pushes and pops, value by value. -/
def singles : Operation → List Operation
  | .push e values => (e.opposite.orient values).map fun value => .push e [value]
  | .pop e => [.pop e]

/-- Pushing values as a run is pushing them one after another. -/
theorem run_map_push (q : Quicklist) (e : End) (values : List Bytes) :
    (run apply q (values.map fun value => .push e [value])).1 = values.foldl (pushOne e) q := by
  induction values generalizing q with
  | nil => rfl
  | cons value rest ih =>
      rw [List.map_cons, run, List.foldl_cons, ← ih, apply, push_singleton]

/-- An operation is what it does value by value. -/
theorem run_singles (q : Quicklist) (op : Operation) :
    (run apply q (singles op)).1 = (q.apply op).1 := by
  cases op with
  | push e values =>
      rw [singles, run_map_push]
      cases e <;> rfl
  | pop e => rfl

/-- Value by value the same is left. -/
theorem run_flatMap_singles (q : Quicklist) (ops : List Operation) :
    (run apply q (ops.flatMap singles)).1 = (run apply q ops).1 := by
  induction ops generalizing q with
  | nil => rfl
  | cons op rest ih =>
      rw [List.flatMap_cons, run_append, run_singles, ih]
      rfl

/-- One more operation adds the number of nodes that it leaves. -/
theorem linkedDuring_concat (nodeMax : Nat) (ops : List Operation) (op : Operation) :
    linkedDuring nodeMax (ops ++ [op]) =
      insert (run apply (empty nodeMax) (ops ++ [op])).1.chain.length
        (linkedDuring nodeMax ops) := by
  ext n
  simp only [linkedDuring, List.prefix_concat_iff, Set.mem_ofPred_eq, Set.mem_insert_iff,
    or_and_right, exists_or, exists_eq_left, eq_comm]

/-- **The arena is as large as the longest chain.** -/
theorem isGreatest_size_run (nodeMax : Nat) (ops : List Operation) :
    IsGreatest (linkedDuring nodeMax ops) (run apply (empty nodeMax) ops).1.nodes.size := by
  -- from the back: the last operation adds the last of the numbers
  induction ops using List.reverseRecOn with
  | nil =>
      refine ⟨⟨[], List.nil_prefix, rfl⟩, ?_⟩
      rintro n ⟨before, hbefore, rfl⟩
      rw [List.prefix_nil.mp hbefore]
      exact Nat.le_refl _
  | append_singleton ops op ih =>
      have hlast : (run apply (empty nodeMax) (ops ++ [op])).1 =
          ((run apply (empty nodeMax) ops).1.apply op).1 := by
        rw [run_append]
        rfl
      obtain ⟨parts, hparts⟩ := chained_run nodeMax (ops ++ [op])
      rw [linkedDuring_concat, ← hparts.nodeCount_eq_length, hlast, size_apply, Nat.max_comm]
      exact ih.insert _

/-- A free index is in the arena, and not in the chain. -/
theorem Holds.free_unlinked {parts : List Part} (h : Holds q .front parts) :
    q.free.Nodup ∧ ∀ i ∈ q.free, i < q.nodes.size ∧ i ∉ q.chain := by
  obtain ⟨-, hdistinct, hapart⟩ := List.nodup_append.mp h.nodup
  refine ⟨hdistinct, fun i hi => ⟨h.free_lt hi, fun hlinked => ?_⟩⟩
  rw [h.chain_eq] at hlinked
  exact hapart i hlinked i hi rfl

/-- A run without an end needs no more indices than its chain ever has nodes. -/
theorem size_endless_le {nodeMax m : Nat} {script : Nat → Operation}
    (hshort : ∀ n, (run apply (empty nodeMax) ((List.range n).map script)).1.chain.length ≤ m)
    (n : Nat) : (run apply (empty nodeMax) ((List.range n).map script)).1.nodes.size ≤ m := by
  obtain ⟨before, hbefore, hlongest⟩ := (isGreatest_size_run nodeMax ((List.range n).map script)).1
  have hk : before = (List.range (min before.length n)).map script := by
    rw [← List.take_range, List.map_take]
    exact List.prefix_iff_eq_take.mp hbefore
  rw [← hlongest, hk]
  exact hshort _

/-- **The arena never leaks.**  After any pushes and pops the linked nodes are those from the
head to the tail, and the arena is as large as the largest number of them at the same time,
which is the same whether one looks after every operation or after every single value.  The
free indices are distinct and unlinked, and with the linked ones they are all.  So a run
without an end whose chain never has more than `m` nodes keeps an arena of at most `m`. -/
theorem run_never_leaks {nodeMax : Nat} {ops : List Operation}
    (hmade : (run apply (empty nodeMax) ops).1 = q) :
    q.Spans ∧
    IsGreatest (linkedDuring nodeMax ops) q.nodes.size ∧
    IsGreatest (linkedDuring nodeMax (ops.flatMap singles)) q.nodes.size ∧
    q.free.Nodup ∧ (∀ i ∈ q.free, i < q.nodes.size ∧ i ∉ q.chain) ∧
    q.chain.length + q.free.length = q.nodes.size ∧
    ∀ (script : Nat → Operation) (m : Nat),
      (∀ n, (run apply (empty nodeMax) ((List.range n).map script)).1.chain.length ≤ m) →
      ∀ n, (run apply (empty nodeMax) ((List.range n).map script)).1.nodes.size ≤ m := by
  have hgreatest := isGreatest_size_run nodeMax ops
  have hsingles := isGreatest_size_run nodeMax (ops.flatMap singles)
  rw [run_flatMap_singles] at hsingles
  rw [hmade] at hgreatest hsingles
  have hchained : q.Chained := hmade ▸ chained_run nodeMax ops
  obtain ⟨parts, hparts⟩ := hchained
  obtain ⟨hdistinct, hunlinked⟩ := hparts.free_unlinked
  have hslots : q.chain.length + q.free.length = q.nodes.size := by
    have hlength := hparts.slots.length_eq
    rwa [← hparts.chain_eq, List.length_append, List.length_range] at hlength
  exact ⟨hparts.spans, hgreatest, hsingles, hdistinct, hunlinked, hslots,
    fun script m hshort n => size_endless_le hshort n⟩

/-- A value is pushed and taken off, over and over. -/
def alternating (n : Nat) : Operation :=
  if n % 2 = 0 then .push .back [[0x61]] else .pop .front

/-- The list is empty after every second operation, and never longer than one node. -/
theorem run_alternating (n : Nat) :
    (run apply (empty 12) ((List.range n).map alternating)).1 =
      if n % 2 = 0 then empty 12 else ((empty 12).apply (.push .back [[0x61]])).1 := by
  induction n with
  | zero => rfl
  | succ n ih =>
      rw [List.range_succ, List.map_append, run_append, ih, List.map_singleton, alternating]
      by_cases heven : n % 2 = 0
      · rw [if_pos heven, if_pos heven, if_neg (by omega)]
        rfl
      · rw [if_neg heven, if_neg heven, if_pos (by omega)]
        decide +kernel

/-- Three nodes at most are linked at a time, although a fourth one is linked later; and a
run without an end in one node. -/
theorem run_never_leaks_recycled :
    ∃ q, (run apply (empty 12) [.push .back [[0x61], [0x62], [0x63]], .pop .front,
        .push .front [[0x64]]]).1 = q ∧
      IsGreatest (linkedDuring 12 [.push .back [[0x61], [0x62], [0x63]], .pop .front,
        .push .front [[0x64]]]) 3 ∧
      ∀ n, (run apply (empty 12) ((List.range n).map alternating)).1.nodes.size ≤ 1 := by
  have hsize : (run apply (empty 12) [.push .back [[0x61], [0x62], [0x63]], .pop .front,
      .push .front [[0x64]]]).1.nodes.size = 3 := by
    decide +kernel
  refine ⟨_, rfl, ?_, ?_⟩
  · rw [← hsize]
    exact (run_never_leaks rfl).2.1
  · have hnone : (run apply (empty 12) []).1 = empty 12 := rfl
    obtain ⟨-, -, -, -, -, -, hendless⟩ := run_never_leaks hnone
    apply hendless
    intro n
    rw [run_alternating]
    split <;> decide +kernel

end CompactStore.Quicklist
