import CompactStore.Proofs.Bounds.Listpack
import CompactStore.Proofs.Quicklist.Counts

/-!
# Bounds of quicklists

Every access to the arena of a quicklist, in a checked form, with the listpack operations
under it.  An index that is met is that of an end, of a neighbour or a free one, and in a
chain all of these are in the arena.  A pop lowers the count only after it took a value, and
looking for an index skips a listpack only if the index lies behind it.
-/

namespace CompactStore.Quicklist

open Checked Listpack

/-- The node at an index. -/
def checkedNode (q : Quicklist) (i : Nat) : Checked Node :=
  get q.nodes i

/-- Changes the node at an index. -/
def checkedModifyNode (q : Quicklist) (i : Nat) (f : Node → Node) : Checked Quicklist := do
  return { q with nodes := ← modify q.nodes i f }

/-- Puts a node into the arena; a free index is one of the arena. -/
def checkedPlace (q : Quicklist) (node : Node) : Checked (Quicklist × Nat) := do
  require (∀ i ∈ q.free.head?, i < q.nodes.size) .index
  return q.place node

/-- Links a new, empty node at an end. -/
def checkedExtend (q : Quicklist) (e : End) : Checked Quicklist := do
  let old := q.edge e
  let (q, i) ← q.checkedPlace (({} : Node).link e.opposite (some old))
  let q ← q.checkedModifyNode old fun node => node.link e (some i)
  return q.setEdge e i

/-- Whether an entry of this size asks for a new node. -/
def checkedNeedsNode (q : Quicklist) (e : End) (entrySize : Nat) : Checked Bool := do
  let node ← q.checkedNode (q.edge e)
  return !node.pack.isEmpty && q.nodeMax < node.pack.sizeBytes + entrySize

/-- Pushes a value onto the node at an end. -/
def checkedPushEdge (q : Quicklist) (e : End) (value : Bytes) : Checked Quicklist := do
  let i := q.edge e
  let node ← q.checkedNode i
  let (pack, added) ← node.pack.checkedPush e [value]
  let q ← q.checkedModifyNode i fun node => { node with pack }
  return { q with count := q.count + added }

/-- Pushes one value at an end. -/
def checkedPushOne (e : End) (q : Quicklist) (value : Bytes) : Checked Quicklist :=
  match Entry.encodedSize? value with
  | none => .ok q
  | some size => do
    let needs ← q.checkedNeedsNode e size
    let q ← if needs then q.checkedExtend e else .ok q
    q.checkedPushEdge e value

/-- Pushes values at an end. -/
def checkedPush (q : Quicklist) : End → List Bytes → Checked Quicklist
  | .front, values => values.reverse.foldlM (checkedPushOne .front) q
  | .back, values => values.foldlM (checkedPushOne .back) q

/-- Unlinks the node at an end if it is empty and has a neighbour. -/
def checkedTrim (q : Quicklist) (e : End) : Checked Quicklist := do
  let i := q.edge e
  let node ← q.checkedNode i
  match node.toward e.opposite with
  | none => return q
  | some inner =>
    if node.pack.isEmpty then
      let q ← q.checkedModifyNode inner fun node => node.link e none
      return { q.setEdge e inner with free := i :: q.free }
    else return q

/-- Takes the value off an end. -/
def checkedPop (q : Quicklist) (e : End) : Checked (Option (Bytes × Quicklist)) := do
  let i := q.edge e
  let node ← q.checkedNode i
  match ← node.pack.checkedPop e with
  | none => return none
  | some (value, pack) =>
    let q ← q.checkedModifyNode i fun node => { node with pack }
    let count ← sub q.count 1
    return some (value, ← { q with count }.checkedTrim e)

/-- Takes at most `count` values off an end, in front of those taken before. -/
def checkedPopEach (q : Quicklist) (e : End) :
    Nat → List Bytes → Checked (Quicklist × List Bytes)
  | 0, taken => .ok (q, taken.reverse)
  | count + 1, taken => do
    match ← q.checkedPop e with
    | none => return (q, taken.reverse)
    | some (value, q) => checkedPopEach q e count (value :: taken)

/-- The indices met by following the links to the back, newest first in front of `seen`. -/
def checkedFollow (q : Quicklist) : Nat → Option Nat → List Nat → Checked (List Nat)
  | 0, _, seen => .ok seen
  | _, none, seen => .ok seen
  | fuel + 1, some i, seen => do
    let node ← q.checkedNode i
    checkedFollow q fuel node.next (i :: seen)

/-- The linked listpacks, from front to back. -/
def checkedPacks (q : Quicklist) : Checked (List Listpack) := do
  let chain := (← q.checkedFollow q.nodes.size (some q.head) []).reverse
  chain.mapM fun i => do return (← q.checkedNode i).pack

/-- The value at an offset into a run of listpacks. -/
def checkedValueIn : List Listpack → Nat → Checked (Option Bytes)
  | [], _ => .ok none
  | pack :: rest, offset =>
    if offset < pack.len then do return (← pack.checkedEntries)[offset]?.map Entry.text
    else do checkedValueIn rest (← sub offset pack.len)

/-- The value at an index. -/
def checkedIndex (q : Quicklist) (i : Int) : Checked (Option Bytes) :=
  let offset := if i < 0 then (q.len : Int) + i else i
  if offset < 0 ∨ (q.len : Int) ≤ offset then .ok none
  else do checkedValueIn (← q.checkedPacks) offset.toNat

/-- The values from one index to another, both included. -/
def checkedRange (q : Quicklist) (start stop : Int) : Checked (List Bytes) := do
  let len : Int := q.len
  let start := if start < 0 then max (len + start) 0 else start
  let stop := if stop < 0 then len + stop else min stop (len - 1)
  if stop < start ∨ len ≤ start then return []
  let entries := (← (← q.checkedPacks).mapM checkedEntries).flatten
  return ((entries.drop start.toNat).take (stop - start + 1).toNat).map Entry.text

variable {q : Quicklist} {e : End} {parts rest : List Part} {p : Part} {i : Nat}

/-! ### The arena -/

/-- A node is looked up in the arena. -/
theorem checkedNode_eq (h : i < q.nodes.size) : q.checkedNode i = .ok (q.node i) :=
  get_eq h default

/-- A node is changed in the arena. -/
theorem checkedModifyNode_eq (h : i < q.nodes.size) (f : Node → Node) :
    q.checkedModifyNode i f = .ok (q.modifyNode i f) := by
  rw [checkedModifyNode, modify_eq h]
  rfl

/-- The ends of a chain are nodes of the arena. -/
theorem Holds.edge_lt (h : Holds q e (p :: rest)) : q.edge e < q.nodes.size := by
  rw [h.edge_eq]
  exact h.index_lt List.mem_cons_self

/-- The neighbour of the node at an end is a node. -/
theorem Holds.inner_lt (h : Holds q e (p :: rest))
    (hinner : (q.node (q.edge e)).toward e.opposite = some i) : i < q.nodes.size := by
  rw [h.edge_eq, h.linked.1, Node.facing_toward_opposite, Option.or_none,
    Option.map_eq_some_iff] at hinner
  obtain ⟨s, hs, rfl⟩ := hinner
  exact h.index_lt (List.mem_cons_of_mem _ (List.mem_of_mem_head? hs))

/-! ### Pushing -/

/-- Placing a node never makes the arena smaller. -/
theorem size_le_size_place (q : Quicklist) (new : Node) :
    q.nodes.size ≤ (q.place new).1.nodes.size := by
  obtain ⟨nodes, free, head, tail, count, nodeMax⟩ := q
  cases free with
  | nil => exact (Nat.le_succ _).trans_eq (Array.size_push new).symm
  | cons i free => exact Array.size_setIfInBounds.ge

/-- **Linking a node** stays within the bounds. -/
theorem Holds.checkedExtend_eq (h : Holds q e (p :: rest)) :
    q.checkedExtend e = .ok (q.extend e) := by
  have hfree : ∀ i ∈ q.free.head?, i < q.nodes.size := fun i hi =>
    h.free_lt (List.mem_of_mem_head? hi)
  have hold := Nat.lt_of_lt_of_le h.edge_lt
    (size_le_size_place q (({} : Node).link e.opposite (some (q.edge e))))
  rw [checkedExtend, checkedPlace, require_eq hfree]
  change ((q.place (({} : Node).link e.opposite (some (q.edge e)))).1.checkedModifyNode _ _ >>=
    fun _ => _) = _
  rw [checkedModifyNode_eq hold]
  rfl

/-- Whether a node is needed is found within the bounds. -/
theorem Holds.checkedNeedsNode_eq (h : Holds q e (p :: rest)) (size : Nat) :
    q.checkedNeedsNode e size = .ok (q.needsNode e size) := by
  rw [checkedNeedsNode, checkedNode_eq h.edge_lt]
  rfl

/-- What is stored is what the listpack becomes longer by. -/
theorem len_push_sub {es : List Entry} (h : Fits es) (e : End) (values : List Bytes) :
    ((ofEntries es).push e values).1.len - (ofEntries es).len =
      ((ofEntries es).push e values).2 := by
  rw [push_ofEntries h, len_ofEntries, len_ofEntries, End.length_attach, List.length_map,
    Nat.add_sub_cancel]

/-- **Pushing to the node at an end** stays within the bounds. -/
theorem Holds.checkedPushEdge_eq (h : Holds q e (p :: rest)) (value : Bytes) :
    q.checkedPushEdge e value = .ok (q.pushEdge e value) := by
  have hfits := fits_orient e (h.fits p List.mem_cons_self)
  have hpack : (q.node (q.edge e)).pack = ofEntries (e.orient p.entries) := h.pack_edge
  have hsize : headerSize < (q.node (q.edge e)).pack.sizeBytes := by
    rw [hpack]
    exact headerSize_lt_ofEntries _
  have hmodify : (q.modifyNode (q.edge e) fun node =>
      { node with pack := ((q.node (q.edge e)).pack.push e [value]).1 }) =
        q.modifyNode (q.edge e) fun node => { node with pack := (node.pack.push e [value]).1 } :=
    modifyNode_congr h.edge_lt rfl
  have hnode := node_modifyNode q h.edge_lt (q.edge e) fun node =>
    { node with pack := (node.pack.push e [value]).1 }
  rw [if_pos rfl] at hnode
  have hadded : ((q.node (q.edge e)).pack.push e [value]).2 =
      ((q.modifyNode (q.edge e) fun node =>
        { node with pack := (node.pack.push e [value]).1 }).node (q.edge e)).pack.len -
          (q.node (q.edge e)).pack.len := by
    rw [hnode, hpack, len_push_sub hfits]
  rw [checkedPushEdge, checkedNode_eq h.edge_lt, ok_bind, checkedPush_eq hsize, ok_bind]
  dsimp only
  rw [checkedModifyNode_eq h.edge_lt, hmodify, hadded]
  rfl

/-- **Pushing one value** stays within the bounds. -/
theorem Chained.checkedPushOne_eq (h : q.Chained) (e : End) (value : Bytes) :
    checkedPushOne e q value = .ok (Quicklist.pushOne e q value) := by
  obtain ⟨_ | ⟨p, rest⟩, hparts⟩ := h.exists_holds e
  · exact absurd hparts.first (by simp)
  unfold checkedPushOne Quicklist.pushOne
  cases Entry.encodedSize? value with
  | none => rfl
  | some size =>
      dsimp only
      rw [hparts.checkedNeedsNode_eq, ok_bind]
      split
      · obtain ⟨i, hextend⟩ := hparts.extend
        rw [hparts.checkedExtend_eq, ok_bind]
        exact hextend.checkedPushEdge_eq value
      · exact hparts.checkedPushEdge_eq value

/-- **A push** onto a chain stays in the arena. -/
theorem Chained.checkedPush_eq (h : q.Chained) (e : End) (values : List Bytes) :
    q.checkedPush e values = .ok (q.push e values).1 := by
  have hfold : ∀ block : List Bytes,
      block.foldlM (checkedPushOne e) q = .ok (block.foldl (Quicklist.pushOne e) q) := fun block =>
    foldlM_eq (P := Chained)
      (fun _ value _ hr => ⟨hr.checkedPushOne_eq e value, (hr.pushOne e value).1⟩) h
  cases e with
  | front => exact hfold values.reverse
  | back => exact hfold values

/-! ### Popping -/

/-- **Taking an empty node off** stays within the bounds if its neighbour does. -/
theorem checkedTrim_eq (hedge : q.edge e < q.nodes.size)
    (hinner : ∀ i, (q.node (q.edge e)).toward e.opposite = some i → i < q.nodes.size) :
    q.checkedTrim e = .ok (q.trim e) := by
  unfold checkedTrim Quicklist.trim
  dsimp only
  rw [checkedNode_eq hedge, ok_bind]
  cases htoward : (q.node (q.edge e)).toward e.opposite with
  | none => rfl
  | some inner =>
      dsimp only
      split
      · rw [checkedModifyNode_eq (hinner inner htoward)]
        rfl
      · rfl

/-- Whatever becomes of the listpack at an end, its node can be unlinked. -/
theorem Holds.checkedTrim_modifyNode (h : Holds q e (p :: rest)) (f : Listpack → Listpack)
    (count : Nat) :
    checkedTrim { q.modifyNode (q.edge e) (fun node => { node with pack := f node.pack }) with
        count := count } e =
      .ok (Quicklist.trim { q.modifyNode (q.edge e) (fun node =>
        { node with pack := f node.pack }) with count := count } e) := by
  have hsize := size_modifyNode q (q.edge e) fun node => { node with pack := f node.pack }
  have hnode := node_modifyNode q h.edge_lt (q.edge e) fun node =>
    { node with pack := f node.pack }
  rw [if_pos rfl] at hnode
  have hedge : ∀ r : Quicklist, { r with count := count }.edge e = r.edge e := by
    cases e <;> exact fun _ => rfl
  have hsame : (q.modifyNode (q.edge e) fun node => { node with pack := f node.pack }).edge e =
      q.edge e := by
    cases e <;> rfl
  apply checkedTrim_eq
  · rw [hedge, hsame]
    exact h.edge_lt.trans_eq hsize.symm
  · intro i hi
    rw [hedge, hsame] at hi
    change ((q.modifyNode (q.edge e) _).node (q.edge e)).toward e.opposite = some i at hi
    rw [hnode] at hi
    refine (h.inner_lt ?_).trans_eq hsize.symm
    rw [← hi]
    cases e <;> rfl

/-- **A pop** off a chain stays in the arena, and lowers the count only if it was not zero. -/
theorem Chained.checkedPop_eq (h : q.Chained) (e : End) : q.checkedPop e = .ok (q.pop? e) := by
  obtain ⟨_ | ⟨⟨i, es⟩, rest⟩, hparts⟩ := h.exists_holds e
  · exact absurd hparts.first (by simp)
  have hfits : Fits (e.orient es) := fits_orient e (hparts.fits ⟨i, es⟩ List.mem_cons_self)
  have hpack := hparts.pack_edge
  have hedge := hparts.edge_lt
  rw [checkedPop, checkedNode_eq hedge, ok_bind, hpack, checkedPop_ofEntries hfits, ok_bind,
    Quicklist.pop?, hpack, Listpack.pop?]
  cases hspan : (ofEntries (e.orient es)).span? e with
  | none => rfl
  | some span =>
      obtain ⟨start, stop⟩ := span
      dsimp only
      cases (ofEntries (e.orient es)).get? start with
      | none => rfl
      | some entry =>
          -- the checked form cuts the listpack that it has read, the plain form the one in the node
          have hmodify : (q.modifyNode (q.edge e) fun node =>
              { node with pack := (ofEntries (e.orient es)).cut start stop }) =
                q.modifyNode (q.edge e) fun node =>
                  { node with pack := node.pack.cut start stop } :=
            modifyNode_congr hedge (by rw [hpack])
          have hcount : 1 ≤ (q.modifyNode (q.edge e) fun node =>
              { node with pack := node.pack.cut start stop }).count := by
            change 1 ≤ q.count
            obtain ⟨-, -, -, hlen⟩ := span?_bounds hfits hspan
            rw [len_ofEntries, End.length_orient] at hlen
            rw [hparts.count, List.flatMap_cons, List.length_append]
            exact Nat.le_add_right_of_le hlen
          have htrim := hparts.checkedTrim_modifyNode fun pack => pack.cut start stop
          simp only [Option.map_some, checkedModifyNode_eq hedge, ok_bind, hmodify,
            sub_eq hcount, htrim]
          rfl

/-- **Many pops.** -/
theorem Chained.checkedPopEach_eq (h : q.Chained) (e : End) (count : Nat) (taken : List Bytes) :
    q.checkedPopEach e count taken = .ok (q.popEach e count taken) := by
  induction count generalizing q taken with
  | zero => rfl
  | succ count ih =>
      rw [checkedPopEach, Quicklist.popEach, h.checkedPop_eq, ok_bind]
      obtain hnone | ⟨value, r, hpop, hr, -⟩ := h.pop?_cases e
      · rw [hnone]
        rfl
      · rw [hpop]
        exact ih hr _

/-! ### Reading -/

/-- **Following the links** of a chain stays within the bounds, by induction on the steps. -/
theorem checkedFollow_eq {outer : Option Nat} (h : Linked q .front outer parts none)
    (hindex : ∀ p ∈ parts, p.index < q.nodes.size) (fuel : Nat) (seen : List Nat) :
    q.checkedFollow fuel (parts.head?.map Part.index) seen =
      .ok (q.follow fuel (parts.head?.map Part.index) seen) := by
  induction parts generalizing outer fuel seen with
  | nil => cases fuel <;> rfl
  | cons p rest ih =>
      cases fuel with
      | zero => rfl
      | succ fuel =>
          have hnext : (q.node p.index).next = rest.head?.map Part.index := by
            rw [h.1, Option.or_none]
            rfl
          rw [List.head?_cons, Option.map_some, checkedFollow, follow,
            checkedNode_eq (hindex p List.mem_cons_self), ok_bind, hnext]
          exact ih h.2 (fun s hs => hindex s (List.mem_cons_of_mem _ hs)) fuel _

/-- The listpacks along a chain are read within the bounds. -/
theorem Holds.checkedPacks_eq (h : Holds q .front parts) : q.checkedPacks = .ok q.packs := by
  have hfirst : some q.head = parts.head?.map Part.index := h.first.symm
  have hnodes : ∀ i ∈ q.chain, (do return (← q.checkedNode i).pack : Checked Listpack) =
      .ok (q.node i).pack := by
    intro i hi
    rw [h.chain_eq] at hi
    obtain ⟨p, hp, rfl⟩ := List.mem_map.mp hi
    rw [checkedNode_eq (h.index_lt hp)]
    rfl
  have hfollow := checkedFollow_eq h.linked (fun p hp => h.index_lt hp) q.nodes.size []
  rw [← hfirst] at hfollow
  rw [checkedPacks, hfollow, ok_bind]
  exact mapM_eq hnodes

/-- A linked listpack has a byte behind its header. -/
theorem Holds.headerSize_lt (h : Holds q .front parts) {pack : Listpack} (hpack : pack ∈ q.packs) :
    headerSize < pack.sizeBytes := by
  rw [h.packs_eq] at hpack
  obtain ⟨p, -, rfl⟩ := List.mem_map.mp hpack
  exact headerSize_lt_ofEntries p.entries

/-- A value among listpacks is found within the bounds, by induction on the listpacks that are
skipped. -/
theorem checkedValueIn_eq {packs : List Listpack}
    (h : ∀ pack ∈ packs, headerSize < pack.sizeBytes) (offset : Nat) :
    checkedValueIn packs offset = .ok (valueIn? packs offset) := by
  induction packs generalizing offset with
  | nil => rfl
  | cons pack rest ih =>
      rw [checkedValueIn, valueIn?]
      split
      · rw [checkedEntries_eq (h pack List.mem_cons_self)]
        rfl
      · rename_i hbehind
        rw [sub_eq (Nat.not_lt.mp hbehind), ok_bind]
        exact ih (fun other hother => h other (List.mem_cons_of_mem _ hother)) _

/-- **Reading at any index** stays in the arena, and counts down to zero at most. -/
theorem Chained.checkedIndex_eq (h : q.Chained) (i : Int) :
    q.checkedIndex i = .ok (q.index? i) := by
  obtain ⟨parts, hparts⟩ := h
  unfold checkedIndex index?
  generalize (if i < 0 then (q.len : Int) + i else i) = position
  dsimp only
  split
  · rfl
  · rw [hparts.checkedPacks_eq, ok_bind]
    exact checkedValueIn_eq (fun _ hpack => hparts.headerSize_lt hpack) _

/-- **Reading any range.** -/
theorem Chained.checkedRange_eq (h : q.Chained) (start stop : Int) :
    q.checkedRange start stop = .ok (q.range start stop) := by
  obtain ⟨parts, hparts⟩ := h
  have hentries : q.packs.mapM checkedEntries = .ok (q.packs.map Listpack.entries) :=
    mapM_eq fun _ hpack => checkedEntries_eq (hparts.headerSize_lt hpack)
  unfold checkedRange range
  dsimp only
  generalize (if start < 0 then max ((q.len : Int) + start) 0 else start) = low
  generalize (if stop < 0 then (q.len : Int) + stop else min stop (q.len - 1)) = high
  split
  · rfl
  · rw [hparts.checkedPacks_eq, ok_bind, hentries]
    rfl

end CompactStore.Quicklist
