import CompactStore.Proofs.Quicklist.Arena
import CompactStore.Proofs.Quicklist.Counts

/-!
# Values that no listpack can hold

A value is oversized when it has an entry, but one that is too large for any listpack.  A
push asks whether the node at the end has room before the listpack refuses the value, so
pushing an oversized value stores nothing and may link a node that stays empty
(`pushOne_of_oversized`).  All that the list holds is read as before, but nothing comes off
this end any more: `push_of_none_stored`.  As long as no oversized value is pushed, no node
is empty beside others (`Gapless`), and a pop finds a value whenever there is one.
-/

namespace CompactStore.Quicklist

open Listpack Deque

variable {q r : Quicklist} {e : End} {parts rest : List Part} {p : Part} {value : Bytes}

/-! ### What can be observed -/

/-- Two quicklists that are read alike. -/
structure Alike (q r : Quicklist) : Prop where
  len_eq : r.len = q.len
  entries_eq : r.entries = q.entries
  index?_eq : ∀ i, r.index? i = q.index? i
  range_eq : ∀ start stop, r.range start stop = q.range start stop

/-- Two quicklists that no observer tells apart: neither by what is read, nor by the number
of nodes, nor by what comes off an end next. -/
structure Untouched (q r : Quicklist) : Prop extends Alike q r where
  nodeCount_eq : r.nodeCount = q.nodeCount
  pop?_eq : ∀ e, (r.pop? e).map Prod.fst = (q.pop? e).map Prod.fst

/-- A quicklist, and what an empty node linked at an end makes of it. -/
structure Blocked (e : End) (q r : Quicklist) : Prop where
  nodeCount_eq : r.nodeCount = q.nodeCount + 1
  pop?_eq_none : r.pop? e = none
  pop?_opposite_eq : (r.pop? e.opposite).map Prod.fst = (q.pop? e.opposite).map Prod.fst

/-- What is read depends on the entries alone. -/
theorem Chained.alike (hq : q.Chained) (hr : r.Chained) (h : r.entries = q.entries) :
    Alike q r := by
  obtain ⟨parts, hparts⟩ := hq
  obtain ⟨after, hafter⟩ := hr
  have hvalues : r.values = q.values := congrArg (List.map Entry.text) h
  constructor
  case len_eq => rw [hafter.length_entries, hparts.length_entries, h]
  case entries_eq => exact h
  case index?_eq =>
    intro i
    rw [hafter.index?_eq, hparts.index?_eq, hvalues]
  case range_eq =>
    intro start stop
    rw [hafter.range_eq, hparts.range_eq, hvalues]

/-- A pop takes the first entry of the node at the end, if this node has one. -/
theorem Holds.pop?_fst (h : Holds q e (p :: rest)) :
    (q.pop? e).map Prod.fst = p.entries.head?.map Entry.text := by
  obtain ⟨i, _ | ⟨x, es⟩⟩ := p
  · rw [h.pop?_edge_nil]
    rfl
  · obtain ⟨r, hpop, -⟩ := h.cutEdge
    rw [hpop]
    rfl

/-! ### A linked node that stays empty -/

/-- Linking a node changes nothing of what is read. -/
theorem Holds.alike_extend (h : Holds q e (p :: rest)) : Alike q (q.extend e) := by
  obtain ⟨i, hextend⟩ := h.extend
  apply h.chained.alike hextend.chained
  have hentries : e.orient (q.extend e).entries = e.orient q.entries := by
    rw [hextend.orient_entries, h.orient_entries]
    rfl
  rw [← End.orient_orient e (q.extend e).entries, hentries, End.orient_orient]

/-- The node that is linked is counted, and hides the values from its end alone. -/
theorem Holds.blocked_extend (h : Holds q e (p :: rest)) : Blocked e q (q.extend e) := by
  obtain ⟨i, hextend⟩ := h.extend
  constructor
  case nodeCount_eq => rw [hextend.nodeCount_eq, h.nodeCount_eq, List.length_cons]
  case pop?_eq_none => exact hextend.pop?_edge_nil
  case pop?_opposite_eq =>
    -- met from the other end, the new part is last, behind a part that was there before
    obtain ⟨s, others, hflip⟩ : ∃ s others, Quicklist.flip (p :: rest) = s :: others :=
      List.exists_cons_of_ne_nil (by simp [Quicklist.flip])
    have hsplit : Quicklist.flip (⟨i, []⟩ :: p :: rest) =
        Quicklist.flip (p :: rest) ++ [⟨i, []⟩] := by
      simp [Quicklist.flip, Part.flip]
    have hbefore := h.flip
    have hafter := hextend.flip
    rw [hsplit, hflip, List.cons_append] at hafter
    rw [hflip] at hbefore
    rw [hafter.pop?_fst, hbefore.pop?_fst]

/-- An oversized value is stored nowhere; a node is linked if the one at the end has no room
for it. -/
theorem Chained.pushOne_of_oversized (h : q.Chained) (e : End) {size : Nat}
    (hsize : Entry.encodedSize? value = some size) (hover : maxBytes < size + 7) :
    Quicklist.pushOne e q value = if q.needsNode e size then q.extend e else q := by
  obtain ⟨_ | ⟨⟨i, es⟩, rest⟩, hparts⟩ := h.exists_holds e
  · exact absurd hparts.first (by simp)
  obtain ⟨-, hlength⟩ := Entry.encodedSize?_eq_some_iff.mp hsize
  have hskip : ∀ es : List Entry, admits (offset es + 1) value = false := by
    intro es
    rw [Bool.eq_false_iff, Ne, admits_iff, not_and]
    intro _ hroom
    have hheader : 6 ≤ offset es := Nat.le_add_right _ _
    omega
  unfold Quicklist.pushOne
  rw [hsize]
  dsimp only
  split
  · obtain ⟨j, hextend⟩ := hparts.extend
    exact hextend.pushEdge_eq_self (hskip [])
  · exact hparts.pushEdge_eq_self (hskip es)

/-- A long string has an entry until its length fits into no tag. -/
theorem encodedSize?_of_long (hlow : 4096 ≤ value.length)
    (hhigh : value.length ≤ Entry.maxStringLength) :
    Entry.encodedSize? value =
      some (5 + value.length + Backlen.width (5 + value.length)) := by
  have htext : Decimal.canonical? (Bytes.chars value) = none := by
    have hlength : Decimal.maxCanonicalLength < (Bytes.chars value).length := by
      rw [Bytes.chars, List.length_map, Decimal.maxCanonicalLength]
      omega
    unfold Decimal.canonical?
    exact if_pos hlength
  have hhead : Entry.stringHead value.length = 5 := by
    rw [Entry.stringHead, if_neg (by omega), if_neg (by omega)]
  rw [Entry.encodedSize?, Entry.ofBytes, htext]
  dsimp only
  rw [Entry.size?, if_pos hhigh, hhead, Option.map_some]

/-! ### Pushes that store nothing -/

/-- Pushing a list of one value is pushing the value. -/
theorem push_singleton (q : Quicklist) (e : End) (value : Bytes) :
    q.push e [value] = (pushOne e q value, (pushOne e q value).len - q.len) := by
  cases e <;> rfl

/-- **A push that stores nothing** leaves the list, or links a node for an oversized value. -/
theorem Chained.pushOne_of_len_eq (h : q.Chained)
    (hlen : (Quicklist.pushOne e q value).len = q.len) :
    Alike q (Quicklist.pushOne e q value) ∧
      (Quicklist.pushOne e q value = q ∨
        (Oversized value ∧ q.len ≠ 0) ∧ Blocked e q (Quicklist.pushOne e q value)) := by
  obtain ⟨_ | ⟨⟨i, es⟩, rest⟩, hparts⟩ := h.exists_holds e
  · exact absurd hparts.first (by simp)
  obtain hself | ⟨after, hafter, -, hentries⟩ | ⟨⟨hover, hes⟩, hself⟩ :=
    hparts.pushOne_cases value
  · rw [hself]
    exact ⟨h.alike h rfl, .inl rfl⟩
  · rw [len, len, hafter.count, hentries, hparts.count, List.length_cons] at hlen
    omega
  · rw [hself]
    refine ⟨hparts.alike_extend, .inr ⟨⟨hover, ?_⟩, hparts.blocked_extend⟩⟩
    rw [len, hparts.count, List.flatMap_cons, List.length_append]
    have hpos : 0 < es.length := List.length_pos_iff.mpr hes
    exact Nat.ne_of_gt (Nat.add_pos_left hpos _)

/-! ### Lists without gaps -/

/-- A chain in which no node is empty unless it is the only one. -/
def Gapless (q : Quicklist) : Prop :=
  ∃ parts, Holds q .front parts ∧ Filled parts

/-- A list without gaps may be met from either end. -/
theorem Gapless.exists_holds (h : q.Gapless) (e : End) :
    ∃ parts, Holds q e parts ∧ Filled parts := by
  obtain ⟨parts, hparts, hfilled⟩ := h
  cases e with
  | front => exact ⟨parts, hparts, hfilled⟩
  | back => exact ⟨_, hparts.flip, hfilled.flip⟩

/-- A chain without empty nodes is a list without gaps, from whichever end it is met. -/
theorem Holds.gapless (h : Holds q e parts) (hfilled : Filled parts) : q.Gapless := by
  cases e with
  | front => exact ⟨parts, h, hfilled⟩
  | back => exact ⟨_, h.flip, hfilled.flip⟩

/-- **Without gaps, a pop finds a value** whenever there is one, at both ends. -/
theorem Gapless.isSome_pop? (h : q.Gapless) (e : End) :
    (q.pop? e).isSome = true ↔ q.len ≠ 0 := by
  obtain ⟨parts, hparts, hfilled⟩ := h.exists_holds e
  have hlen : q.len = (parts.flatMap Part.entries).length := hparts.count
  cases hentries : parts.flatMap Part.entries with
  | nil =>
      rw [hparts.pop?_nil hentries, hlen, hentries]
      simp
  | cons x es =>
      obtain ⟨r, -, hpop, -⟩ := hparts.pop? hfilled hentries
      rw [hpop, hlen, hentries]
      simp

/-- Pushing a value that is not oversized leaves no gap. -/
theorem Gapless.pushOne (h : q.Gapless) (e : End) (hfit : ¬Oversized value) :
    (pushOne e q value).Gapless := by
  obtain ⟨_ | ⟨⟨i, es⟩, rest⟩, hparts, hfilled⟩ := h.exists_holds e
  · exact absurd hparts.first (by simp)
  obtain hself | ⟨after, hafter, hkeeps, -⟩ | ⟨⟨hover, -⟩, -⟩ := hparts.pushOne_cases value
  · rw [hself]
    exact h
  · exact hafter.gapless (hkeeps hfilled)
  · exact absurd hover hfit

/-- Popping leaves no gap. -/
theorem Gapless.pop? {taken : Bytes × Quicklist} (h : q.Gapless)
    (hpop : q.pop? e = some taken) : taken.2.Gapless := by
  obtain ⟨parts, hparts, hfilled⟩ := h.exists_holds e
  cases hentries : parts.flatMap Part.entries with
  | nil =>
      rw [hparts.pop?_nil hentries] at hpop
      cases hpop
  | cons x es =>
      obtain ⟨r, after, hpop', hafter, hfilled', -⟩ := hparts.pop? hfilled hentries
      rw [hpop'] at hpop
      obtain rfl := Option.some.inj hpop
      exact hafter.gapless hfilled'

/-! ### Runs -/

/-- One operation on a chain leaves a chain. -/
theorem Chained.apply (h : q.Chained) (op : Operation) : (q.apply op).1.Chained := by
  cases op with
  | push e block => exact push_keeps (fun _ value _ hq => (hq.pushOne e value).1) h
  | pop e =>
      rw [Quicklist.apply]
      obtain hnone | ⟨value, r, hpop, hr, -⟩ := h.pop?_cases e
      · rw [hnone]
        exact h
      · rw [hpop]
        exact hr

/-- One operation that brings no oversized value leaves no gap. -/
theorem Gapless.apply (h : q.Gapless) {op : Operation}
    (hfit : ∀ value ∈ brought op, ¬Oversized value) : (q.apply op).1.Gapless := by
  cases op with
  | push e block => exact push_keeps (fun _ value hmem hq => hq.pushOne e (hfit value hmem)) h
  | pop e =>
      rw [Quicklist.apply]
      cases hpop : q.pop? e with
      | none => exact h
      | some taken => exact h.pop? hpop

/-- **A run** leaves a chain, whatever was pushed. -/
theorem chained_run (nodeMax : Nat) (ops : List Operation) :
    (run apply (empty nodeMax) ops).1.Chained :=
  run_keeps (fun _ op _ h => h.apply op) (chained_empty nodeMax)

/-- **A run without oversized values** leaves no gap, by induction on the operations. -/
theorem gapless_run {nodeMax : Nat} {ops : List Operation}
    (hfit : ∀ op ∈ ops, ∀ value ∈ brought op, ¬Oversized value) :
    (run apply (empty nodeMax) ops).1.Gapless := by
  apply run_keeps fun _ op hop h => h.apply (hfit op hop)
  exact ⟨_, holds_empty nodeMax, fun p hp _ => by rw [List.mem_singleton.mp hp]⟩

/-- **A value that is not stored leaves all that is read**, and the list as it was unless
the value is oversized: then a node may be linked that stays empty and hides the values from
this end.  Where no oversized value was pushed before, a pop finds a value whenever there is
one. -/
theorem push_of_none_stored {nodeMax : Nat} {ops : List Operation}
    (hmade : (run apply (empty nodeMax) ops).1 = q) (hnone : (q.push e [value]).2 = 0) :
    Alike q (q.push e [value]).1 ∧
      ((q.push e [value]).1 = q ∨
        (Oversized value ∧ q.len ≠ 0) ∧ Blocked e q (q.push e [value]).1) ∧
      ((∀ op ∈ ops, ∀ other ∈ brought op, ¬Oversized other) →
        ∀ side, (q.pop? side).isSome = true ↔ q.len ≠ 0) := by
  have hchained : q.Chained := hmade ▸ chained_run nodeMax ops
  rw [push_singleton] at hnone ⊢
  have hgrows := (hchained.pushOne e value).2
  have hlen : (pushOne e q value).len = q.len := by
    dsimp only at hnone
    omega
  obtain ⟨halike, hcases⟩ := hchained.pushOne_of_len_eq hlen
  refine ⟨halike, hcases, fun hfit side => ?_⟩
  have hgapless : q.Gapless := hmade ▸ gapless_run hfit
  exact hgapless.isSome_pop? side

/-- An entry of four gibibytes asks for a node behind any other. -/
private theorem push_behind_one (hmade : (run apply (empty defaultNodeMax)
      [.push .back [[0x62]]]).1 = q) (hlength : value.length = 2 ^ 32 - 10) :
    q.push .back [value] = (q.extend .back, 0) ∧ (q.extend .back).nodeCount ≠ q.nodeCount := by
  have hchained : q.Chained := hmade ▸ chained_run defaultNodeMax _
  have hsize : Entry.encodedSize? value = some (2 ^ 32) := by
    rw [encodedSize?_of_long (by omega) (by rw [hlength]; decide), hlength]
    decide
  have hneeds : q.needsNode .back (2 ^ 32) = true := by
    rw [← hmade]
    decide +kernel
  have hnodes : (q.extend .back).len - q.len = 0 ∧
      (q.extend .back).nodeCount ≠ q.nodeCount := by
    rw [← hmade]
    decide +kernel
  refine ⟨?_, hnodes.2⟩
  rw [push_singleton, hchained.pushOne_of_oversized .back hsize (by decide), if_pos hneeds,
    hnodes.1]

/-- A value of almost four gibibytes is not stored behind another one. -/
theorem push_of_none_stored_behind_one :
    ((run apply (empty defaultNodeMax) [.push .back [[0x62]]]).1.push .back
        [List.replicate (2 ^ 32 - 10) 0x61]).2 = 0 ∧
      Alike (run apply (empty defaultNodeMax) [.push .back [[0x62]]]).1
        ((run apply (empty defaultNodeMax) [.push .back [[0x62]]]).1.push .back
          [List.replicate (2 ^ 32 - 10) 0x61]).1 := by
  have hlength : (List.replicate (2 ^ 32 - 10) (0x61 : UInt8)).length = 2 ^ 32 - 10 :=
    List.length_replicate
  have hnone := congrArg Prod.snd (push_behind_one rfl hlength).1
  exact ⟨hnone, (push_of_none_stored rfl hnone).1⟩

/-- The node that was linked for it stays, so the list is not untouched. -/
theorem not_untouched_behind_one :
    ¬∀ (nodeMax : Nat) (ops : List Operation) (q : Quicklist) (e : End) (value : Bytes),
      1 ≤ nodeMax → (run apply (empty nodeMax) ops).1 = q → (q.push e [value]).2 = 0 →
      Untouched q (q.push e [value]).1 := by
  intro h
  have hlength : (List.replicate (2 ^ 32 - 10) (0x61 : UInt8)).length = 2 ^ 32 - 10 :=
    List.length_replicate
  obtain ⟨hpush, hnodes⟩ := push_behind_one rfl hlength
  have huntouched := h defaultNodeMax _ _ .back _ (by decide) rfl (congrArg Prod.snd hpush)
  have hcount := huntouched.nodeCount_eq
  rw [hpush] at hcount
  exact hnodes hcount

end CompactStore.Quicklist
