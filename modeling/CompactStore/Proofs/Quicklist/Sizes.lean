import CompactStore.Proofs.Quicklist.Oversized

/-!
# The size of nodes does not show

How the values of a quicklist are spread over nodes depends on the size that a node may
reach.  What a quicklist answers depends on its values alone: `Stores.actsAs` says which
answers these are, and `Stores.indistinguishable` that no further operations tell two
quicklists of the same values apart.  So a quicklist is a sequence that is worked on from its
ends, and it is the same one for every size of nodes: `run_eq_deque`.
-/

namespace CompactStore.Quicklist

open Listpack Deque

/-- A quicklist that answers like a sequence of values. -/
structure ActsAs (q : Quicklist) (values : List Bytes) : Prop where
  len_eq : q.len = values.length
  isEmpty_iff : q.isEmpty = true ↔ values.length = 0
  texts_eq : q.entries.map Entry.text = values
  push_eq : ∀ e block, (∀ value ∈ block, Storable value) → (q.push e block).2 = block.length
  pop?_front : (q.pop? .front).map Prod.fst = values.head?
  pop?_back : (q.pop? .back).map Prod.fst = values.getLast?
  pop?_eq_none : ∀ e, q.pop? e = none ↔ values.length = 0

/-- Two quicklists that answer all operations alike, and are read alike after them. -/
def Indistinguishable (q r : Quicklist) : Prop :=
  ∀ ops : List Operation, (∀ op ∈ ops, ∀ value ∈ brought op, Storable value) →
    (run apply q ops).2 = (run apply r ops).2 ∧ Alike (run apply q ops).1 (run apply r ops).1

variable {q r : Quicklist} {values : List Bytes}

theorem Stores.chained (h : Stores q .front values) : q.Chained := by
  obtain ⟨-, parts, hparts, -, -⟩ := h
  exact ⟨parts, hparts⟩

/-- A pop takes the value at its end, if there is one. -/
theorem Stores.pop?_fst (h : Stores q .front values) (e : End) :
    (q.pop? e).map Prod.fst = (e.orient values).head? := by
  obtain ⟨rfl, hpop⟩ | ⟨value, rest, r, horient, hpop, -⟩ := h.pop?_cases e
  · rw [hpop, End.orient_nil]
    rfl
  · rw [hpop, horient]
    rfl

/-- **A quicklist acts as the values that it stores.** -/
theorem Stores.actsAs (h : Stores q .front values) : q.ActsAs values := by
  constructor
  case len_eq => exact h.len_eq
  case isEmpty_iff => rw [h.isEmpty_iff, List.length_eq_zero_iff]
  case texts_eq => exact h.values_eq
  case push_eq =>
    intro e block hblock
    exact (h.push e hblock).2
  case pop?_front => exact h.pop?_fst .front
  case pop?_back => rw [h.pop?_fst, End.orient, List.head?_reverse]
  case pop?_eq_none =>
    intro e
    rw [← Option.map_eq_none_iff (f := Prod.fst), h.pop?_fst, List.head?_eq_none_iff,
      End.orient_eq_nil, List.length_eq_zero_iff]

/-- **The same values are the same list**, whatever nodes they lie in. -/
theorem Stores.indistinguishable (hq : Stores q .front values) (hr : Stores r .front values) :
    Indistinguishable q r := by
  intro ops hvalues
  obtain ⟨hq', hanswers, -⟩ := hq.run hvalues
  obtain ⟨hr', hanswers', -⟩ := hr.run hvalues
  refine ⟨hanswers.trans hanswers'.symm, hq'.chained.alike hr'.chained ?_⟩
  rw [hr'.entries_eq, hq'.entries_eq]

/-- **A quicklist is a deque for every size of nodes.**  After any pushes and pops of values
that fit into a listpack, each answer is the one of a plain sequence, and the list acts as
what is left of this sequence.  With another size of nodes the answers are the same, and no
further operations tell the two lists apart. -/
theorem run_eq_deque {nodeMax : Nat} {ops : List Operation} (hmax : nodeMax ≤ maxBytes)
    (hvalues : ∀ op ∈ ops, ∀ value ∈ brought op, Storable value) :
    (run apply (empty nodeMax) ops).2 = (run step [] ops).2 ∧
      (run apply (empty nodeMax) ops).1.ActsAs (contents ops) ∧
      ∀ other ≤ maxBytes,
        (run apply (empty other) ops).2 = (run apply (empty nodeMax) ops).2 ∧
          Indistinguishable (run apply (empty nodeMax) ops).1 (run apply (empty other) ops).1 := by
  obtain ⟨hstores, hanswers, -⟩ := (stores_empty (e := .front) hmax).run hvalues
  refine ⟨hanswers, hstores.actsAs, ?_⟩
  intro other hother
  obtain ⟨hstores', hanswers', -⟩ := (stores_empty (e := .front) hother).run hvalues
  exact ⟨hanswers'.trans hanswers.symm, hstores.indistinguishable hstores'⟩

/-- Three values in a node each, and in one node together. -/
theorem run_eq_deque_one_by_one :
    (1 ≤ maxBytes ∧ ∀ op ∈ [.push .front [[0x61], [0x62], [0x63]], .pop .back],
      ∀ value ∈ brought op, Storable value) ∧
      (run apply (empty 1) [.push .front [[0x61], [0x62], [0x63]], .pop .back]).2 =
        [.stored 3, .taken (some [0x63])] ∧
      Indistinguishable
        (run apply (empty 1) [.push .front [[0x61], [0x62], [0x63]], .pop .back]).1
        (run apply (empty defaultNodeMax)
          [.push .front [[0x61], [0x62], [0x63]], .pop .back]).1 := by
  have hvalues : ∀ op ∈ [.push .front [[0x61], [0x62], [0x63]], .pop .back],
      ∀ value ∈ brought op, Storable value := by
    decide +kernel
  have hmax : 1 ≤ maxBytes := by decide
  obtain ⟨hanswers, -, hsizes⟩ := run_eq_deque hmax hvalues
  exact ⟨⟨hmax, hvalues⟩, hanswers, (hsizes defaultNodeMax (by decide)).2⟩

end CompactStore.Quicklist
