import CompactStore.Bytes
import CompactStore.Listpack.Basic

/-!
# Sequences worked on from their ends

The reference for everything that is pushed to and popped from: a plain sequence
of values.  A push sets a block at an end in call order, a pop takes the value at
an end off.

`orient` looks at a sequence from an end.  Seen from there both ends are the
front of a sequence, so a statement about one end is a statement about both.
-/

namespace CompactStore

namespace End

variable {α β : Type}

/-- A sequence as it is met from an end. -/
def orient : End → List α → List α
  | front, xs => xs
  | back, xs => xs.reverse

/-- A sequence with a block set at an end, in call order. -/
def attach : End → List α → List α → List α
  | front, block, xs => block ++ xs
  | back, block, xs => xs ++ block

/-- Turning around twice changes nothing. -/
@[simp] theorem orient_orient (e : End) (xs : List α) : e.orient (e.orient xs) = xs := by
  cases e <;> simp [orient]

@[simp] theorem orient_nil (e : End) : e.orient ([] : List α) = [] := by
  cases e <;> rfl

/-- Turning around keeps the length. -/
@[simp] theorem length_orient (e : End) (xs : List α) : (e.orient xs).length = xs.length := by
  cases e <;> simp [orient]

/-- Turning around keeps the members. -/
@[simp] theorem mem_orient (e : End) (xs : List α) (x : α) : x ∈ e.orient xs ↔ x ∈ xs := by
  cases e <;> simp [orient]

/-- Only an empty sequence turns into an empty one. -/
@[simp] theorem orient_eq_nil (e : End) (xs : List α) : e.orient xs = [] ↔ xs = [] := by
  cases e <;> simp [orient]

/-- What is made of each member may be made before turning around. -/
theorem map_orient (e : End) (f : α → β) (xs : List α) :
    (e.orient xs).map f = e.orient (xs.map f) := by
  cases e <;> simp [orient]

/-- What is made of each member may be made before attaching. -/
theorem map_attach (e : End) (f : α → β) (block xs : List α) :
    (e.attach block xs).map f = e.attach (block.map f) (xs.map f) := by
  cases e <;> simp [attach]

/-- Setting one value at an end puts it first as seen from there. -/
theorem attach_singleton (e : End) (x : α) (xs : List α) :
    e.attach [x] (e.orient xs) = e.orient (x :: xs) := by
  cases e <;> simp [attach, orient]

/-- Attaching adds up the lengths. -/
@[simp] theorem length_attach (e : End) (block xs : List α) :
    (e.attach block xs).length = block.length + xs.length := by
  cases e <;> simp [attach, Nat.add_comm]

/-- The members of both parts are members, at whichever end one was attached. -/
@[simp] theorem mem_attach (e : End) (block xs : List α) (x : α) :
    x ∈ e.attach block xs ↔ x ∈ block ∨ x ∈ xs := by
  cases e <;> simp [attach, or_comm]

end End

namespace Deque

/-- Something done at an end of a sequence. -/
inductive Operation where
  | push (e : End) (values : List Bytes)
  | pop (e : End)
deriving DecidableEq, Repr

/-- The answer to an operation: how many values were stored, or the value that
was taken off. -/
inductive Answer where
  | stored (count : Nat)
  | taken (value : Option Bytes)
deriving DecidableEq, Repr

/-- An operation on a plain sequence. -/
def step (values : List Bytes) : Operation → List Bytes × Answer
  | .push e block => (e.attach block values, .stored block.length)
  | .pop .front => (values.tail, .taken values.head?)
  | .pop .back => (values.dropLast, .taken values.getLast?)

/-- Operations one after another, with the answer to each. -/
def run {σ : Type} (step : σ → Operation → σ × Answer) : σ → List Operation → σ × List Answer
  | s, [] => (s, [])
  | s, op :: ops =>
    let (s, answer) := step s op
    let (s, answers) := run step s ops
    (s, answer :: answers)

/-- What operations on an empty sequence leave. -/
def contents (ops : List Operation) : List Bytes :=
  (run step [] ops).1

/-- A run of more operations goes on from what the first ones leave. -/
theorem run_append {σ : Type} (step : σ → Operation → σ × Answer) (s : σ)
    (ops others : List Operation) :
    (run step s (ops ++ others)).1 = (run step (run step s ops).1 others).1 := by
  induction ops generalizing s with
  | nil => rfl
  | cons op rest ih => exact ih (step s op).1

/-- What every operation of a run keeps, the run keeps. -/
theorem run_keeps {σ : Type} {step : σ → Operation → σ × Answer} {P : σ → Prop}
    {ops : List Operation} (hstep : ∀ s, ∀ op ∈ ops, P s → P (step s op).1) {s : σ} (h : P s) :
    P (run step s ops).1 := by
  induction ops generalizing s with
  | nil => exact h
  | cons op rest ih =>
      exact ih (fun t other hother => hstep t other (List.mem_cons_of_mem _ hother))
        (hstep s op List.mem_cons_self h)

/-- A pop takes the first value as seen from its end. -/
theorem step_pop (e : End) (values : List Bytes) :
    step values (.pop e) = (e.orient (e.orient values).tail, .taken (e.orient values).head?) := by
  cases e <;> simp [step, End.orient]

/-! ### Reading -/

/-- The position that an index names: a negative one counts from the back. -/
def position (values : List Bytes) (i : Int) : Int :=
  if i < 0 then values.length + i else i

/-- The value at an index. -/
def at? (values : List Bytes) (i : Int) : Option Bytes :=
  if position values i < 0 then none else values[(position values i).toNat]?

/-- The values at the positions from one index to another, both included. -/
def slice (values : List Bytes) (start stop : Int) : List Bytes :=
  (values.zipIdx.filter fun p => position values start ≤ p.2 ∧ p.2 ≤ position values stop).map
    Prod.fst

/-- The members whose indices lie between two bounds are the part between the bounds. -/
theorem filter_zipIdx (values : List Bytes) (k : Nat) (low high : Int) :
    ((values.zipIdx k).filter fun p => low ≤ p.2 ∧ p.2 ≤ high).map Prod.fst =
      (values.take (high + 1 - k).toNat).drop (low - k).toNat := by
  induction values generalizing k with
  | nil => simp
  | cons value rest ih =>
      have hnext := ih (k + 1)
      rw [List.zipIdx_cons, List.filter_cons]
      split
      · rename_i hin
        have hin : low ≤ k ∧ (k : Int) ≤ high := of_decide_eq_true hin
        have htake : (high + 1 - k).toNat = (high + 1 - (k + 1 : Nat)).toNat + 1 := by omega
        have hdrop : (low - k).toNat = 0 := by omega
        have hdrop' : (low - (k + 1 : Nat)).toNat = 0 := by omega
        rw [List.map_cons, hnext, htake, hdrop, hdrop', List.take_succ_cons]
        rfl
      · rename_i hout
        have hout : ¬(low ≤ k ∧ (k : Int) ≤ high) := fun h => hout (decide_eq_true h)
        rw [hnext]
        -- the first index is past the upper bound, or still before the lower one
        by_cases hlow : low ≤ k
        · have hhigh : (high + 1 - k).toNat = 0 := by omega
          have hhigh' : (high + 1 - (k + 1 : Nat)).toNat = 0 := by omega
          rw [hhigh, hhigh', List.take_zero, List.take_zero, List.drop_nil, List.drop_nil]
        · have hdrop : (low - k).toNat = (low - (k + 1 : Nat)).toNat + 1 := by omega
          rw [hdrop]
          cases htake : (high + 1 - k).toNat with
          | zero =>
              have htake' : (high + 1 - (k + 1 : Nat)).toNat = 0 := by omega
              rw [htake', List.take_zero, List.take_zero, List.drop_nil, List.drop_nil]
          | succ n =>
              have htake' : (high + 1 - (k + 1 : Nat)).toNat = n := by omega
              rw [htake', List.take_succ_cons, List.drop_succ_cons]

/-- A slice is what is left of the sequence when both ends are cut off. -/
theorem slice_eq (values : List Bytes) (start stop : Int) :
    slice values start stop =
      (values.take (position values stop + 1).toNat).drop (position values start).toNat := by
  have hfilter := filter_zipIdx values 0 (position values start) (position values stop)
  rwa [Int.natCast_zero, Int.sub_zero, Int.sub_zero] at hfilter

/-- The first position of a slice, cut off at the front. -/
def firstPosition (values : List Bytes) (start : Int) : Int :=
  max 0 (position values start)

/-- The last position of a slice, cut off at the back. -/
def lastPosition (values : List Bytes) (stop : Int) : Int :=
  min (values.length - 1) (position values stop)

/-- A slice is as long as its two positions say, and empty if they have crossed. -/
theorem length_slice (values : List Bytes) (start stop : Int) :
    (slice values start stop).length =
      (lastPosition values stop + 1 - firstPosition values start).toNat := by
  rw [slice_eq, List.length_drop, List.length_take, firstPosition, lastPosition]
  omega

/-- A slice is a contiguous part. -/
theorem getElem?_slice {values : List Bytes} {start stop : Int} {k : Nat}
    (h : k < (slice values start stop).length) :
    (slice values start stop)[k]? = values[(firstPosition values start).toNat + k]? := by
  have hfirst : (position values start).toNat = (firstPosition values start).toNat := by
    rw [firstPosition]
    omega
  have hin : (firstPosition values start).toNat + k < (position values stop + 1).toNat := by
    rw [length_slice, firstPosition, lastPosition] at h
    rw [firstPosition]
    omega
  rw [slice_eq, List.getElem?_drop, hfirst, List.getElem?_take_of_lt hin]

/-- The slice from an index to the same one is the value there, if there is one. -/
theorem slice_self (values : List Bytes) (i : Int) :
    slice values i i = (at? values i).toList := by
  rw [slice_eq, at?]
  split
  · rename_i hout
    have hnone : (position values i + 1).toNat = 0 := by omega
    rw [hnone, List.take_zero, List.drop_nil, Option.toList_none]
  · rename_i hin
    have hone : (position values i + 1).toNat - (position values i).toNat = 1 := by omega
    rw [List.drop_take, hone, List.take_one, List.head?_drop]

end Deque

end CompactStore
