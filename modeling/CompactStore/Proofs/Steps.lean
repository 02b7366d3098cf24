import CompactStore.Proofs.Bloom.Growth
import CompactStore.Proofs.Quicklist.Counts
import CompactStore.Proofs.Sketch.Tallies
import Mathlib.Data.List.ReduceOption

/-!
# Steps one after another

`runSteps` takes steps one after another and collects their answers.  An operation on many
things at once is a run of the steps for each of them: `addAll_eq_runSteps`,
`incrementAll_eq_runSteps`, `push_eq_runSteps` and `popMany_eq_runSteps` say so.  By
`runSteps_map`, a run of steps on a part is a run of steps on the whole.
-/

namespace CompactStore

variable {σ τ ι κ α β : Type}

/-- Takes steps one after another; what they leave, and the answer of each. -/
def runSteps (step : σ → ι → σ × α) : σ → List ι → σ × List α
  | a, [] => (a, [])
  | a, x :: rest =>
    let (b, answer) := step a x
    let (c, answers) := runSteps step b rest
    (c, answer :: answers)

/-- A run is its first step and the rest of it. -/
theorem runSteps_cons (step : σ → ι → σ × α) (a : σ) (x : ι) (rest : List ι) :
    runSteps step a (x :: rest) = ((runSteps step (step a x).1 rest).1,
      (step a x).2 :: (runSteps step (step a x).1 rest).2) := rfl

/-- The state after a run does not depend on what is answered on the way. -/
theorem runSteps_fst (step : σ → ι → σ × α) (a : σ) (xs : List ι) :
    (runSteps step a xs).1 = xs.foldl (fun a x => (step a x).1) a := by
  induction xs generalizing a with
  | nil => rfl
  | cons x rest ih => exact ih (step a x).1

/-- Steps that answer what they leave: the last answer is what the run leaves. -/
theorem getLast?_runSteps {step : σ → ι → σ × α} (tell : σ → α)
    (htell : ∀ a x, (step a x).2 = tell (step a x).1) (a : σ) {xs : List ι} (h : xs ≠ []) :
    (runSteps step a xs).2.getLast? = some (tell (runSteps step a xs).1) := by
  induction xs generalizing a with
  | nil => exact absurd rfl h
  | cons x rest ih =>
      rw [runSteps_cons, List.getLast?_cons]
      cases rest with
      | nil => exact congrArg some (htell a x)
      | cons y rest => rw [ih (step a x).1 (List.cons_ne_nil y rest), Option.getD_some]

/-- Steps that leave everything as it is. -/
theorem runSteps_of_still {step : σ → ι → σ × α} {a : σ} {xs : List ι}
    (h : ∀ x ∈ xs, (step a x).1 = a) : runSteps step a xs = (a, xs.map fun x => (step a x).2) := by
  induction xs with
  | nil => rfl
  | cons x rest ih =>
      rw [runSteps_cons, h x List.mem_cons_self, ih fun y hy => h y (List.mem_cons_of_mem x hy)]
      rfl

/-- **Steps on a part are steps on the whole**, if each of them is, as long as an invariant
of the part holds, which they keep. -/
theorem runSteps_map {step : σ → ι → σ × α} {outer : τ → κ → τ × β} {P : σ → Prop}
    (whole : σ → τ) (wide : ι → κ) (tell : α → β)
    (hstep : ∀ a x, P a → P (step a x).1 ∧
      outer (whole a) (wide x) = (whole (step a x).1, tell (step a x).2))
    {a : σ} (ha : P a) (xs : List ι) :
    runSteps outer (whole a) (xs.map wide) =
      (whole (runSteps step a xs).1, (runSteps step a xs).2.map tell) := by
  induction xs generalizing a with
  | nil => rfl
  | cons x rest ih =>
      obtain ⟨hnext, houter⟩ := hstep a x ha
      rw [List.map_cons, runSteps_cons, houter, ih hnext]
      rfl

/-! ### Operations on many things -/

/-- Adding several items to a bloom filter is a run. -/
theorem BloomFilter.addAll_eq_runSteps (f : BloomFilter) (items : List Bytes) :
    f.addAll items = runSteps add f items := by
  induction items generalizing f with
  | nil => rfl
  | cons item rest ih => rw [addAll_cons, runSteps_cons, ih]

/-- Many increments of a sketch are a run. -/
theorem CountMinSketch.incrementAll_eq_runSteps (s : CountMinSketch) (pairs : List (Bytes × Nat)) :
    s.incrementAll pairs = runSteps (fun s pair => s.increment pair.1 pair.2) s pairs := by
  induction pairs generalizing s with
  | nil => rfl
  | cons pair rest ih => rw [incrementAll_cons, runSteps_cons, ih]

namespace Quicklist

/-- Pushing one value; the answer is the length. -/
def pushStep (e : End) (q : Quicklist) (value : Bytes) : Quicklist × Nat :=
  (pushOne e q value, (pushOne e q value).len)

/-- Taking one value off; the answer is the value, if there was one. -/
def popStep (e : End) (q : Quicklist) (_ : Unit) : Quicklist × Option Bytes :=
  match q.pop? e with
  | none => (q, none)
  | some (value, r) => (r, some value)

/-- A pop leaves a chain. -/
theorem chained_popStep {q : Quicklist} (h : q.Chained) (e : End) (u : Unit) :
    (popStep e q u).1.Chained := by
  unfold popStep
  obtain hnone | ⟨value, r, hpop, hr, -⟩ := h.pop?_cases e
  · rw [hnone]
    exact h
  · rw [hpop]
    exact hr

/-- Of the values that are pushed at the front, the last one goes first. -/
theorem push_eq_runSteps (q : Quicklist) (e : End) (values : List Bytes) :
    (q.push e values).1 = (runSteps (pushStep e) q (e.opposite.orient values)).1 := by
  rw [runSteps_fst]
  cases e <;> rfl

/-- Pops one after another are a run, of which the values that were found are taken. -/
theorem popEach_eq_runSteps (q : Quicklist) (e : End) (count : Nat) (taken : List Bytes) :
    q.popEach e count taken = ((runSteps (popStep e) q (List.replicate count ())).1,
      taken.reverse ++ (runSteps (popStep e) q (List.replicate count ())).2.reduceOption) := by
  induction count generalizing q taken with
  | zero => rw [popEach, List.replicate_zero, runSteps, List.reduceOption_nil, List.append_nil]
  | succ count ih =>
      rw [popEach, List.replicate_succ, runSteps_cons]
      cases hpop : q.pop? e with
      | none =>
          have hstill : ∀ x ∈ List.replicate count (), (popStep e q x).1 = q := fun _ _ => by
            rw [popStep, hpop]
          have hnone : ∀ x, (popStep e q x).2 = none := fun _ => by rw [popStep, hpop]
          have hone : (popStep e q ()).1 = q := by rw [popStep, hpop]
          rw [hone, runSteps_of_still hstill]
          simp [hnone, List.reduceOption]
      | some found =>
          have hone : popStep e q () = (found.2, some found.1) := by rw [popStep, hpop]
          rw [hone]
          dsimp only
          rw [ih, List.reverse_cons, List.append_assoc, List.singleton_append,
            List.reduceOption_cons_of_some]

end Quicklist

end CompactStore
