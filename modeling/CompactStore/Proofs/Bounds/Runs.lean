import CompactStore.Proofs.Bounds.Store

/-!
# Every run is within its bounds

A command has a checked form, in which each operation on a value is a checked one.  In a store
whose values are sound it responds what the command itself responds, and the values are sound
afterwards.  So no call after any other calls ever meets a violation: `checkedResponses_eq`.
-/

namespace CompactStore

open Checked

/-! ### Commands -/

namespace Command

/-- Runs a command. -/
def checkedRun (c : Command) (s : Store) : Checked (Outcome Reply) :=
  match c with
  | push e key values => do return (← s.checkedPushList key e values).map .ofCount
  | pop e key none => do return (← s.checkedPopList key e 1).map oneReply
  | pop e key (some (count + 1)) => do
    return (← s.checkedPopList key e (count + 1)).map manyReply
  | range key start stop => do
    return s.answering ((← s.checkedListRange key start stop).map .ofValues)
  | index key i => do return s.answering ((← s.checkedListIndex key i).map .ofBytes?)
  | bloomAdd key item => do return (← s.checkedAddBloom key item).map .ofBool
  | bloomAddAll key items => do return (← s.checkedAddBloomAll key items).map .ofBools
  | bloomContains key item => do
    return s.answering ((← s.checkedBloomContains key item).map .ofBool)
  | bloomContainsAll key items => do
    return s.answering ((← s.checkedBloomContainsAll key items).map .ofBools)
  | cuckooAdd key item => do
    let outcome ← s.checkedExtendCuckoo key fun f => f.checkedAddOnce item
    return (outcome.map fun _ => ()).map fun _ => .int 1
  | cuckooAddNew key item => do
    return (← s.checkedExtendCuckoo key fun f => f.checkedAddNew item).map .ofBool
  | cuckooContains key item => do
    return s.answering ((← s.checkedCuckooContains key item).map .ofBool)
  | cuckooContainsAll key items => do
    return s.answering ((← s.checkedCuckooContainsAll key items).map .ofBools)
  | cuckooRemove key item => do return (← s.checkedRemoveCuckoo key item).map .ofBool
  | sketchIncrement key pairs => do
    return (← s.checkedIncrementSketch key pairs).map .ofCounts
  | sketchEstimates key items => do
    return s.answering ((← s.checkedSketchEstimates key items).map .ofCounts)
  -- The others make a new value, state numbers that a value keeps, or ask for keys only.
  | pop _ _ (some 0) | length _ | bloomReserve .. | bloomInfo _ | bloomCard _
  | cuckooReserve .. | cuckooInfo _ | sketchCreate .. | sketchCreateFor .. | sketchInfo _
  | delete _ | present _ | type _ => .ok (c.run s)

variable {s : Store}

/-- **A command in a sound store** meets no violation. -/
theorem checkedRun_eq (c : Command) (h : s.Every Value.Sound) :
    c.checkedRun s = .ok (c.run s) := by
  cases c with
  | push e key values =>
      rw [checkedRun, s.checkedPushList_eq h]
      rfl
  | pop e key count =>
      obtain _ | _ | count := count
      · rw [checkedRun, s.checkedPopList_eq h]
        rfl
      · rfl
      · rw [checkedRun, s.checkedPopList_eq h]
        rfl
  | range key start stop =>
      rw [checkedRun, s.checkedListRange_eq h]
      rfl
  | index key i =>
      rw [checkedRun, s.checkedListIndex_eq h]
      rfl
  | bloomAdd key item =>
      rw [checkedRun, s.checkedAddBloom_eq h]
      rfl
  | bloomAddAll key items =>
      rw [checkedRun, s.checkedAddBloomAll_eq h]
      rfl
  | bloomContains key item =>
      rw [checkedRun, s.checkedBloomContains_eq h]
      rfl
  | bloomContainsAll key items =>
      rw [checkedRun, s.checkedBloomContainsAll_eq h]
      rfl
  | cuckooAdd key item =>
      rw [checkedRun, s.checkedExtendCuckoo_eq h fun f hf => hf.checkedAddOnce_eq item]
      rfl
  | cuckooAddNew key item =>
      rw [checkedRun, s.checkedExtendCuckoo_eq h fun f hf => hf.checkedAddNew_eq item]
      rfl
  | cuckooContains key item =>
      rw [checkedRun, s.checkedCuckooContains_eq h]
      rfl
  | cuckooContainsAll key items =>
      rw [checkedRun, s.checkedCuckooContainsAll_eq h]
      rfl
  | cuckooRemove key item =>
      rw [checkedRun, s.checkedRemoveCuckoo_eq h]
      rfl
  | sketchIncrement key pairs =>
      rw [checkedRun, s.checkedIncrementSketch_eq h]
      rfl
  | sketchEstimates key items =>
      rw [checkedRun, s.checkedSketchEstimates_eq h]
      rfl
  | _ => rfl

/-! ### What commands keep -/

/-- **Every command** keeps the items of the bloom filters counted by their bits. -/
theorem bloomCounted_run (c : Command) (h : s.Every Value.BloomCounted) :
    (c.run s).store.Every Value.BloomCounted := by
  apply every_run_of_bloom _ _ _ c h
  · rintro (q | f | f | sketch) hvalue
    case bloom => exact absurd rfl hvalue
    all_goals trivial
  · exact fun ln capacity rate f hcreate => BloomFilter.counted_of_create hcreate
  · exact fun f items hf => hf.addAll items

/-- **Every command** leaves the sketches standing. -/
theorem sketchStanding_run (c : Command) (h : s.Every Value.SketchStanding) :
    (c.run s).store.Every Value.SketchStanding := by
  have hothers : ∀ value : Value, value.family ≠ .sketch → value.SketchStanding := by
    rintro (q | f | f | sketch) hvalue
    case sketch => exact absurd rfl hvalue
    all_goals trivial
  apply c.every_run hothers h
  intro hfamily
  obtain hself | ⟨key, sketch, -, ⟨rows, columns, hcreate⟩, hput⟩ |
    ⟨key, sketch, pairs, -, hget, hput⟩ := sketch_cases hfamily s
  · rw [hself]
    exact h
  · rw [hput]
    apply h.put
    rintro value hvalue
    cases hvalue
    exact CountMinSketch.standing_of_create hcreate
  · have hsketch : sketch.Standing := h key _ hget
    rw [hput]
    apply h.put
    rintro value hvalue
    cases hvalue
    exact hsketch.incrementAll pairs

/-- **Every command** keeps all values sound. -/
theorem sound_run (c : Command) (h : s.Every Value.Sound) : (c.run s).store.Every Value.Sound := by
  have hsound := fun key value hvalue => Value.sound_iff.mp (h key value hvalue)
  have hlists := c.listShaped_run fun key value hvalue => (hsound key value hvalue).1
  have hblooms := c.bloomCounted_run fun key value hvalue => (hsound key value hvalue).2.1
  have hcuckoos := Store.cuckoosShaped_iff.mp (c.cuckoosShaped_run (Store.cuckoosShaped_iff.mpr
    fun key value hvalue => (hsound key value hvalue).2.2.1))
  have hsketches := c.sketchStanding_run fun key value hvalue => (hsound key value hvalue).2.2.2
  intro key value hvalue
  exact Value.sound_iff.mpr ⟨hlists key value hvalue, hblooms key value hvalue,
    hcuckoos key value hvalue, hsketches key value hvalue⟩

end Command

/-! ### Calls -/

/-- What is asked of a store: by a client, or by the operations themselves, where a pop may
take any number of values, none included. -/
inductive Call where
  | request (r : Request)
  | command (c : Command)
  | take (key : Bytes) (e : End) (count : Nat)

namespace Store

/-- Answers a call. -/
def answer (s : Store) : Call → Response
  | .request r => s.serve r
  | .command c => (c.run s).response
  | .take key e count => ((s.popList key e count).map Command.manyReply).response

/-- The responses to calls, each in the store that the one before it left. -/
def responses (s : Store) : List Call → List Response
  | [] => []
  | call :: rest => s.answer call :: (s.answer call).store.responses rest

/-- Answers a call. -/
def checkedAnswer (s : Store) : Call → Checked Response
  | .request r =>
    match r.command? with
    | some c => do return (← c.checkedRun s).response
    | none => .ok (s.serve r)
  | .command c => do return (← c.checkedRun s).response
  | .take key e count => do
    return ((← s.checkedPopList key e count).map Command.manyReply).response

/-- The responses to calls, each in the store that the one before it left. -/
def checkedResponses (s : Store) : List Call → Checked (List Response)
  | [] => .ok []
  | call :: rest => do
    let response ← s.checkedAnswer call
    return response :: (← response.store.checkedResponses rest)

variable {s : Store}

/-- Popping keeps a store sound. -/
theorem sound_popList (h : s.Every Value.Sound) (key : Bytes) (e : End) (count : Nat) :
    (s.popList key e count).store.Every Value.Sound := by
  apply h.put
  rcases hget : s.get? key with _ | (q | f | f | sketch) <;> intro value hvalue
  case none => cases hvalue
  case some.list =>
    have hq : q.Standing := h key _ hget
    change keepList (q.popEach e count []).1 = some value at hvalue
    have hlist := listShaped_keepList (hq.1.popEach e count []).1 value hvalue
    unfold keepList at hvalue
    split at hvalue
    · cases hvalue
    · cases hvalue
      exact hlist
  all_goals exact h key value (hget.trans hvalue)

/-- **Every call** keeps all values sound. -/
theorem sound_answer (h : s.Every Value.Sound) (call : Call) :
    (s.answer call).store.Every Value.Sound := by
  cases call with
  | request r =>
      rw [answer]
      cases hcommand : r.command? with
      | none =>
          rw [(serve_of_command?_none hcommand).2]
          exact h
      | some c =>
          rw [(serve_of_command? hcommand).2]
          exact c.sound_run h
  | command c => exact c.sound_run h
  | take key e count => exact sound_popList h key e count

/-- **A call of a sound store** meets no violation. -/
theorem checkedAnswer_eq (h : s.Every Value.Sound) (call : Call) :
    s.checkedAnswer call = .ok (s.answer call) := by
  cases call with
  | request r =>
      rw [checkedAnswer, answer]
      cases hcommand : r.command? with
      | none => rfl
      | some c =>
          dsimp only
          rw [c.checkedRun_eq h, serve_eq_of_command? hcommand]
          rfl
  | command c =>
      rw [checkedAnswer, c.checkedRun_eq h]
      rfl
  | take key e count =>
      rw [checkedAnswer, checkedPopList_eq h]
      rfl

/-- **Calls one after another** stay within the bounds, by induction on them. -/
theorem checkedResponses_of_sound (h : s.Every Value.Sound) (calls : List Call) :
    s.checkedResponses calls = .ok (s.responses calls) := by
  induction calls generalizing s with
  | nil => rfl
  | cons call rest ih =>
      rw [checkedResponses, checkedAnswer_eq h, ok_bind, ih (sound_answer h call)]
      rfl

/-- **Every run is within its bounds**: whatever is asked of a store that was empty, no access
is past an end, no subtraction goes below zero, no modulus is zero and no count overflows. -/
theorem checkedResponses_eq (machine : Machine) (config : Config) (calls : List Call) :
    (empty machine config).checkedResponses calls = .ok ((empty machine config).responses calls) :=
  checkedResponses_of_sound (every_empty machine config) calls

end Store

end CompactStore
