import CompactStore.Proofs.Bounds.Listpack
import CompactStore.Proofs.Listpack.Reloading

/-!
# Stepping from any position

A position may lie inside of a payload, or far behind the buffer.  Whatever bytes stand there
are read as a tag or as a length: a tag may claim a string of almost `2 ^ 32` bytes, and a
length that ends there may be as large as `2 ^ 35`.  The forms of 64 bits look at every sum
before they use it, and at every access to the buffer.

A step forward lands behind its position and before the terminator, a step backward before
its position and behind the header.  So something falls with every step, `Falls`, and every
walk ends, wherever it starts: `steps_from_any_position`.
-/

namespace CompactStore.Listpack

open Checked Deque

/-- The listpacks there are: what pushes and pops make of the empty one, and what is loaded. -/
inductive Obtained : Listpack → Prop where
  | made (ops : List Operation) : Obtained (run apply empty ops).1
  | loaded {b : Bytes} {lp : Listpack} : ofBytes? b = some lp → Obtained lp

/-- One step away from an end. -/
def step? (lp : Listpack) : End → Nat → Option Nat
  | .front => lp.next?
  | .back => lp.prev?

/-! ### Sums of 64 bits -/

/-- The size of the body of the entry at a position. -/
def bodySizeAt64 (lp : Listpack) (pos : Nat) : Checked (Option Nat) := do
  if lp.sizeBytes ≤ pos then return none
  -- a tag near the end may have fewer bytes behind it than it asks for: then it tells no size
  match Entry.bodySize? (lp.window pos (← add64 pos Entry.headSize)) with
  | none => return none
  | some size =>
    let stop ← add64 pos size
    return if stop ≤ (← lp.checkedEndOffset) then some size else none

/-- The entry at a position. -/
def get64 (lp : Listpack) (pos : Nat) : Checked (Option Entry) := do
  match ← lp.bodySizeAt64 pos with
  | none => return none
  | some size =>
    let _ ← lp.checkedByte pos
    Entry.checkedOfBody (← lp.checkedSlice pos (← add64 pos size))

/-- The position of the entry after the one at `pos`. -/
def next64 (lp : Listpack) (pos : Nat) : Checked (Option Nat) := do
  let stop ← lp.checkedEndOffset
  if pos < headerSize ∨ stop ≤ pos then return none
  match ← lp.bodySizeAt64 pos with
  | none => return none
  | some size =>
    let next ← add64 (← add64 pos size) (Backlen.width size)
    return if next < stop then some next else none

/-- The position of the entry that ends before `pos`. -/
def prev64 (lp : Listpack) (pos : Nat) : Checked (Option Nat) := do
  let stop ← lp.checkedEndOffset
  if pos ≤ headerSize ∨ stop < pos then return none
  match Backlen.decode (← lp.checkedSlice (max headerSize (pos - Backlen.maxWidth)) pos) with
  | none => return none
  | some size =>
    let step ← add64 size (Backlen.width size)
    if pos < step then return none
    return if headerSize ≤ pos - step then some (pos - step) else none

/-- One step away from an end. -/
def step64 (lp : Listpack) : End → Nat → Checked (Option Nat)
  | .front => lp.next64
  | .back => lp.prev64

/-- The entries met by steps away from an end, newest first in front of `seen`. -/
def walk64 (lp : Listpack) (e : End) : Nat → Option Nat → List Entry → Checked (List Entry)
  | 0, _, seen => .ok seen
  | _, none, seen => .ok seen
  | fuel + 1, some pos, seen => do
    let next ← lp.step64 e pos
    match ← lp.get64 pos with
    | none => return seen
    | some entry => walk64 lp e fuel next (entry :: seen)

variable {lp : Listpack} {pos p q : Nat}

/-- Every listpack there is has a header and a terminator, and a length of four bytes. -/
theorem Obtained.sizeBytes_bounds (h : lp.Obtained) :
    headerSize < lp.sizeBytes ∧ lp.sizeBytes < word32 := by
  obtain ⟨b, hload⟩ : ∃ b, ofBytes? b = some lp := by
    cases h with
    | made ops => exact ⟨_, (ofBytes?_run ops).1⟩
    | loaded hload => exact ⟨_, hload⟩
  obtain ⟨cs, hframed, -, rfl⟩ := ofBytes?_eq_some_iff.mp hload
  obtain ⟨hfront, hb⟩ := hframed.take_append
  obtain ⟨_, hsize, -⟩ := hframed
  have hlength := congrArg List.length hb
  rw [List.length_append, hfront, List.length_append, List.length_singleton] at hlength
  exact ⟨show headerSize < b.length by omega, hsize⟩

section Sums

variable (h : headerSize < lp.sizeBytes) (hmax : lp.sizeBytes < word32)

include hmax

/-- What a tag or a length may claim is added to a position of the buffer without overflow. -/
theorem sizeBytes_add_lt_word64 : lp.sizeBytes + 2 ^ 36 < word64 := by
  unfold word32 at hmax
  unfold word64
  omega

include h

/-- The size of an entry is read without overflow, at any position. -/
theorem bodySizeAt64_eq (pos : Nat) : lp.bodySizeAt64 pos = .ok (lp.bodySizeAt? pos) := by
  have hroom := sizeBytes_add_lt_word64 hmax
  rw [bodySizeAt64, bodySizeAt?]
  split
  · rename_i hout
    have hnothing : lp.window pos (pos + Entry.headSize) = [] := by
      rw [window_eq, List.drop_eq_nil_of_le]
      rw [List.length_take, length_bytes]
      omega
    rw [hnothing]
    rfl
  · rw [add64_eq (by rw [Entry.headSize]; omega)]
    simp only [ok_bind]
    cases hsize : Entry.bodySize? (lp.window pos (pos + Entry.headSize)) with
    | none => rfl
    | some size =>
        have hclaimed := Entry.bodySize?_lt hsize
        dsimp only
        rw [add64_eq (by omega), ok_bind, checkedEndOffset_eq h, ok_bind, Option.filter_some]
        simp only [decide_eq_true_eq]
        rfl

/-- **An entry** is read without overflow, at any position. -/
theorem get64_eq (pos : Nat) : lp.get64 pos = .ok (lp.get? pos) := by
  rw [← checkedGet_eq h, get64, checkedGet, bodySizeAt64_eq h hmax, checkedBodySizeAt_eq h]
  simp only [ok_bind]
  cases hsize : lp.bodySizeAt? pos with
  | none => rfl
  | some size =>
      obtain ⟨-, hend⟩ := isBlock_of_bodySizeAt? hsize
      have hroom := sizeBytes_add_lt_word64 hmax
      rw [endOffset] at hend
      dsimp only
      rw [add64_eq (by omega)]
      rfl

/-- **A step forward** from any position is computed without overflow. -/
theorem next64_eq (pos : Nat) : lp.next64 pos = .ok (lp.next? pos) := by
  rw [next64, checkedEndOffset_eq h, ok_bind, next?]
  split
  · rfl
  · rw [bodySizeAt64_eq h hmax, ok_bind]
    cases hsize : lp.bodySizeAt? pos with
    | none => rfl
    | some size =>
        obtain ⟨-, hend⟩ := isBlock_of_bodySizeAt? hsize
        have hroom := sizeBytes_add_lt_word64 hmax
        have hwidth : Backlen.width size ≤ 5 := Backlen.width_le size
        rw [endOffset] at hend
        dsimp only
        rw [add64_eq (by omega), ok_bind, add64_eq (by omega), ok_bind, Option.map_some,
          Option.filter_some]
        simp only [decide_eq_true_eq]
        rfl

/-- **A step backward** from any position is computed without overflow. -/
theorem prev64_eq (pos : Nat) : lp.prev64 pos = .ok (lp.prev? pos) := by
  rw [prev64, checkedEndOffset_eq h, ok_bind, prev?]
  split
  · rfl
  · rename_i hout
    rw [endOffset] at hout
    rw [checkedSlice_eq (by omega) (by omega), ok_bind, sizeBefore?]
    cases hread : Backlen.decode (lp.window (max headerSize (pos - Backlen.maxWidth)) pos) with
    | none => rfl
    | some size =>
        have hsize := Backlen.decode_lt hread
        have hwidth : Backlen.width size ≤ 5 := Backlen.width_le size
        have hword := sizeBytes_add_lt_word64 hmax
        dsimp only
        rw [add64_eq (by omega), ok_bind]
        split
        · -- a length that leads in front of the buffer leads in front of the header, too
          rw [if_neg (by omega)]
          rfl
        · have hroom : headerSize ≤ pos - (size + Backlen.width size) ↔
              headerSize + (size + Backlen.width size) ≤ pos := by omega
          rw [if_congr hroom rfl rfl]
          rfl

/-- **One step**, either way, meets no violation. -/
theorem step64_eq (e : End) (pos : Nat) : lp.step64 e pos = .ok (lp.step? e pos) := by
  cases e with
  | front => exact next64_eq h hmax pos
  | back => exact prev64_eq h hmax pos

/-- **A walk**, either way and from anywhere, meets no violation. -/
theorem walk64_eq (e : End) (fuel : Nat) (pos? : Option Nat) (seen : List Entry) :
    lp.walk64 e fuel pos? seen = .ok (lp.walk (lp.step? e) fuel pos? seen) := by
  induction fuel generalizing pos? seen with
  | zero => rfl
  | succ fuel ih =>
      cases pos? with
      | none => rfl
      | some pos =>
          rw [walk64, walk, step64_eq h hmax, ok_bind, get64_eq h hmax, ok_bind]
          cases lp.get? pos with
          | none => rfl
          | some entry => exact ih _ _

end Sums

/-! ### Progress -/

/-- A step forward lands behind its position, before the terminator. -/
theorem next?_bounds (h : lp.next? pos = some q) : pos < q ∧ q < lp.endOffset := by
  unfold next? at h
  split at h
  · cases h
  · obtain ⟨hafter, hend⟩ := Option.filter_eq_some_iff.mp h
    obtain ⟨size, -, rfl⟩ := Option.map_eq_some_iff.mp hafter
    have hwidth := Backlen.width_pos size
    rw [decide_eq_true_eq] at hend
    refine ⟨?_, hend⟩
    rw [after]
    omega

/-- A step backward lands before its position, behind the header. -/
theorem prev?_bounds (h : lp.prev? pos = some p) :
    headerSize ≤ p ∧ p < pos ∧ pos ≤ lp.endOffset := by
  unfold prev? at h
  split at h
  · cases h
  · rename_i hin
    cases hread : lp.sizeBefore? headerSize pos with
    | none =>
        rw [hread] at h
        cases h
    | some size =>
        have hwidth := Backlen.width_pos size
        rw [hread] at h
        dsimp only at h
        split at h
        · obtain rfl := Option.some.inj h
          omega
        · cases h

/-- Under a way of stepping, a number that belongs to the position falls. -/
def Falls (step : Nat → Option Nat) (left : Nat → Nat) : Prop :=
  ∀ ⦃pos next⦄, step pos = some next → left next < left pos

/-- How far it is from a position to where steps away from an end lead. -/
def left (lp : Listpack) : End → Nat → Nat
  | .front, pos => lp.endOffset - pos
  | .back, pos => min pos lp.endOffset

theorem left_le (lp : Listpack) (e : End) (pos : Nat) : lp.left e pos ≤ lp.endOffset := by
  cases e with
  | front => exact Nat.sub_le _ _
  | back => exact Nat.min_le_right _ _

/-- **Every step brings the end nearer.** -/
theorem falls_step? (lp : Listpack) (e : End) : Falls (lp.step? e) (lp.left e) := by
  intro pos next hstep
  cases e with
  | front =>
      rw [step?] at hstep
      have hbounds := next?_bounds hstep
      simp only [left]
      omega
  | back =>
      rw [step?] at hstep
      have hbounds := prev?_bounds hstep
      simp only [left]
      omega

section Falling

variable {step : Nat → Option Nat} {left : Nat → Nat} (hfalls : Falls step left)

include hfalls

/-- There are no more steps than the number that falls. -/
theorem Falls.length_le {trail : List Nat}
    (hsteps : (pos :: trail).IsChain fun p q => step p = some q) : trail.length ≤ left pos := by
  induction trail generalizing pos with
  | nil => exact Nat.zero_le _
  | cons next rest ih =>
      obtain ⟨hstep, hrest⟩ := List.isChain_cons_cons.mp hsteps
      have hless := hfalls hstep
      have hlength := ih hrest
      rw [List.length_cons]
      omega

/-- A walk that may go on for as long as the number falls ends by itself. -/
theorem Falls.walk_eq {n m : Nat} (hn : left pos < n) (hm : left pos < m) (seen : List Entry) :
    lp.walk step n (some pos) seen = lp.walk step m (some pos) seen := by
  -- both fuels go down by one with every step, and stay above the number that falls
  induction n generalizing m pos seen with
  | zero => exact absurd hn (Nat.not_lt_zero _)
  | succ n ih =>
      obtain ⟨m, rfl⟩ : ∃ less, m = less + 1 := ⟨m - 1, by omega⟩
      rw [walk, walk]
      cases lp.get? pos with
      | none => rfl
      | some entry =>
          dsimp only
          cases hstep : step pos with
          | none => cases n <;> cases m <;> rfl
          | some next =>
              have hless := hfalls hstep
              exact ih (by omega) (by omega) _

end Falling

/-- **Stepping from any position is safe and makes progress.**  Reading and stepping at any
position of any listpack there is meets no violation, neither at an access nor in a sum.  A
step forward lands behind its position and before the terminator, a step backward before its
position and behind the header.  So no steps in one direction are as many as the buffer has
bytes, and a walk from anywhere ends within that many. -/
theorem steps_from_any_position (h : lp.Obtained) (pos : Nat) :
    (lp.get64 pos = .ok (lp.get? pos) ∧ lp.next64 pos = .ok (lp.next? pos) ∧
      lp.prev64 pos = .ok (lp.prev? pos)) ∧
    (∀ q, lp.next? pos = some q → pos < q ∧ q < lp.endOffset) ∧
    (∀ p, lp.prev? pos = some p → 6 ≤ p ∧ p < pos) ∧
    ∀ e,
      (∀ trail, (pos :: trail).IsChain (fun p q => lp.step? e p = some q) →
        trail.length < lp.sizeBytes) ∧
      ∀ fuel seen, lp.sizeBytes ≤ fuel →
        lp.walk64 e fuel (some pos) seen =
          .ok (lp.walk (lp.step? e) lp.sizeBytes (some pos) seen) := by
  obtain ⟨hmin, hmax⟩ := h.sizeBytes_bounds
  refine ⟨⟨get64_eq hmin hmax pos, next64_eq hmin hmax pos, prev64_eq hmin hmax pos⟩,
    fun q hq => next?_bounds hq, fun p hp => ?_, fun e => ?_⟩
  · obtain ⟨hlow, hhigh, -⟩ := prev?_bounds hp
    exact ⟨hlow, hhigh⟩
  have hleft : lp.left e pos < lp.sizeBytes := by
    have hend := lp.left_le e pos
    rw [endOffset] at hend
    omega
  refine ⟨fun trail hsteps => ?_, fun fuel seen hfuel => ?_⟩
  · exact Nat.lt_of_le_of_lt ((lp.falls_step? e).length_le hsteps) hleft
  · rw [walk64_eq hmin hmax, (lp.falls_step? e).walk_eq (by omega) hleft]

/-- One string, whose payload begins like a string of `2 ^ 32 - 1` bytes, and ends like the
length `2 ^ 35 - 1`. -/
def misleading : Listpack :=
  ⟨buffer [19, 0, 0, 0, 1, 0, 0x8A, 0xF0, 0xFF, 0xFF, 0xFF, 0xFF, 0x7F, 0xFF, 0xFF, 0xFF, 0xFF,
    0x0B, 0xFF], 1⟩

/-- Steps from where the long string would start and from where the long length would end. -/
theorem steps_from_inside_payload :
    misleading.Obtained ∧
      Entry.bodySize? (misleading.window 7 12) = some (5 + (2 ^ 32 - 1)) ∧
      misleading.next64 7 = .ok none ∧
      Backlen.decode (misleading.window 12 17) = some (2 ^ 35 - 1) ∧
      misleading.prev64 17 = .ok none := by
  have hload : ofBytes? misleading.bytes = some misleading := by decide +kernel
  have hobtained : misleading.Obtained := .loaded hload
  obtain ⟨⟨-, hnext, -⟩, -⟩ := steps_from_any_position hobtained 7
  obtain ⟨⟨-, -, hprev⟩, -⟩ := steps_from_any_position hobtained 17
  refine ⟨hobtained, by decide +kernel, hnext.trans ?_, by decide +kernel, hprev.trans ?_⟩
  · exact congrArg Except.ok (by decide +kernel)
  · exact congrArg Except.ok (by decide +kernel)

end CompactStore.Listpack
