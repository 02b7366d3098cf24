import CompactStore.Proofs.Listpack.Backlen
import Mathlib.Data.Nat.Bitwise

/-!
# Where a trailing length begins

A length is written in groups of seven bits, the most significant one first, in as few bytes
as hold them.  The high bit of a byte is its flag: it is clear in the first byte and set in
all the others.  So the first byte is the only one at which reading back can stop.  It stops
there whatever stands in front, and no written length is the end of another one:
`encode_self_delimiting`.
-/

namespace CompactStore.Backlen

variable {size other count w i : Nat} {b : UInt8}

/-! ### The width -/

/-- No smaller number of groups holds a size than its width. -/
theorem width_le_of_lt (hw : 1 ≤ w) (h : size < 2 ^ (7 * w)) : width size ≤ w := by
  by_contra hmore
  obtain ⟨following, hfollowing⟩ : ∃ following, width size = following + 1 :=
    ⟨width size - 1, by omega⟩
  have hpos : 0 < size := by
    apply Nat.pos_of_ne_zero
    rintro rfl
    exact hmore hw
  have hlarge : 2 ^ (7 * following) ≤ size := le_of_width hpos hfollowing
  have hgroups : 2 ^ (7 * w) ≤ 2 ^ (7 * following) := Nat.pow_le_pow_right (by decide) (by omega)
  omega

/-! ### Groups and flags -/

/-- The lower bits of a byte are its group. -/
theorem and_group_eq (h : b.toNat % 128 = size / 2 ^ (7 * w) % 128) :
    b &&& 0x7F = UInt8.ofNat (size >>> (7 * w) &&& 0x7F) := by
  apply UInt8.toNat_inj.mp
  have hbyte : (b &&& 0x7F).toNat = b.toNat % 128 := by
    rw [UInt8.toNat_and]
    exact Nat.and_two_pow_sub_one_eq_mod b.toNat 7
  have hsize : size >>> (7 * w) &&& 0x7F = size / 2 ^ (7 * w) % 128 := by
    rw [Nat.shiftRight_eq_div_pow]
    exact Nat.and_two_pow_sub_one_eq_mod _ 7
  rw [hbyte, hsize, UInt8.toNat_ofNat']
  omega

/-- The highest bit of a byte is its flag. -/
theorem and_flag_eq_zero_iff : b &&& 0x80 = 0 ↔ b < 128 := by
  have hflag : (b &&& 0x80).toNat = (b.toNat.testBit 7).toNat * 128 := by
    rw [UInt8.toNat_and]
    exact Nat.and_two_pow b.toNat 7
  have hbit : b.toNat.testBit 7 = decide (b.toNat / 128 % 2 = 1) :=
    Nat.testBit_eq_decide_div_mod_eq
  have hmax := b.toNat_lt
  rw [← UInt8.toNat_inj, hflag, hbit, UInt8.lt_iff_toNat_lt, UInt8.toNat_zero]
  by_cases hlow : b.toNat < 128
  · have hclear : ¬b.toNat / 128 % 2 = 1 := by omega
    simp [hclear, hlow]
  · have hset : b.toNat / 128 % 2 = 1 := by omega
    simp [hset, hlow]

/-- What stands at each place of a run of flagged groups. -/
theorem getElem?_flagged (hi : i < count) :
    (flagged count size)[i]? =
      some (UInt8.ofNat (128 + size / 2 ^ (7 * (count - 1 - i)) % 128)) := by
  induction count generalizing i with
  | zero => exact absurd hi (Nat.not_lt_zero i)
  | succ count ih =>
      rw [flagged]
      cases i with
      | zero => rfl
      | succ i =>
          have hplace : count + 1 - 1 - (i + 1) = count - 1 - i := by omega
          rw [List.getElem?_cons_succ, ih (by omega), hplace]

/-- **Every byte of a written size** has a group, and a flag unless it is the first one. -/
theorem getElem?_encode (hi : i < width size) :
    ∃ b, (encode size)[i]? = some b ∧
      b.toNat % 128 = size / 2 ^ (7 * (width size - 1 - i)) % 128 ∧ (b < 128 ↔ i = 0) := by
  cases i with
  | zero =>
      refine ⟨_, rfl, ?_, iff_of_true (lead_lt _) rfl⟩
      rw [toNat_lead, Nat.sub_zero, Nat.mod_mod]
  | succ i =>
      have hplace : width size - 1 - 1 - i = width size - 1 - (i + 1) := by omega
      refine ⟨_, getElem?_flagged (by omega), ?_,
        iff_of_false (not_following_lt _) (Nat.succ_ne_zero i)⟩
      rw [toNat_following, hplace, Nat.add_mod_left, Nat.mod_mod]

/-! ### One written size at the end of another -/

/-- The first byte of a written size is the only one without a flag. -/
theorem exists_encode_eq (size : Nat) :
    ∃ lead rest, encode size = lead :: rest ∧ lead < 128 ∧ ∀ b ∈ rest, ¬b < 128 := by
  refine ⟨_, _, rfl, ?_, ?_⟩
  · obtain ⟨b, hb, -, hlead⟩ := getElem?_encode (width_pos size)
    obtain rfl := Option.some.inj hb
    exact hlead.mpr rfl
  · intro b hb hlow
    obtain ⟨j, hj⟩ := List.mem_iff_getElem?.mp hb
    have hcount : j < width size - 1 := by
      have hlength := (List.getElem?_eq_some_iff.mp hj).1
      rwa [length_flagged] at hlength
    have hplace : j + 1 < width size := by omega
    obtain ⟨c, hc, -, hflag⟩ := getElem?_encode hplace
    have hsame : some b = some c := hj.symm.trans hc
    obtain rfl := Option.some.inj hsame
    exact Nat.succ_ne_zero j (hflag.mp hlow)

/-- **A written size is no proper suffix of another**: it would begin with a flagged byte. -/
theorem encode_eq_of_suffix (h : encode other <:+ encode size) : encode other = encode size := by
  obtain ⟨lead, rest, hsize, -, hflags⟩ := exists_encode_eq size
  obtain ⟨first, after, hother, hfirst, -⟩ := exists_encode_eq other
  rw [hsize, hother] at h ⊢
  obtain hsame | hinside := List.suffix_cons_iff.mp h
  · exact hsame
  · exact absurd hfirst (hflags first (hinside.subset List.mem_cons_self))

/-- **A trailing length delimits itself.**  Any size below `2 ^ 35` is read back from the end
of any bytes.  It is written in the least number of bytes, out of five, that hold it in groups
of seven bits; the byte at each place has its group, and a flag except at the first place.  So
no written size is a proper suffix of another. -/
theorem encode_self_delimiting (h : size < 2 ^ 35) :
    (∀ before, decode (before ++ encode size) = some size) ∧
    (encode size).length = width size ∧
    (1 ≤ width size ∧ width size ≤ 5 ∧ size < 2 ^ (7 * width size) ∧
      ∀ w, 1 ≤ w → size < 2 ^ (7 * w) → width size ≤ w) ∧
    (∀ i < width size, ∃ b, (encode size)[i]? = some b ∧
      b &&& 0x7F = UInt8.ofNat (size >>> (7 * (width size - 1 - i)) &&& 0x7F) ∧
      (b &&& 0x80 = 0 ↔ i = 0)) ∧
    ∀ other, encode other <:+ encode size → encode other = encode size := by
  refine ⟨decode_append_encode h, length_encode size,
    ⟨width_pos size, width_le size, lt_width h, fun w => width_le_of_lt⟩, ?_,
    fun other => encode_eq_of_suffix⟩
  intro i hi
  obtain ⟨b, hb, hgroup, hflag⟩ := getElem?_encode hi
  exact ⟨b, hb, and_group_eq hgroup, and_flag_eq_zero_iff.trans hflag⟩

/-- The least size of four bytes, behind flags that would lead on from its first byte. -/
theorem encode_self_delimiting_four_bytes :
    2 ^ 21 < 2 ^ 35 ∧ decode ([0x01, 0x80, 0x80] ++ encode (2 ^ 21)) = some (2 ^ 21) ∧
      encode (2 ^ 21) = [0x01, 0x80, 0x80, 0x80] := by
  have hsize : 2 ^ 21 < 2 ^ 35 := by decide
  exact ⟨hsize, (encode_self_delimiting hsize).1 [0x01, 0x80, 0x80], by decide⟩

end CompactStore.Backlen
