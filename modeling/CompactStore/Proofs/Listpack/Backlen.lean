import CompactStore.Listpack.Entry
import Mathlib.Algebra.Group.Nat.Defs

/-!
# A trailing length is read back from its end

Reading goes back over the flagged groups, the least significant one first, and
ends at the leading group, which has no flag.  What stands before that group is
never looked at, so a size that was written is read back behind any bytes.

There is one other way to write a size of the same width that is read back: with a
flag on the leading group, too.  Reading then goes on into what stands in front,
and the size is right only if a zero is read there: `decode_append_iff`.
-/

namespace CompactStore.Backlen

/-- A width never passes the limit. -/
theorem width_le (size : Nat) : width size ≤ maxWidth := by
  unfold width maxWidth
  repeat' split
  all_goals decide

/-- A size below `2 ^ 35` fits the groups that its width gives it. -/
theorem lt_width {size : Nat} (h : size < 2 ^ 35) : size < 2 ^ (7 * width size) := by
  unfold width maxWidth
  repeat' split
  all_goals omega

/-! ### The bytes of the groups -/

/-- The first byte of a length has no flag. -/
theorem toNat_lead (n : Nat) : (UInt8.ofNat (n % 128)).toNat = n % 128 := by
  rw [UInt8.toNat_ofNat']
  omega

/-- Every other byte has the flag. -/
theorem toNat_following (n : Nat) : (UInt8.ofNat (128 + n % 128)).toNat = 128 + n % 128 := by
  rw [UInt8.toNat_ofNat']
  omega

/-- The leading group has no flag. -/
theorem lead_lt (n : Nat) : UInt8.ofNat (n % 128) < 128 := by
  rw [UInt8.lt_iff_toNat_lt, toNat_lead]
  exact Nat.mod_lt n (by decide)

/-- Each group that follows has one. -/
theorem not_following_lt (n : Nat) : ¬UInt8.ofNat (128 + n % 128) < 128 := by
  rw [UInt8.lt_iff_toNat_lt, toNat_following]
  exact Nat.not_lt.mpr (Nat.le_add_right _ _)

/-! ### Reading back -/

/-- Going back over flagged groups adds them below what is read in front. -/
theorem decodeReversed_flagged (count fuel size : Nat) (rest : Bytes) :
    decodeReversed (count + fuel) ((flagged count size).reverse ++ rest) =
      (decodeReversed fuel rest).map fun high =>
        2 ^ (7 * count) * high + size % 2 ^ (7 * count) := by
  induction count generalizing fuel rest with
  | zero => simp [flagged, Nat.mod_one]
  | succ count ih =>
      have hfuel : count + 1 + fuel = count + (fuel + 1) := by omega
      rw [flagged, List.reverse_cons, List.append_assoc, List.singleton_append, hfuel, ih,
        decodeReversed, if_neg (not_following_lt _), Option.map_map, toNat_following]
      apply Option.map_congr
      intro high _
      have hwide : 2 ^ (7 * (count + 1)) = 2 ^ (7 * count) * 128 := by
        rw [Nat.mul_add, Nat.pow_add]
      simp only [Function.comp_apply]
      rw [hwide, Nat.mod_mul, Nat.add_sub_cancel_left, Nat.mul_add, Nat.mul_assoc]
      omega

/-- **A size below `2 ^ 35` is read back** from the end of any bytes. -/
theorem decode_append_encode {size : Nat} (h : size < 2 ^ 35) (before : Bytes) :
    decode (before ++ encode size) = some size := by
  have hwidth := width_pos size
  have hlimit := width_le size
  obtain ⟨following, hfollowing⟩ : ∃ following, width size = following + 1 :=
    ⟨width size - 1, by omega⟩
  obtain ⟨spare, hspare⟩ : ∃ spare, maxWidth = following + (spare + 1) :=
    ⟨maxWidth - width size, by omega⟩
  have hsize : size < 2 ^ (7 * following) * 128 := by
    have hlt := lt_width h
    rwa [hfollowing, Nat.mul_add, Nat.pow_add] at hlt
  have hlead : size / 2 ^ (7 * following) < 128 :=
    Nat.div_lt_of_lt_mul hsize
  simp only [decode, encode, hfollowing, Nat.add_sub_cancel, List.reverse_append,
    List.reverse_cons, List.append_assoc, List.singleton_append]
  rw [hspare, decodeReversed_flagged, decodeReversed, if_pos (lead_lt _), Option.map_some,
    toNat_lead, Nat.mod_eq_of_lt hlead, Nat.div_add_mod]

/-- What is read fits the groups that were read. -/
theorem decodeReversed_lt {fuel value : Nat} {bytes : Bytes}
    (h : decodeReversed fuel bytes = some value) : value < 2 ^ (7 * fuel) := by
  induction fuel generalizing bytes value with
  | zero => cases h
  | succ fuel ih =>
      have hwide : 2 ^ (7 * (fuel + 1)) = 2 ^ (7 * fuel) * 128 := by
        rw [Nat.mul_succ, Nat.pow_add]
      cases bytes with
      | nil => cases h
      | cons b bytes =>
          have hone : 0 < 2 ^ (7 * fuel) := Nat.two_pow_pos _
          rw [decodeReversed] at h
          split at h
          · rename_i hlast
            have hsmall : b.toNat < 128 := UInt8.lt_iff_toNat_lt.mp hlast
            obtain rfl := Option.some.inj h
            omega
          · have hmax := b.toNat_lt
            obtain ⟨high, hhigh, rfl⟩ := Option.map_eq_some_iff.mp h
            have hlow := ih hhigh
            omega

/-- A size that is read back is one of five groups. -/
theorem decode_lt {bytes : Bytes} {size : Nat} (h : decode bytes = some size) : size < 2 ^ 35 :=
  decodeReversed_lt h

/-- The last group of a run of flagged groups is the least significant one. -/
theorem flagged_succ (count size : Nat) :
    flagged (count + 1) size = flagged count (size / 128) ++ [UInt8.ofNat (128 + size % 128)] := by
  induction count with
  | zero => simp [flagged]
  | succ count ih =>
      have hgroup : size / 128 / 2 ^ (7 * count) = size / 2 ^ (7 * (count + 1)) := by
        rw [Nat.div_div_eq_div_mul, Nat.mul_succ, Nat.pow_add, Nat.mul_comm 128]
      rw [flagged, ih, flagged, List.cons_append, hgroup]

/-! ### Only the last bytes are read -/

/-- No byte is read beyond the limit. -/
theorem decodeReversed_take (fuel : Nat) (bytes : Bytes) :
    decodeReversed fuel (bytes.take fuel) = decodeReversed fuel bytes := by
  induction fuel generalizing bytes with
  | zero => rfl
  | succ fuel ih =>
      cases bytes with
      | nil => rfl
      | cons b bytes => rw [List.take_succ_cons, decodeReversed, decodeReversed, ih]

/-- At most five bytes are read. -/
theorem decode_drop (bytes : Bytes) :
    decode (bytes.drop (bytes.length - maxWidth)) = decode bytes := by
  have hlast : bytes.reverse.take (bytes.length - (bytes.length - maxWidth)) =
      bytes.reverse.take maxWidth := by
    apply List.take_eq_take_iff.mpr
    rw [List.length_reverse]
    omega
  rw [decode, List.reverse_drop, hlast, decodeReversed_take, decode]

/-! ### Sizes that are read on into what stands in front -/

/-- A value that is too large for some flagged groups was read through them. -/
theorem decodeReversed_eq_some_of_le {fuel value : Nat} {groups rest : Bytes}
    (h : decodeReversed fuel (groups ++ rest) = some value)
    (hle : 2 ^ (7 * groups.length) ≤ value) :
    groups = (flagged groups.length value).reverse ∧
      decodeReversed (fuel - groups.length) rest = some (value / 2 ^ (7 * groups.length)) := by
  induction groups generalizing fuel value with
  | nil => simpa [flagged] using h
  | cons b groups ih =>
      have hwide : 2 ^ (7 * (groups.length + 1)) = 2 ^ (7 * groups.length) * 128 := by
        rw [Nat.mul_succ, Nat.pow_add]
      rw [List.length_cons, hwide] at hle
      cases fuel with
      | zero => cases h
      | succ fuel =>
          have hone : 0 < 2 ^ (7 * groups.length) := Nat.two_pow_pos _
          rw [List.cons_append, decodeReversed] at h
          split at h
          · -- a byte without a flag would end the reading, and the value would be too small
            rename_i hlast
            have hsmall : b.toNat < 128 := UInt8.lt_iff_toNat_lt.mp hlast
            obtain rfl := Option.some.inj h
            omega
          · rename_i hflag
            have hbyte : 128 ≤ b.toNat := Nat.le_of_not_lt fun hlt =>
              hflag (UInt8.lt_iff_toNat_lt.mpr hlt)
            have hmax := b.toNat_lt
            obtain ⟨high, hhigh, hvalue⟩ := Option.map_eq_some_iff.mp h
            have hdiv : value / 128 = high := by omega
            have hgroup : UInt8.ofNat (128 + value % 128) = b := by
              apply UInt8.toNat_inj.mp
              rw [UInt8.toNat_ofNat']
              omega
            obtain ⟨hgroups, hrest⟩ := ih hhigh (by omega)
            refine ⟨?_, ?_⟩
            · rw [List.length_cons, flagged_succ, List.reverse_append, hgroup, hdiv, ← hgroups]
              rfl
            · rw [List.length_cons, Nat.add_sub_add_right, hrest, hwide,
                Nat.mul_comm _ 128, ← Nat.div_div_eq_div_mul, hdiv]

/-- Bytes that end with a zero which is written in at most `limit` bytes. -/
def EndsWithZero (limit : Nat) (bytes : Bytes) : Prop :=
  ∃ flags < limit, 0 :: List.replicate flags 128 <:+ bytes

/-- **A zero is read** exactly from a zero behind flagged zeros, as many as the limit allows. -/
theorem decodeReversed_eq_zero_iff {limit : Nat} {bytes : Bytes} :
    decodeReversed limit bytes = some 0 ↔
      ∃ flags < limit, List.replicate flags 128 ++ [0] <+: bytes := by
  induction limit generalizing bytes with
  | zero => simp [decodeReversed]
  | succ limit ih =>
      cases bytes with
      | nil => simp [decodeReversed]
      | cons b bytes =>
          have hcons : (∃ flags < limit + 1, List.replicate flags 128 ++ [0] <+: b :: bytes) ↔
              b = 0 ∨ b = 128 ∧ decodeReversed limit bytes = some 0 := by
            rw [Nat.exists_lt_succ_left, ih]
            simp only [List.replicate_succ, List.cons_append, List.cons_prefix_cons]
            grind
          rw [hcons, decodeReversed]
          split
          · rename_i hlast
            have hbyte : b.toNat < 128 := UInt8.lt_iff_toNat_lt.mp hlast
            rw [Option.some.injEq, ← UInt8.toNat_inj, ← UInt8.toNat_inj, UInt8.toNat_zero]
            exact ⟨.inl, fun h => h.resolve_right fun hflag => absurd hflag.1 (Nat.ne_of_lt hbyte)⟩
          · rename_i hflag
            have hbyte : 128 ≤ b.toNat := Nat.le_of_not_lt fun hlt =>
              hflag (UInt8.lt_iff_toNat_lt.mpr hlt)
            rw [Option.map_eq_some_iff, ← UInt8.toNat_inj, ← UInt8.toNat_inj, UInt8.toNat_zero]
            constructor
            · -- a flagged byte adds its seven digits, so both they and what is read on are zero
              rintro ⟨high, hhigh, hzero⟩
              obtain rfl : high = 0 := by omega
              exact .inr ⟨show b.toNat = 128 by omega, hhigh⟩
            · rintro (hzero | ⟨hlead, hrest⟩)
              · omega
              · exact ⟨0, hrest, by rw [hlead]; rfl⟩

/-- Bytes end with a zero exactly if it is read from their end. -/
theorem endsWithZero_iff {limit : Nat} {bytes : Bytes} :
    EndsWithZero limit bytes ↔ decodeReversed limit bytes.reverse = some 0 := by
  rw [decodeReversed_eq_zero_iff]
  apply exists_congr
  intro flags
  rw [← List.reverse_prefix, List.reverse_cons, List.reverse_replicate]

/-- What stands in front does not change how bytes end. -/
theorem EndsWithZero.append_left {limit : Nat} {bytes : Bytes} (h : EndsWithZero limit bytes)
    (before : Bytes) : EndsWithZero limit (before ++ bytes) := by
  obtain ⟨flags, hflags, hsuffix⟩ := h
  exact ⟨flags, hflags, hsuffix.trans (List.suffix_append before bytes)⟩

/-- A zero at the end of bytes ends in the last of them, unless these are only flags. -/
theorem EndsWithZero.of_append {limit : Nat} {before bytes : Bytes}
    (h : EndsWithZero limit (before ++ bytes)) :
    EndsWithZero limit bytes ∨
      bytes = List.replicate bytes.length 128 ∧ EndsWithZero limit before := by
  obtain ⟨flags, hflags, hsuffix⟩ := h
  rcases List.suffix_or_suffix_of_suffix hsuffix (List.suffix_append before bytes) with
    hshort | hlong
  · exact .inl ⟨flags, hflags, hshort⟩
  · rcases List.suffix_cons_iff.mp hlong with rfl | hflagged
    · exact .inl ⟨flags, hflags, List.suffix_refl _⟩
    · obtain ⟨hlength, hbytes⟩ := List.suffix_replicate_iff.mp hflagged
      refine .inr ⟨hbytes, flags - bytes.length, by omega, ?_⟩
      have hsplit : (0 : UInt8) :: List.replicate flags 128 =
          (0 :: List.replicate (flags - bytes.length) 128) ++ List.replicate bytes.length 128 := by
        rw [List.cons_append, List.replicate_append_replicate, Nat.sub_add_cancel hlength]
      rw [hsplit, ← hbytes] at hsuffix
      exact List.suffix_append_self_iff.mp hsuffix

/-- A zero at the end is read as the length. -/
theorem EndsWithZero.decode_eq {limit : Nat} {bytes : Bytes} (h : EndsWithZero limit bytes)
    (hle : limit ≤ maxWidth) : decode bytes = some 0 := by
  obtain ⟨flags, hflags, hsuffix⟩ := h
  exact endsWithZero_iff.mp ⟨flags, Nat.lt_of_lt_of_le hflags hle, hsuffix⟩

/-- A size has a bit in the first of its groups. -/
theorem le_of_width {size following : Nat} (hpos : 0 < size) (h : width size = following + 1) :
    2 ^ (7 * following) ≤ size := by
  unfold width maxWidth at h
  repeat' split at h
  all_goals
    obtain rfl := Nat.succ.inj h
    omega

/-- Both ways to write a size that is read back: without a flag on its first byte,
or with one, where a zero stands in front. -/
theorem decode_append_iff {size : Nat} {written : Bytes} (before : Bytes) (hpos : 0 < size)
    (hlt : size < 2 ^ 35) (hlength : written.length = width size) :
    decode (before ++ written) = some size ↔
      written = encode size ∨
        written = flagged (width size) size ∧ EndsWithZero (maxWidth - width size) before := by
  obtain ⟨following, hfollowing⟩ : ∃ following, width size = following + 1 :=
    ⟨width size - 1, by have := width_pos size; omega⟩
  constructor
  · intro h
    obtain ⟨lead, groups, rfl⟩ := List.exists_cons_of_length_pos (hlength ▸ width_pos size)
    obtain rfl : groups.length = following := Nat.succ.inj (hlength.trans hfollowing)
    have hlarge := le_of_width hpos hfollowing
    have hsize := lt_width hlt
    rw [hfollowing, Nat.mul_succ, Nat.pow_add] at hsize
    have htop : size / 2 ^ (7 * groups.length) < 128 := Nat.div_lt_of_lt_mul hsize
    rw [decode, List.reverse_append, List.reverse_cons, List.append_assoc,
      List.singleton_append] at h
    obtain ⟨hgroups, hlead⟩ := decodeReversed_eq_some_of_le h (by rwa [List.length_reverse])
    rw [List.length_reverse] at hgroups hlead
    rw [List.reverse_inj] at hgroups
    obtain ⟨spare, hspare⟩ : ∃ spare, maxWidth - groups.length = spare + 1 :=
      ⟨maxWidth - width size, by have := width_le size; omega⟩
    -- all groups but the leading one are those of the size; a lead without a flag ends the reading
    rw [hspare, decodeReversed] at hlead
    split at hlead
    · have hbyte : lead = UInt8.ofNat (size / 2 ^ (7 * groups.length)) := by
        rw [← Option.some.inj hlead, UInt8.ofNat_toNat]
      left
      rw [encode, hfollowing, Nat.add_sub_cancel, Nat.mod_eq_of_lt htop, ← hbyte, ← hgroups]
    · -- a lead with a flag is read on, and what stands in front must add nothing
      rename_i hflag
      obtain ⟨high, hhigh, hvalue⟩ := Option.map_eq_some_iff.mp hlead
      have hmin : 128 ≤ lead.toNat := Nat.le_of_not_lt fun hlow =>
        hflag (UInt8.lt_iff_toNat_lt.mpr hlow)
      have hspare' : maxWidth - width size = spare := by omega
      obtain rfl : high = 0 := by omega
      have hbyte : lead = UInt8.ofNat (128 + size / 2 ^ (7 * groups.length)) := by
        rw [show 128 + size / 2 ^ (7 * groups.length) = lead.toNat by omega, UInt8.ofNat_toNat]
      right
      refine ⟨?_, ?_⟩
      · rw [hfollowing, flagged, Nat.mod_eq_of_lt htop, ← hbyte, ← hgroups]
      · rw [endsWithZero_iff, hspare']
        exact hhigh
  · rintro (rfl | ⟨rfl, hzero⟩)
    · exact decode_append_encode hlt before
    · obtain ⟨spare, hspare⟩ : ∃ spare, maxWidth = width size + spare :=
        ⟨maxWidth - width size, by have := width_le size; omega⟩
      rw [endsWithZero_iff, hspare, Nat.add_sub_cancel_left] at hzero
      rw [decode, List.reverse_append, hspare, decodeReversed_flagged, hzero, Option.map_some,
        Nat.mul_zero, Nat.zero_add, Nat.mod_eq_of_lt (lt_width hlt)]

end CompactStore.Backlen
