import CompactStore.Proofs.Listpack.Entry

/-!
# The grammar of bodies

`IsBlock` spells out which byte strings are the body of an entry: a tag, the length
bytes that the tag asks for, and a payload of this length.  It says nothing about
which body a value would get, so a block may be longer than it has to be.

A reader that sees only the first bytes learns the length of a block from them, and
cutting a byte string at the length that was learned gives a block:
`IsBlock.bodySize?_append` and `isBlock_take`.  From every block an entry is read:
`IsBlock.ofBody?_cases`.
-/

namespace CompactStore.Entry

/-- A tag with its length bytes and its payload. -/
inductive IsBlock : Bytes → Prop where
  | small {tag : UInt8} : tag < 0x80 → IsBlock [tag]
  | short {tag : UInt8} {string : Bytes} : 0x80 ≤ tag → tag < 0xC0 →
      string.length = tag.toNat - 0x80 → IsBlock (tag :: string)
  | middle {tag low : UInt8} {string : Bytes} : 0xE0 ≤ tag → tag < 0xF0 →
      string.length = 256 * (tag.toNat - 0xE0) + low.toNat → IsBlock (tag :: low :: string)
  | int16 {payload : Bytes} : payload.length = 2 → IsBlock (0xF1 :: payload)
  | int32 {payload : Bytes} : payload.length = 4 → IsBlock (0xF3 :: payload)
  | int64 {payload : Bytes} : payload.length = 8 → IsBlock (0xF4 :: payload)
  | long {string : Bytes} : string.length < word32 →
      IsBlock (0xF0 :: (LittleEndian.bytes 4 string.length ++ string))

variable {body : Bytes}

/-- **The length of a block is told by its first bytes**, whatever follows it. -/
theorem IsBlock.bodySize?_append (h : IsBlock body) (rest : Bytes) :
    bodySize? (body ++ rest) = some body.length := by
  cases h with
  | small htag => simp [bodySize?, htag]
  | @short tag string hlow hhigh hlength =>
      have hlarge : ¬tag < 0x80 := UInt8.not_lt.mpr hlow
      simp [bodySize?, hlarge, hhigh, hlength, Nat.add_comm]
  | @middle tag low string hlow hhigh hlength =>
      have hlarge : ¬tag < 0x80 := UInt8.not_lt.mpr (UInt8.le_trans (by decide) hlow)
      have hlong : ¬tag < 0xC0 := UInt8.not_lt.mpr (UInt8.le_trans (by decide) hlow)
      simp [bodySize?, hlarge, hlong, hlow, hhigh, hlength]
      omega
  | int16 hlength => simp [bodySize?, hlength]
  | int32 hlength => simp [bodySize?, hlength]
  | int64 hlength => simp [bodySize?, hlength]
  | long hlength =>
      unfold word32 at hlength
      simp [bodySize?, LittleEndian.value_bytes]
      omega

/-- A tag, four bytes with the length of a string, and the string. -/
theorem isBlock_take_long {bytes : Bytes}
    (hle : 5 + LittleEndian.value (bytes.take 4) ≤ bytes.length + 1) :
    IsBlock ((0xF0 :: bytes).take (5 + LittleEndian.value (bytes.take 4))) := by
  have hfour : (bytes.take 4).length = 4 := by
    rw [List.length_take]
    omega
  have hvalue := LittleEndian.value_lt (bytes.take 4)
  have hbytes := LittleEndian.bytes_value (bytes.take 4)
  rw [hfour] at hvalue hbytes
  generalize LittleEndian.value (bytes.take 4) = length at hle hvalue hbytes ⊢
  have hstring : ((bytes.drop 4).take length).length = length := by
    rw [List.length_take, List.length_drop]
    omega
  have hcut : (0xF0 :: bytes).take (5 + length) =
      0xF0 :: (LittleEndian.bytes 4 ((bytes.drop 4).take length).length
        ++ (bytes.drop 4).take length) := by
    rw [hstring, hbytes, ← List.take_add, Nat.add_comm 5, List.take_succ_cons,
      Nat.add_comm 4]
  rw [hcut]
  exact .long (by rw [hstring]; exact hvalue)

/-- **Cutting where the first bytes say** gives a block. -/
theorem isBlock_take {bytes : Bytes} {size : Nat} (h : bodySize? bytes = some size)
    (hle : size ≤ bytes.length) : IsBlock (bytes.take size) := by
  cases bytes with
  | nil => cases h
  | cons tag bytes =>
      unfold bodySize? at h
      dsimp only at h
      split at h
      · rename_i hsmall
        obtain rfl := Option.some.inj h
        exact .small hsmall
      rename_i hlarge
      split at h
      · rename_i hshort
        obtain rfl := Option.some.inj h
        rw [Nat.add_comm, List.take_succ_cons]
        refine .short (UInt8.not_lt.mp hlarge) hshort ?_
        rw [List.length_take]
        rw [List.length_cons] at hle
        omega
      split at h
      · rename_i hmiddle
        cases bytes with
        | nil => cases h
        | cons low bytes =>
            obtain rfl := Option.some.inj h
            rw [Nat.add_comm, List.take_succ_cons, List.take_succ_cons]
            refine .middle hmiddle.1 hmiddle.2 ?_
            rw [List.length_take]
            simp only [List.length_cons] at hle
            omega
      rw [List.length_cons] at hle
      split at h
      · rename_i htag
        obtain rfl := Option.some.inj h
        rw [htag, List.take_succ_cons]
        exact .int16 (by rw [List.length_take]; omega)
      split at h
      · rename_i htag
        obtain rfl := Option.some.inj h
        rw [htag, List.take_succ_cons]
        exact .int32 (by rw [List.length_take]; omega)
      split at h
      · rename_i htag
        obtain rfl := Option.some.inj h
        rw [htag, List.take_succ_cons]
        exact .int64 (by rw [List.length_take]; omega)
      split at h
      · rename_i hlong
        obtain ⟨rfl, -⟩ := hlong
        obtain rfl := Option.some.inj h
        exact isBlock_take_long hle
      · cases h

/-- **A block** is a byte string whose first bytes tell its size. -/
theorem isBlock_iff : IsBlock body ↔ bodySize? body = some body.length := by
  constructor
  · intro h
    have hsize := h.bodySize?_append []
    rwa [List.append_nil] at hsize
  · intro h
    have hblock := isBlock_take h (Nat.le_refl _)
    rwa [List.take_length] at hblock

/-- **What is read from a block**: a small number, an integer in two's complement, or
a string, which has a head of the usual size at least. -/
theorem IsBlock.ofBody?_cases (h : IsBlock body) :
    (∃ n : Nat, n < 128 ∧ ofBody? body = some (.int n) ∧ body.length = 1) ∨
    (∃ payload : Bytes, (payload.length = 2 ∨ payload.length = 4 ∨ payload.length = 8) ∧
      ofBody? body = some (.int (signedValue payload)) ∧ body.length = 1 + payload.length) ∨
    (∃ string : Bytes, ofBody? body = some (.str string) ∧
      stringHead string.length + string.length ≤ body.length) := by
  cases h with
  | @small tag htag => exact .inl ⟨tag.toNat, UInt8.lt_iff_toNat_lt.mp htag, if_pos htag, rfl⟩
  | @short tag string hlow hhigh hlength =>
      have hlarge : ¬tag < 0x80 := UInt8.not_lt.mpr hlow
      have htag : tag.toNat < 192 := UInt8.lt_iff_toNat_lt.mp hhigh
      refine .inr (.inr ⟨string, by simp [ofBody?, hlarge, hhigh], ?_⟩)
      have hhead : stringHead string.length = 1 := if_pos (by omega)
      rw [hhead, List.length_cons]
      omega
  | @middle tag low string hlow hhigh hlength =>
      have hlarge : ¬tag < 0x80 := UInt8.not_lt.mpr (UInt8.le_trans (by decide) hlow)
      have hlong : ¬tag < 0xC0 := UInt8.not_lt.mpr (UInt8.le_trans (by decide) hlow)
      have htag : tag.toNat < 240 := UInt8.lt_iff_toNat_lt.mp hhigh
      have hbyte := low.toNat_lt
      have hhead : stringHead string.length ≤ 2 := by
        unfold stringHead
        split
        · decide
        · exact Nat.le_of_eq (if_pos (by omega))
      refine .inr (.inr ⟨string, by simp [ofBody?, hlarge, hlong, hlow, hhigh], ?_⟩)
      simp only [List.length_cons]
      omega
  | int16 hlength => exact .inr (.inl ⟨_, .inl hlength, rfl, Nat.add_comm _ _⟩)
  | int32 hlength => exact .inr (.inl ⟨_, .inr (.inl hlength), rfl, Nat.add_comm _ _⟩)
  | int64 hlength => exact .inr (.inl ⟨_, .inr (.inr hlength), rfl, Nat.add_comm _ _⟩)
  | @long string hlength =>
      have hhead := stringHead_le string.length
      refine .inr (.inr ⟨string, by simp [ofBody?], ?_⟩)
      simp only [List.length_cons, List.length_append, LittleEndian.length_bytes]
      omega

/-- An entry is read from every block. -/
theorem IsBlock.exists_isBodyOf (h : IsBlock body) : ∃ e, IsBodyOf body e := by
  have hsize := isBlock_iff.mp h
  rcases h.ofBody?_cases with ⟨n, -, hread, -⟩ | ⟨payload, -, hread, -⟩ | ⟨string, hread, -⟩ <;>
    exact ⟨_, hsize, hread⟩

/-- The length of a block can be written behind it. -/
theorem IsBlock.length_bounds (h : IsBlock body) : 0 < body.length ∧ body.length < 2 ^ 35 := by
  cases h with
  | small => simp
  | @short tag _ _ _ hlength =>
      have htag := tag.toNat_lt
      simp [hlength]
      omega
  | @middle tag low _ _ _ hlength =>
      have htag := tag.toNat_lt
      have hlow := low.toNat_lt
      simp [hlength]
      omega
  | int16 hlength => simp [hlength]
  | int32 hlength => simp [hlength]
  | int64 hlength => simp [hlength]
  | long hlength =>
      unfold word32 at hlength
      simp
      omega

/-- The terminator starts no block. -/
theorem IsBlock.take_one_ne (h : IsBlock body) (rest : Bytes) :
    (body ++ rest).take 1 ≠ [0xFF] := by
  intro hfirst
  have hsize := h.bodySize?_append rest
  cases hbytes : body ++ rest with
  | nil =>
      rw [hbytes] at hfirst
      cases hfirst
  | cons tag tail =>
      rw [hbytes] at hfirst hsize
      obtain rfl : tag = 0xFF := by simpa using hfirst
      simp [bodySize?] at hsize

/-- The body of an entry that can be written is a block. -/
theorem Encodable.isBlock {e : Entry} (h : e.Encodable) : IsBlock e.body :=
  isBlock_iff.mpr h.isBodyOf.1

end CompactStore.Entry
