import CompactStore.Proofs.Listpack.Blocks

/-!
# The shortest body is taken

A block may be longer than it has to be, so an entry can be read from several.  That
of `Entry.body` is the shortest of them, and of all blocks that spell a value, be it
as an integer or as a string, none is shorter than the one it is stored as.
-/

namespace CompactStore.Entry

/-- An integer in two's complement of `k` bytes has a width of `k` at most. -/
theorem intWidth_signedValue_le {payload : Bytes}
    (h : payload.length = 2 ∨ payload.length = 4 ∨ payload.length = 8) :
    intWidth (signedValue payload) ≤ payload.length := by
  have hpos : 0 < 256 ^ payload.length := Nat.pow_pos (by decide)
  have hlow := Int.le_bmod (x := LittleEndian.value payload) hpos
  have hhigh := Int.bmod_lt (x := LittleEndian.value payload) hpos
  unfold signedValue intWidth
  rcases h with hlen | hlen | hlen <;> rw [hlen] at hlow hhigh ⊢
  · exact Nat.le_of_eq (if_pos (by omega))
  · split
    · decide
    · exact Nat.le_of_eq (if_pos (by omega))
  · repeat' split
    all_goals decide

/-- What a body spells: a small number, an integer in two's complement, or a
string, which has a head of the usual size at least. -/
theorem IsBodyOf.cases {bytes : Bytes} {e : Entry} (h : IsBodyOf bytes e) :
    (∃ n : Nat, n < 128 ∧ e = .int n ∧ bytes.length = 1) ∨
    (∃ payload : Bytes, (payload.length = 2 ∨ payload.length = 4 ∨ payload.length = 8) ∧
      e = .int (signedValue payload) ∧ bytes.length = 1 + payload.length) ∨
    (∃ string : Bytes, e = .str string ∧
      stringHead string.length + string.length ≤ bytes.length) := by
  have hblock := isBlock_iff.mpr h.1
  rcases hblock.ofBody?_cases with
    ⟨n, hn, hread, hlen⟩ | ⟨payload, hpayload, hread, hlen⟩ | ⟨string, hread, hlen⟩
  all_goals obtain rfl := Option.some.inj (h.2.symm.trans hread)
  · exact .inl ⟨n, hn, rfl, hlen⟩
  · exact .inr (.inl ⟨payload, hpayload, rfl, hlen⟩)
  · exact .inr (.inr ⟨string, rfl, hlen⟩)

/-- **The shortest body is taken**: every body from which an entry is read is as
long as its own at least. -/
theorem IsBodyOf.length_body_le {bytes : Bytes} {e : Entry} (h : IsBodyOf bytes e) :
    e.body.length ≤ bytes.length := by
  rcases h.cases with ⟨n, hn, rfl, hlen⟩ | ⟨payload, hpayload, rfl, hlen⟩ | ⟨string, rfl, hlen⟩
  · rw [body, length_intBody, if_pos (by omega)]
    omega
  · have hwidth := intWidth_signedValue_le hpayload
    rw [body, length_intBody]
    split <;> omega
  · rwa [body, List.length_append, length_stringTag]

/-- The value of an integer that is stored as one is its canonical text. -/
theorem ofBytes_text_int {n : Int} (h : Decimal.IsInt64 n) :
    ofBytes (Bytes.ofAscii (Decimal.render n)) = .int n := by
  rw [ofBytes, Bytes.chars_ofAscii fun c hc => Decimal.toNat_lt_of_mem_render hc,
    Decimal.canonical?_render h]

/-- An integer that is read has 64 bits. -/
theorem IsBodyOf.isInt64 {bytes : Bytes} {n : Int} (h : IsBodyOf bytes (.int n)) :
    Decimal.IsInt64 n := by
  unfold Decimal.IsInt64 signBit
  rcases h.cases with ⟨m, hm, hn, -⟩ | ⟨payload, hpayload, hn, -⟩ | ⟨string, hn, -⟩
  · rw [Entry.int.injEq] at hn
    omega
  · have hpos : 0 < 256 ^ payload.length := Nat.pow_pos (by decide)
    have hlow := Int.le_bmod (x := LittleEndian.value payload) hpos
    have hhigh := Int.bmod_lt (x := LittleEndian.value payload) hpos
    rw [Entry.int.injEq] at hn
    rw [hn, signedValue]
    rcases hpayload with hlen | hlen | hlen <;> rw [hlen] at hlow hhigh ⊢ <;> omega
  · cases hn

/-- An integer needs no more bytes than its text does as a string. -/
theorem length_intBody_le (n : Int) :
    (intBody n).length ≤ 1 + (Decimal.render n).length := by
  have hdigits : ∀ m k : Nat, 10 ^ (k + 1) ≤ m → k + 1 < (Nat.toDigits 10 m).length := by
    intro m k hm
    have hiff := @Nat.length_toDigits_le_iff 10 m (k + 1) (by decide) (by omega)
    omega
  rw [length_intBody]
  split
  · omega
  · rename_i hsmall
    cases n with
    | ofNat m =>
        rw [Int.ofNat_eq_natCast] at hsmall
        rw [intWidth, Decimal.render, Int.ofNat_eq_natCast]
        have htwo := hdigits m 0
        have hfour := hdigits m 3
        have height := hdigits m 7
        split
        · omega
        · split <;> omega
    | negSucc m =>
        rw [intWidth, Decimal.render, List.length_cons]
        have hone := @Nat.length_toDigits_pos 10 (m + 1)
        have hfour := hdigits (m + 1) 3
        have height := hdigits (m + 1) 7
        split
        · omega
        · split <;> omega

/-- **No body that spells a value is shorter** than that of its entry, whether it
spells it as an integer or as a string. -/
theorem IsBodyOf.length_body_ofBytes_le {bytes value : Bytes} {e : Entry} (h : IsBodyOf bytes e)
    (htext : e.text = value) : (ofBytes value).body.length ≤ bytes.length := by
  subst htext
  cases e with
  | int n =>
      rw [text, ofBytes_text_int h.isInt64]
      exact h.length_body_le
  | str string =>
      have hstring := h.length_body_le
      have hsame := text_ofBytes string
      rw [text]
      cases hentry : ofBytes string with
      | int n =>
          rw [hentry, text] at hsame
          have hlen : (Decimal.render n).length = string.length := by
            rw [← hsame, Bytes.ofAscii, List.length_map]
          have hint := length_intBody_le n
          have hhead := stringHead_pos string.length
          rw [body, List.length_append, length_stringTag] at hstring
          rw [body]
          omega
      | str other =>
          rw [hentry, text] at hsame
          rwa [hsame]

end CompactStore.Entry
