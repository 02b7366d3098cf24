import CompactStore.Listpack.Edit
import CompactStore.Proofs.Listpack.Tiling

/-!
# Which byte strings load

`IsListpack` is the format: a header that states the length and the number of
entries, blocks that are each followed by their written length, and a terminator.
Every such byte string loads.

Others load, too.  The length behind a block is only compared with the number that
is read there, and reading goes on in front of the written length as long as it
meets flags.  So a length whose first byte has a flag is taken, although no length
is written like that, as soon as a zero stands in front of it: a block that ends
with a zero byte is enough.  `loads_iff` says what loads, and that apart from such
flags it is the format.
-/

namespace CompactStore.Listpack

open Entry (IsBlock)
open Chunk

/-- **The format.**  A byte string that holds `k` entries: their blocks, each with
its length behind it, under a header that states `k` or leaves it open. -/
def IsListpack (b : Bytes) (k : Nat) : Prop :=
  ∃ (n : Nat) (blocks : List Bytes),
    b.length < word32 ∧ n < 2 ^ 16 ∧ (n = k ∨ n = 65535) ∧
    blocks.length = k ∧ (∀ block ∈ blocks, IsBlock block) ∧
    b = LittleEndian.bytes 4 b.length ++ LittleEndian.bytes 2 n
      ++ blocks.flatMap (fun block => block ++ Backlen.encode block.length) ++ [0xFF]

/-- A byte string of a header, chunks and the terminator: the format, but for what
stands behind the blocks. -/
def Framed (b : Bytes) (cs : List Chunk) : Prop :=
  ∃ n, b.length < word32 ∧ n < 2 ^ 16 ∧ (n = cs.length ∨ n = 65535) ∧
    b = LittleEndian.bytes 4 b.length ++ LittleEndian.bytes 2 n ++ (join cs ++ [terminator])

/-- Every chunk has its length read back behind what stands in front of it. -/
def ReadBack (front : Bytes) (cs : List Chunk) : Prop :=
  ∀ before c after, cs = before ++ c :: after → c.ReadsBack (front ++ join before)

/-- The loader does on a byte string what the format says. -/
def LoadsExactly (b : Bytes) : Prop :=
  ∀ k, (∃ lp, ofBytes? b = some lp ∧ lp.len = k) ↔ IsListpack b k

namespace Chunk

/-- The length of the block is written behind it. -/
def IsWritten (c : Chunk) : Prop :=
  c.tail = Backlen.encode c.body.length

/-- The length of the block stands behind it with a flag on its first byte. -/
def IsFlagged (c : Chunk) : Prop :=
  c.tail = Backlen.flagged (Backlen.width c.body.length) c.body.length

variable {before : Bytes} {c : Chunk} {cs ds : List Chunk}

/-- What is read behind a block is its length if it was written there, or if it
stands there with a flag and a zero is read in front of it. -/
theorem readsBack_iff :
    c.ReadsBack before ↔ c.IsWritten ∨
      c.IsFlagged ∧
        Backlen.EndsWithZero (Backlen.maxWidth - Backlen.width c.body.length)
          (before ++ c.body) := by
  rw [ReadsBack, Chunk.bytes, ← List.append_assoc]
  exact Backlen.decode_append_iff _ c.isBlock.length_bounds.1 c.isBlock.length_bounds.2
    c.length_tail

/-- A length that was written is read back, whatever stands in front. -/
theorem IsWritten.readsBack (h : c.IsWritten) (before : Bytes) : c.ReadsBack before :=
  readsBack_iff.mpr (.inl h)

/-- No length is written with a flag on its first byte. -/
theorem IsWritten.not_isFlagged (h : c.IsWritten) : ¬c.IsFlagged := by
  intro hflag
  obtain ⟨following, hfollowing⟩ : ∃ following, Backlen.width c.body.length = following + 1 :=
    ⟨Backlen.width c.body.length - 1, by have := Backlen.width_pos c.body.length; omega⟩
  rw [IsWritten, Backlen.encode] at h
  rw [IsFlagged, h, hfollowing, Backlen.flagged] at hflag
  have hbyte := congrArg UInt8.toNat (List.cons.inj hflag).1
  rw [UInt8.toNat_ofNat', UInt8.toNat_ofNat'] at hbyte
  omega

/-- **Chunks are told apart by their bytes**: the first bytes of a block tell where
it ends. -/
theorem join_injective (h : join cs ++ [terminator] = join ds ++ [terminator]) : cs = ds := by
  induction cs generalizing ds with
  | nil =>
      cases ds with
      | nil => rfl
      | cons d ds =>
          have hd := two_le_length_bytes d
          have hlength := congrArg List.length h
          simp only [join_nil, join_cons, List.length_append, List.length_nil,
            List.length_singleton] at hlength
          omega
  | cons c cs ih =>
      cases ds with
      | nil =>
          have hc := two_le_length_bytes c
          have hlength := congrArg List.length h
          simp only [join_nil, join_cons, List.length_append, List.length_nil,
            List.length_singleton] at hlength
          omega
      | cons d ds =>
          simp only [join_cons, Chunk.bytes, List.append_assoc] at h
          -- the first bytes tell the size of the block, and with it where the chunk ends
          have hsize := congrArg Entry.bodySize? h
          rw [c.isBlock.bodySize?_append, d.isBlock.bodySize?_append] at hsize
          obtain ⟨hbody, hbehind⟩ := List.append_inj h (Option.some.inj hsize)
          obtain ⟨htail, hothers⟩ := List.append_inj hbehind
            (by rw [c.length_tail, d.length_tail, hbody])
          rw [Chunk.ext hbody htail, ih hothers]

/-- Blocks with their lengths written behind them are chunks. -/
theorem exists_join_of_isBlock {blocks : List Bytes} (h : ∀ block ∈ blocks, IsBlock block) :
    ∃ cs : List Chunk, cs.map body = blocks ∧ ∀ c ∈ cs, c.IsWritten := by
  induction blocks with
  | nil => exact ⟨[], rfl, by simp⟩
  | cons block blocks ih =>
      obtain ⟨cs, rfl, hcs⟩ := ih fun b hb => h b (List.mem_cons_of_mem _ hb)
      refine ⟨⟨block, Backlen.encode block.length, h block List.mem_cons_self,
        Backlen.length_encode _⟩ :: cs, rfl, ?_⟩
      intro c hc
      rcases List.mem_cons.mp hc with rfl | hc
      · rfl
      · exact hcs c hc

theorem join_of_isWritten (h : ∀ c ∈ cs, c.IsWritten) :
    join cs = (cs.map body).flatMap fun block => block ++ Backlen.encode block.length := by
  rw [join, List.flatMap_map, List.flatMap_def, List.flatMap_def]
  exact congrArg List.flatten (List.map_congr_left fun c hc => by rw [Chunk.bytes, h c hc])

end Chunk

variable {lp : Listpack} {b front rest : Bytes} {cs : List Chunk} {c : Chunk} {k : Nat}

/-- The format is that the lengths behind the blocks are written there. -/
theorem isListpack_iff :
    IsListpack b k ↔ ∃ cs, Framed b cs ∧ cs.length = k ∧ ∀ c ∈ cs, c.IsWritten := by
  constructor
  · rintro ⟨n, blocks, hsize, hn, hcount, hlength, hblocks, hb⟩
    obtain ⟨cs, rfl, hwritten⟩ := exists_join_of_isBlock hblocks
    rw [List.length_map] at hlength
    refine ⟨cs, ⟨n, hsize, hn, hlength ▸ hcount, ?_⟩, hlength, hwritten⟩
    rwa [join_of_isWritten hwritten, ← List.append_assoc]
  · rintro ⟨cs, ⟨n, hsize, hn, hcount, hb⟩, rfl, hwritten⟩
    refine ⟨n, cs.map body, hsize, hn, hcount, List.length_map _, ?_, ?_⟩
    · intro block hblock
      obtain ⟨c, _, rfl⟩ := List.mem_map.mp hblock
      exact c.isBlock
    · rwa [← List.append_assoc, join_of_isWritten hwritten] at hb

/-- A byte string is framed in one way only. -/
theorem Framed.unique {ds : List Chunk} (hcs : Framed b cs) (hds : Framed b ds) : cs = ds := by
  obtain ⟨n, -, -, -, hn⟩ := hcs
  obtain ⟨m, -, -, -, hm⟩ := hds
  rw [hn] at hm
  exact join_injective (List.append_inj hm (by simp)).2

/-- The first bytes of a framed byte string are the header. -/
theorem Framed.take_append (h : Framed b cs) :
    (b.take headerSize).length = headerSize ∧
      b = b.take headerSize ++ (join cs ++ [terminator]) := by
  obtain ⟨n, -, -, -, hb⟩ := h
  have hfront : b.take headerSize = LittleEndian.bytes 4 b.length ++ LittleEndian.bytes 2 n := by
    conv_lhs => rw [hb]
    exact List.take_left' (by simp [headerSize])
  rw [hfront]
  exact ⟨by simp [headerSize], hb⟩

/-! ### Counting goes over chunks -/

theorem readBack_nil : ReadBack front [] := by
  intro before c after hsplit
  simp at hsplit

/-- Chunks are read back if the first one is, and the others are behind it. -/
theorem readBack_cons :
    ReadBack front (c :: cs) ↔ c.ReadsBack front ∧ ReadBack (front ++ c.bytes) cs := by
  constructor
  · intro h
    refine ⟨by simpa using h [] c cs rfl, ?_⟩
    rintro before d after rfl
    have hd := h (c :: before) d after rfl
    rwa [join_cons, ← List.append_assoc] at hd
  · rintro ⟨hc, hcs⟩ before d after hsplit
    cases before with
    | nil =>
        obtain ⟨rfl, rfl⟩ := List.cons.inj hsplit
        simpa using hc
    | cons e before =>
        obtain ⟨rfl, hrest⟩ := List.cons.inj hsplit
        rw [join_cons, ← List.append_assoc]
        exact hcs before d after hrest

/-- Bytes that begin as a block and have room for its length begin with a chunk. -/
theorem exists_chunk {size : Nat} (hsize : Entry.bodySize? (rest ++ [terminator]) = some size)
    (hroom : size + Backlen.width size ≤ rest.length) :
    ∃ (c : Chunk) (others : Bytes), rest = c.bytes ++ others := by
  have hlength : (rest.take size).length = size := by
    rw [List.length_take]
    omega
  have hblock := Entry.isBlock_take hsize (by rw [List.length_append]; omega)
  rw [List.take_append_of_le_length (by omega)] at hblock
  refine ⟨⟨rest.take size, (rest.drop size).take (Backlen.width size), hblock, ?_⟩,
    (rest.drop size).drop (Backlen.width size), ?_⟩
  · rw [hlength, List.length_take, List.length_drop]
    omega
  · rw [Chunk.bytes, List.append_assoc, List.take_append_drop, List.take_append_drop]

/-- A count goes over a chunk if its length is read back. -/
theorem countFrom?_chunk (hbytes : lp.bytes = front ++ (c.bytes ++ rest ++ [terminator]))
    (fuel count : Nat) :
    lp.countFrom? (fuel + 1) front.length count =
      if Backlen.decode (front ++ c.bytes) = some c.body.length then
        lp.countFrom? fuel (front ++ c.bytes).length (count + 1)
      else none := by
  have hend := endOffset_of_bytes hbytes (by simp)
  have hchunk := two_le_length_bytes c
  have hsplit : lp.bytes = front ++ (c.body ++ (c.tail ++ rest ++ [terminator])) := by
    simpa [Chunk.bytes] using hbytes
  have hstop : after front.length c.body.length = (front ++ c.bytes).length := by
    rw [List.length_append, Chunk.bytes, List.length_append, c.length_tail, after, Nat.add_assoc]
  have hbefore : lp.bytes = (front ++ c.bytes) ++ (rest ++ [terminator]) := by
    simpa using hbytes
  simp only [List.length_append, List.length_singleton] at hend
  have hroom : ¬lp.endOffset < (front ++ c.bytes).length := by
    rw [List.length_append]
    omega
  rw [countFrom?, if_pos (by omega), bodySizeAt?_of_bytes hsplit c.isBlock (by simp)]
  dsimp only
  rw [hstop, sizeBefore?_of_bytes hbefore, List.drop_zero]
  simp only [hroom, false_or, ne_eq, ite_not]

/-- What a count goes over begins with a chunk. -/
theorem exists_chunk_of_countFrom? (hbytes : lp.bytes = front ++ (rest ++ [terminator]))
    {fuel count total : Nat} (h : lp.countFrom? (fuel + 1) front.length count = some total)
    (hrest : rest ≠ []) : ∃ (c : Chunk) (others : Bytes), rest = c.bytes ++ others := by
  have hpos := List.length_pos_iff.mpr hrest
  have hend := endOffset_of_bytes hbytes (by simp)
  rw [List.length_append, List.length_singleton] at hend
  rw [countFrom?, if_pos (by omega)] at h
  cases hsize : lp.bodySizeAt? front.length with
  | none =>
      rw [hsize] at h
      cases h
  | some size =>
      rw [hsize] at h
      dsimp only at h
      split at h
      · cases h
      · rename_i hroom
        rw [not_or, after] at hroom
        exact exists_chunk ((bodySizeAt?_eq_some_iff hbytes).mp hsize).1 (by omega)

/-- A count at the terminator is over. -/
theorem countFrom?_terminator (hbytes : lp.bytes = front ++ [terminator]) (fuel count : Nat) :
    lp.countFrom? fuel front.length count = some count := by
  have hend := endOffset_of_bytes hbytes (by simp)
  rw [List.length_singleton] at hend
  cases fuel <;> rw [countFrom?, if_neg (by omega)]

/-- **Counting succeeds on chunks that are read back**, and only on these. -/
theorem countFrom?_eq_some_iff (hbytes : lp.bytes = front ++ (rest ++ [terminator]))
    {fuel count total : Nat} (hfuel : rest.length ≤ fuel) :
    lp.countFrom? fuel front.length count = some total ↔
      ∃ cs, rest = join cs ∧ ReadBack front cs ∧ total = count + cs.length := by
  constructor
  · intro h
    induction fuel generalizing front rest count with
    | zero =>
        obtain rfl := List.eq_nil_of_length_eq_zero (Nat.le_zero.mp hfuel)
        rw [countFrom?_terminator hbytes] at h
        exact ⟨[], rfl, readBack_nil, (Option.some.inj h).symm⟩
    | succ fuel ih =>
        by_cases hrest : rest = []
        · rw [hrest] at hbytes
          rw [countFrom?_terminator hbytes] at h
          exact ⟨[], hrest, readBack_nil, (Option.some.inj h).symm⟩
        · obtain ⟨c, others, rfl⟩ := exists_chunk_of_countFrom? hbytes h hrest
          have hchunk := two_le_length_bytes c
          rw [countFrom?_chunk hbytes] at h
          split at h
          · rename_i hread
            rw [List.length_append] at hfuel
            obtain ⟨cs, rfl, hcs, rfl⟩ := ih (by simpa using hbytes) (by omega) h
            exact ⟨c :: cs, rfl, readBack_cons.mpr ⟨hread, hcs⟩, by
              rw [List.length_cons, Nat.add_assoc, Nat.add_comm 1]⟩
          · cases h
  · rintro ⟨cs, rfl, hcs, rfl⟩
    -- the fuel is spent on entries, of which there are fewer than bytes
    have hlength := length_le_length_join cs
    replace hfuel : cs.length ≤ fuel := by omega
    clear hlength
    induction cs generalizing front fuel count with
    | nil => exact countFrom?_terminator hbytes fuel count
    | cons c cs ih =>
        obtain ⟨fuel, rfl⟩ : ∃ rest, fuel = rest + 1 := ⟨fuel - 1, by simp at hfuel; omega⟩
        obtain ⟨hread, hrest⟩ := readBack_cons.mp hcs
        have hsize : Backlen.decode (front ++ c.bytes) = some c.body.length := hread
        rw [countFrom?_chunk hbytes, if_pos hsize, ih (by simpa using hbytes) hrest
          (by simpa using hfuel), List.length_cons, Nat.add_assoc, Nat.add_comm 1]

/-! ### Loading -/

/-- The six bytes of a header are told by the two numbers that are read from them. -/
theorem header_iff {total count : Nat} (hfront : front.length = headerSize) :
    (total < word32 ∧ count < 2 ^ 16 ∧
        front = LittleEndian.bytes 4 total ++ LittleEndian.bytes 2 count) ↔
      LittleEndian.value (front.take 4) = total ∧ LittleEndian.value (front.drop 4) = count := by
  constructor
  · rintro ⟨htotal, hcount, rfl⟩
    rw [List.take_left' (LittleEndian.length_bytes _ _),
      List.drop_left' (LittleEndian.length_bytes _ _), LittleEndian.value_bytes,
      LittleEndian.value_bytes]
    exact ⟨Nat.mod_eq_of_lt htotal, Nat.mod_eq_of_lt hcount⟩
  · rintro ⟨rfl, rfl⟩
    have hfour : (front.take 4).length = 4 := by simp [hfront, headerSize]
    have htwo : (front.drop 4).length = 2 := by simp [hfront, headerSize]
    have htotal := LittleEndian.value_lt (front.take 4)
    have hcount := LittleEndian.value_lt (front.drop 4)
    have hfirst := LittleEndian.bytes_value (front.take 4)
    have hsecond := LittleEndian.bytes_value (front.drop 4)
    rw [hfour] at htotal hfirst
    rw [htwo] at hcount hsecond
    exact ⟨htotal, hcount, by rw [hfirst, hsecond, List.take_append_drop]⟩

/-- A frame is a header whose two numbers are read as they should be. -/
theorem framed_iff (hb : b = front ++ (join cs ++ [terminator]))
    (hfront : front.length = headerSize) :
    Framed b cs ↔ LittleEndian.value (b.take 4) = b.length ∧
      (LittleEndian.value ((b.take headerSize).drop 4) = cs.length ∨
        LittleEndian.value ((b.take headerSize).drop 4) = manyEntries) := by
  have htake : b.take headerSize = front := by
    rw [hb]
    exact List.take_left' hfront
  have hfour : b.take 4 = front.take 4 := by
    rw [← htake, List.take_take]
    rfl
  rw [htake, hfour]
  constructor
  · rintro ⟨n, hsize, hn, hcount, hbytes⟩
    have hheader : front = LittleEndian.bytes 4 b.length ++ LittleEndian.bytes 2 n :=
      (List.append_inj (hb.symm.trans hbytes) (by simp [hfront, headerSize])).1
    obtain ⟨htotal, hnumber⟩ := (header_iff hfront).mp ⟨hsize, hn, hheader⟩
    rw [hnumber]
    exact ⟨htotal, hcount⟩
  · rintro ⟨htotal, hnumber⟩
    obtain ⟨hsize, hn, hheader⟩ := (header_iff hfront).mpr ⟨htotal, rfl⟩
    exact ⟨_, hsize, hn, hnumber, by rw [← hheader]; exact hb⟩

/-- The last byte of a string that is longer than a header is a terminator. -/
theorem exists_rest_iff :
    headerSize + 1 ≤ b.length ∧ b.drop (b.length - 1) = [terminator] ↔
      (b.take headerSize).length = headerSize ∧
        ∃ rest, b = b.take headerSize ++ (rest ++ [terminator]) := by
  constructor
  · rintro ⟨hlength, hlast⟩
    refine ⟨by rw [List.length_take]; omega, (b.take (b.length - 1)).drop headerSize, ?_⟩
    have hfront : (b.take (b.length - 1)).take headerSize = b.take headerSize := by
      rw [List.take_take, Nat.min_eq_left (by omega)]
    rw [← hlast, ← List.append_assoc, ← hfront, List.take_append_drop, List.take_append_drop]
  · rintro ⟨hfront, rest, hb⟩
    have hlength := congrArg List.length hb
    simp only [List.length_append, hfront, List.length_singleton] at hlength
    refine ⟨by omega, ?_⟩
    have hsplit : b = (b.take headerSize ++ rest) ++ [terminator] := by
      rw [List.append_assoc]
      exact hb
    rw [hlength]
    conv_lhs => rw [hsplit]
    exact List.drop_left' (by rw [List.length_append, hfront]; omega)

/-- What the loader looks at, one test after the other. -/
theorem ofBytes?_eq_some_iff_checks :
    ofBytes? b = some lp ↔
      (headerSize + 1 ≤ b.length ∧ b.drop (b.length - 1) = [terminator]) ∧
      LittleEndian.value (b.take 4) = b.length ∧
      ∃ count, (Listpack.mk (buffer b) 0).countFrom? b.length headerSize 0 = some count ∧
        (LittleEndian.value ((b.take headerSize).drop 4) = count ∨
          LittleEndian.value ((b.take headerSize).drop 4) = manyEntries) ∧
        lp = { data := buffer b, len := count } := by
  have hsize : (Listpack.mk (buffer b) 0).sizeBytes = b.length := rfl
  have hbytes : (Listpack.mk (buffer b) 0).bytes = b := bytes_buffer b
  have hlast : (Listpack.mk (buffer b) 0).window (b.length - 1) b.length =
      b.drop (b.length - 1) := by
    rw [window_eq, hbytes, List.take_length]
  have htotal : (Listpack.mk (buffer b) 0).headerTotal = LittleEndian.value (b.take 4) := by
    rw [headerTotal, window_eq, hbytes, List.drop_zero]
  have hnumber : (Listpack.mk (buffer b) 0).headerCount =
      LittleEndian.value ((b.take headerSize).drop 4) := by
    rw [headerCount, window_eq, hbytes]
  rw [ofBytes?]
  dsimp only
  rw [endOffset, hsize, hlast, htotal, hnumber]
  -- the checks of the first and last bytes, and then those of the count
  split
  · rename_i hbad
    constructor
    · rintro ⟨⟩
    · rintro ⟨⟨hlength, hlast⟩, htotal, -⟩
      rcases hbad with hshort | hother | hwrong
      · omega
      · exact absurd hlast hother
      · exact absurd htotal hwrong
  · rename_i hgood
    simp only [not_or, Decidable.not_not] at hgood
    obtain ⟨hlength, hlast, htotal⟩ := hgood
    rw [and_iff_right ⟨by omega, hlast⟩, and_iff_right htotal]
    cases (Listpack.mk (buffer b) 0).countFrom? b.length headerSize 0 with
    | none => simp
    | some count =>
        dsimp only
        split
        · rename_i hnumber
          simp [hnumber]
        · rename_i hnumber
          rw [not_and_or, Decidable.not_not, Decidable.not_not] at hnumber
          simp only [Option.some.injEq, exists_eq_left']
          exact ⟨fun h => ⟨hnumber.symm, h.symm⟩, fun h => h.2.symm⟩

/-- **What loads**: a framed byte string whose chunks are all read back. -/
theorem ofBytes?_eq_some_iff :
    ofBytes? b = some lp ↔
      ∃ cs, Framed b cs ∧ ReadBack (b.take headerSize) cs ∧
        lp = { data := buffer b, len := cs.length } := by
  have hbytes : (Listpack.mk (buffer b) 0).bytes = b := bytes_buffer b
  rw [ofBytes?_eq_some_iff_checks, exists_rest_iff]
  constructor
  · rintro ⟨⟨hfront, rest, hb⟩, htotal, count, hcount, hnumber, rfl⟩
    have hrest : rest.length ≤ b.length := by
      have hlength := congrArg List.length hb
      simp only [List.length_append] at hlength
      omega
    rw [← hfront, countFrom?_eq_some_iff (hbytes.trans hb) hrest] at hcount
    obtain ⟨cs, rfl, hread, rfl⟩ := hcount
    rw [Nat.zero_add] at hnumber ⊢
    exact ⟨cs, (framed_iff hb hfront).mpr ⟨htotal, hnumber⟩, hread, rfl⟩
  · rintro ⟨cs, hframed, hread, rfl⟩
    obtain ⟨hfront, hb⟩ := hframed.take_append
    have hrest : (join cs).length ≤ b.length := by
      have hlength := congrArg List.length hb
      simp only [List.length_append] at hlength
      omega
    obtain ⟨htotal, hnumber⟩ := (framed_iff hb hfront).mp hframed
    refine ⟨⟨hfront, join cs, hb⟩, htotal, cs.length, ?_, hnumber, rfl⟩
    rw [← hfront, countFrom?_eq_some_iff (hbytes.trans hb) hrest]
    exact ⟨cs, rfl, hread, (Nat.zero_add _).symm⟩

/-- Chunks with written lengths are all read back. -/
theorem readBack_of_isWritten (h : ∀ c ∈ cs, c.IsWritten) : ReadBack front cs := by
  rintro before c after rfl
  exact (h c (by simp)).readsBack _

/-- **A byte string loads with `k` entries** if it is framed with `k` chunks, and behind
each block stands its length as it is written, or with a flag on its first byte where a
zero is read in front of it.  So the loader is exact on all byte strings but those that
it loads with such a flag. -/
theorem loads_iff (b : Bytes) :
    (∀ k, (∃ lp, ofBytes? b = some lp ∧ lp.len = k) ↔
      ∃ cs, Framed b cs ∧ cs.length = k ∧
        ∀ before c after, cs = before ++ c :: after →
          c.IsWritten ∨ c.IsFlagged ∧
            Backlen.EndsWithZero (Backlen.maxWidth - Backlen.width c.body.length)
              (b.take headerSize ++ join before ++ c.body)) ∧
    (LoadsExactly b ↔
      ∀ cs, Framed b cs → ReadBack (b.take headerSize) cs → ∀ c ∈ cs, ¬c.IsFlagged) := by
  refine ⟨fun k => ?_, ?_, ?_⟩
  · constructor
    · rintro ⟨lp, hload, rfl⟩
      obtain ⟨cs, hframed, hread, rfl⟩ := ofBytes?_eq_some_iff.mp hload
      exact ⟨cs, hframed, rfl, fun before c after hsplit =>
        readsBack_iff.mp (hread before c after hsplit)⟩
    · rintro ⟨cs, hframed, rfl, hread⟩
      have hload := ofBytes?_eq_some_iff.mpr ⟨cs, hframed, fun before c after hsplit =>
        readsBack_iff.mpr (hread before c after hsplit), rfl⟩
      exact ⟨_, hload, rfl⟩
  · intro hexact cs hframed hread c hc hflag
    have hload := ofBytes?_eq_some_iff.mpr ⟨cs, hframed, hread, rfl⟩
    obtain ⟨ds, hds, -, hwritten⟩ := isListpack_iff.mp ((hexact cs.length).mp ⟨_, hload, rfl⟩)
    -- there is one way to cut the buffer, so the flagged length stands among the written ones
    obtain rfl := hframed.unique hds
    exact (hwritten c hc).not_isFlagged hflag
  · intro hnone k
    constructor
    · rintro ⟨lp, hload, rfl⟩
      obtain ⟨cs, hframed, hread, rfl⟩ := ofBytes?_eq_some_iff.mp hload
      refine isListpack_iff.mpr ⟨cs, hframed, rfl, fun c hc => ?_⟩
      obtain ⟨before, after, rfl⟩ := List.append_of_mem hc
      exact (readsBack_iff.mp (hread before c after rfl)).resolve_right fun hflag =>
        hnone _ hframed hread c hc hflag.1
    · intro hb
      obtain ⟨cs, hframed, rfl, hwritten⟩ := isListpack_iff.mp hb
      have hload := ofBytes?_eq_some_iff.mpr
        ⟨cs, hframed, readBack_of_isWritten hwritten, rfl⟩
      exact ⟨_, hload, rfl⟩

/-- One entry, the integer zero, with a flag on the length behind it. -/
theorem not_loadsExactly_flagged_zero :
    ¬LoadsExactly [9, 0, 0, 0, 1, 0, 0x00, 0x81, 0xFF] := by
  intro hexact
  have hload : (ofBytes? [9, 0, 0, 0, 1, 0, 0x00, 0x81, 0xFF]).map Listpack.len = some 1 := by
    decide +kernel
  obtain ⟨lp, hlp, hlen⟩ := Option.map_eq_some_iff.mp hload
  obtain ⟨cs, hframed, -, hwritten⟩ := isListpack_iff.mp ((hexact 1).mp ⟨lp, hlp, hlen⟩)
  have hflagged : Framed [9, 0, 0, 0, 1, 0, 0x00, 0x81, 0xFF]
      [⟨[0x00], [0x81], .small (by decide), rfl⟩] :=
    ⟨1, by decide, by decide, by decide, rfl⟩
  obtain rfl := hframed.unique hflagged
  have htail : ([0x81] : Bytes) = Backlen.encode 1 := hwritten _ List.mem_cons_self
  exact absurd htail (by decide)

end CompactStore.Listpack
