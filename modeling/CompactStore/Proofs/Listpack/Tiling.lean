import CompactStore.Proofs.Listpack.Reading

/-!
# Buffers that are tiled by chunks

A chunk is what one entry takes up in a buffer: a block, and behind it as many bytes
as the length of the block takes to write.  In a buffer that chunks tile, every walk
forward goes from the start of a chunk to the start of the next, whatever the bytes
behind the blocks are.  Going back is another matter: a chunk is stepped over only if
these bytes are read as the length of the block, `Chunk.ReadsBack`.
-/

namespace CompactStore.Listpack

open Entry (IsBlock IsBodyOf)

/-- The bytes of one entry: a block, and as many bytes behind it as its length takes
to write. -/
@[ext]
structure Chunk where
  body : Bytes
  tail : Bytes
  isBlock : IsBlock body
  length_tail : tail.length = Backlen.width body.length

namespace Chunk

/-- All bytes of a chunk. -/
def bytes (c : Chunk) : Bytes :=
  c.body ++ c.tail

/-- The entry that is read from a chunk. -/
def entry (c : Chunk) : Entry :=
  (Entry.ofBody? c.body).getD (.str [])

/-- The bytes of chunks, one after the other. -/
def join (cs : List Chunk) : Bytes :=
  cs.flatMap bytes

/-- The position behind chunks that start at the first position. -/
def place (before : List Chunk) : Nat :=
  headerSize + (join before).length

/-- Where the chunks `cs` start behind the chunks `before`. -/
def places (before : List Chunk) : List Chunk → List Nat
  | [] => []
  | c :: cs => place before :: places (before ++ [c]) cs

/-- Behind these bytes, the length of the block is read back from the end of the
chunk. -/
def ReadsBack (before : Bytes) (c : Chunk) : Prop :=
  Backlen.decode (before ++ c.bytes) = some c.body.length

variable {before cs : List Chunk} {c : Chunk}

/-- A block is the body of the entry that is read from its chunk. -/
theorem isBodyOf_entry (c : Chunk) : IsBodyOf c.body c.entry := by
  obtain ⟨e, hsize, hread⟩ := c.isBlock.exists_isBodyOf
  rw [entry, hread]
  exact ⟨hsize, hread⟩

@[simp] theorem join_nil : join [] = [] := rfl

@[simp] theorem join_cons (c : Chunk) (cs : List Chunk) : join (c :: cs) = c.bytes ++ join cs := rfl

@[simp] theorem join_append (cs ds : List Chunk) : join (cs ++ ds) = join cs ++ join ds := by
  simp [join]

/-- A chunk takes up a byte for its block and one for its length at least. -/
theorem two_le_length_bytes (c : Chunk) : 2 ≤ c.bytes.length := by
  have hbody := c.isBlock.length_bounds.1
  have hwidth := Backlen.width_pos c.body.length
  rw [bytes, List.length_append, c.length_tail]
  omega

/-- There are no more chunks than half of their bytes. -/
theorem length_le_length_join (cs : List Chunk) : 2 * cs.length ≤ (join cs).length := by
  induction cs with
  | nil => simp
  | cons c cs ih =>
      have hc := two_le_length_bytes c
      rw [join_cons, List.length_append, List.length_cons]
      omega

/-- The position behind one more chunk is farther by its block and what stands behind it. -/
theorem place_append_singleton (before : List Chunk) (c : Chunk) :
    place (before ++ [c]) = place before + c.body.length + c.tail.length := by
  simp [place, bytes, Nat.add_assoc]

/-- One more chunk starts behind all others. -/
theorem places_append_singleton (before cs : List Chunk) (c : Chunk) :
    places before (cs ++ [c]) = places before cs ++ [place (before ++ cs)] := by
  induction cs generalizing before with
  | nil => simp [places]
  | cons d cs ih => simp [places, ih]

/-- There is a place for each chunk. -/
@[simp] theorem length_places (before cs : List Chunk) : (places before cs).length = cs.length := by
  induction cs generalizing before with
  | nil => rfl
  | cons c cs ih => rw [places, List.length_cons, ih, List.length_cons]

end Chunk

open Chunk

/-- A buffer of a header, chunks and the terminator. -/
structure Tiled (lp : Listpack) (front : Bytes) (cs : List Chunk) : Prop where
  bytes_eq : lp.bytes = front ++ (join cs ++ [terminator])
  length_front : front.length = headerSize

/-- The positions that a way of stepping stops at to read an entry. -/
def stops (lp : Listpack) (step : Nat → Option Nat) : Nat → Option Nat → List Nat
  | 0, _ => []
  | _, none => []
  | fuel + 1, some pos =>
    if (lp.get? pos).isSome then pos :: stops lp step fuel (step pos) else []

/-- The positions of the entries from front to back. -/
def positions (lp : Listpack) : List Nat :=
  lp.stops lp.next? lp.sizeBytes lp.first?

variable {lp : Listpack} {front : Bytes} {before after cs : List Chunk} {c : Chunk}

/-- A walk reads the entries at its stops. -/
theorem walk_eq_stops (lp : Listpack) (step : Nat → Option Nat) (fuel : Nat) (start : Option Nat)
    (seen : List Entry) :
    lp.walk step fuel start seen =
      ((lp.stops step fuel start).filterMap lp.get?).reverse ++ seen := by
  induction fuel generalizing start seen with
  | zero => cases start <;> rfl
  | succ fuel ih =>
      cases start with
      | none => rfl
      | some pos =>
          rw [walk, stops]
          cases hread : lp.get? pos with
          | none => rfl
          | some e =>
              dsimp only
              rw [ih, Option.isSome_some, if_pos rfl, List.filterMap_cons_some hread,
                List.reverse_cons, List.append_assoc, List.singleton_append]

/-- The entries are what is read at the positions. -/
theorem entries_eq_filterMap (lp : Listpack) : lp.entries = lp.positions.filterMap lp.get? := by
  rw [entries, walk_eq_stops, List.append_nil, List.reverse_reverse, positions]

/-- A walk stops only where there is an entry to read. -/
theorem get?_isSome_of_mem_stops {step : Nat → Option Nat} {fuel pos : Nat} {start : Option Nat}
    (h : pos ∈ lp.stops step fuel start) : (lp.get? pos).isSome := by
  induction fuel generalizing start with
  | zero => cases start <;> cases h
  | succ fuel ih =>
      cases start with
      | none => cases h
      | some first =>
          rw [stops] at h
          split at h
          · rename_i hread
            rcases List.mem_cons.mp h with rfl | hrest
            · exact hread
            · exact ih hrest
          · cases h

/-- **An entry is read at each of the positions**, and there are no others. -/
theorem map_get?_positions (lp : Listpack) : lp.positions.map lp.get? = lp.entries.map some := by
  rw [entries_eq_filterMap, List.map_filterMap_some_eq_filter_map_isSome]
  symm
  apply List.filter_eq_self.mpr
  intro read hread
  obtain ⟨pos, hpos, rfl⟩ := List.mem_map.mp hread
  exact get?_isSome_of_mem_stops hpos

/-! ### Forward -/

/-- A tiled buffer may be cut in front of any chunk. -/
theorem Tiled.bytes_split (h : Tiled lp front (before ++ after)) :
    lp.bytes = (front ++ join before) ++ (join after ++ [terminator]) := by
  rw [h.bytes_eq, join_append, List.append_assoc, List.append_assoc]

/-- What stands in front of a chunk is as long as its position says. -/
theorem Tiled.length_split (h : Tiled lp front cs) (before : List Chunk) :
    (front ++ join before).length = place before := by
  rw [List.length_append, h.length_front, place]

/-- Around any of its chunks, a tiled buffer is what stands before, the chunk, and the rest. -/
theorem Tiled.bytes_cons (h : Tiled lp front (before ++ c :: after)) :
    lp.bytes =
      (front ++ join before) ++ (c.body ++ (c.tail ++ (join after ++ [terminator]))) := by
  rw [h.bytes_split, join_cons, Chunk.bytes]
  simp only [List.append_assoc]

/-- The terminator stands behind the last chunk. -/
theorem Tiled.endOffset_eq (h : Tiled lp front cs) : lp.endOffset = place cs := by
  have hbytes : lp.bytes = (front ++ join cs) ++ [terminator] := by
    rw [h.bytes_eq, List.append_assoc]
  have hend := endOffset_of_bytes hbytes (by simp)
  rw [h.length_split] at hend
  exact Nat.succ.inj hend

/-- Where a chunk starts, the size of its block is read. -/
theorem Tiled.bodySizeAt?_place (h : Tiled lp front (before ++ c :: after)) :
    lp.bodySizeAt? (place before) = some c.body.length := by
  rw [← h.length_split, bodySizeAt?_of_bytes h.bytes_cons c.isBlock (by simp)]

/-- **An entry is read where its chunk starts.** -/
theorem Tiled.get?_place (h : Tiled lp front (before ++ c :: after)) :
    lp.get? (place before) = some c.entry := by
  rw [← h.length_split, get?_of_bytes h.bytes_cons c.isBodyOf_entry (by simp)]

/-- The first position is where the first chunk starts. -/
theorem Tiled.first?_eq (h : Tiled lp front cs) : lp.first? = (places [] cs).head? := by
  rw [first?_of_bytes h.bytes_eq h.length_front]
  cases cs with
  | nil => rfl
  | cons c cs =>
      have hfirst : (c.body ++ (c.tail ++ (join cs ++ [terminator]))).take 1 ≠ [terminator] :=
        c.isBlock.take_one_ne _
      have hbytes : join (c :: cs) ++ [terminator] =
          c.body ++ (c.tail ++ (join cs ++ [terminator])) := by
        simp only [join_cons, Chunk.bytes, List.append_assoc]
      rw [hbytes, if_neg hfirst]
      rfl

/-- **A step forward** goes from the start of a chunk to the start of the next. -/
theorem Tiled.next?_place (h : Tiled lp front (before ++ c :: after)) :
    lp.next? (place before) = (places (before ++ [c]) after).head? := by
  rw [← h.length_split, next?_of_bytes h.bytes_cons c.isBlock c.length_tail (by simp)
    (by rw [h.length_split, place]; omega), h.length_split, ← place_append_singleton]
  cases after with
  | nil => rfl
  | cons d after =>
      have hd := two_le_length_bytes d
      rw [if_neg (by simp; omega)]
      rfl

/-- A walk forward stops where the chunks start, by induction on those that are left. -/
theorem Tiled.stops_next? (h : Tiled lp front (before ++ after)) {fuel : Nat}
    (hfuel : after.length ≤ fuel) :
    lp.stops lp.next? fuel (places before after).head? = places before after := by
  induction after generalizing before fuel with
  | nil => cases fuel <;> rfl
  | cons c after ih =>
      obtain ⟨fuel, rfl⟩ : ∃ rest, fuel = rest + 1 := ⟨fuel - 1, by simp at hfuel; omega⟩
      have hrest : Tiled lp front ((before ++ [c]) ++ after) := by
        rwa [List.append_assoc, List.singleton_append]
      rw [places, List.head?_cons, stops, h.get?_place, Option.isSome_some, if_pos rfl,
        h.next?_place, ih hrest (by simpa using hfuel)]

/-- There are no more chunks than bytes. -/
theorem Tiled.length_le_sizeBytes (h : Tiled lp front cs) : cs.length ≤ lp.sizeBytes := by
  have hjoin := length_le_length_join cs
  rw [← length_bytes, h.bytes_eq, List.length_append, List.length_append]
  omega

/-- **The positions are where the chunks start.** -/
theorem Tiled.positions_eq (h : Tiled lp front cs) : lp.positions = places [] cs := by
  rw [positions, h.first?_eq]
  exact h.stops_next? h.length_le_sizeBytes

/-- Where chunks start, their entries are read. -/
theorem Tiled.filterMap_places (h : Tiled lp front (before ++ after)) :
    (places before after).filterMap lp.get? = after.map entry := by
  induction after generalizing before with
  | nil => rfl
  | cons c after ih =>
      have hrest : Tiled lp front ((before ++ [c]) ++ after) := by
        rwa [List.append_assoc, List.singleton_append]
      rw [places, List.filterMap_cons_some h.get?_place, ih hrest, List.map_cons]

/-- **The entries are those of the chunks.** -/
theorem Tiled.entries_eq (h : Tiled lp front cs) : lp.entries = cs.map entry := by
  rw [entries_eq_filterMap, h.positions_eq]
  exact h.filterMap_places

end CompactStore.Listpack
