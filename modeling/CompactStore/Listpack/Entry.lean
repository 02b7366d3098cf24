import CompactStore.Bytes
import CompactStore.Decimal.Integer

/-!
# Entries of a listpack

A value enters a listpack as an `Entry`: as an integer if its bytes are the
canonical decimal text of a 64-bit integer, and as a string of bytes otherwise,
so `Entry.text` gives the bytes of the value back.  The body of an entry
is a tag, which tells the kind and the length, and the payload:

    0xxxxxxx                    an integer from 0 to 127
    10xxxxxx                    a string of fewer than 64 bytes
    1110xxxx xxxxxxxx           a string of fewer than 4096 bytes
    F1, F3, F4                  an integer of 2, 4 or 8 bytes
    F0 and a length of 4 bytes  a longer string

The shortest form is always taken.  `bodySize?` learns the size of a body from
its first bytes alone, so a reader can step over an entry, and `ofBody?` reads a
whole body.

After the body stands its size, written so that it can be read from its end:
groups of seven bits, the most significant first, where every byte but the first
carries a flag in its high bit.  Walking back from the end of the entry, the first
byte without a flag is the last one to read.  Five bytes are the limit of such a
`Backlen`, so sizes below `2 ^ 35` can be read back.
-/

namespace CompactStore

namespace Backlen

/-- The largest number of bytes of a trailing length. -/
def maxWidth : Nat := 5

/-- The number of bytes that a size takes: one for each started seven bits. -/
def width (size : Nat) : Nat :=
  if size < 2 ^ (7 : Nat) then 1
  else if size < 2 ^ (14 : Nat) then 2
  else if size < 2 ^ (21 : Nat) then 3
  else if size < 2 ^ (28 : Nat) then 4
  else maxWidth

/-- The low `count` groups of seven bits, the most significant first, with the
flag set in each byte. -/
def flagged : Nat → Nat → Bytes
  | 0, _ => []
  | count + 1, size => UInt8.ofNat (128 + size / 2 ^ (7 * count) % 128) :: flagged count size

/-- Writes a size: the leading group without the flag, the others with it. -/
def encode (size : Nat) : Bytes :=
  let following := width size - 1
  UInt8.ofNat (size / 2 ^ (7 * following) % 128) :: flagged following size

/-- Reads at most `fuel` bytes of a reversed byte string, up to the first one
without a flag. -/
def decodeReversed : Nat → Bytes → Option Nat
  | 0, _ => none
  | _, [] => none
  | fuel + 1, b :: rest =>
    if b < 128 then some b.toNat
    else (decodeReversed fuel rest).map fun high => 128 * high + (b.toNat - 128)

/-- Reads the size that ends at the last of these bytes; `none` when none of the
last five bytes is without a flag. -/
def decode (bytes : Bytes) : Option Nat :=
  decodeReversed maxWidth bytes.reverse

@[simp] theorem length_flagged (count size : Nat) : (flagged count size).length = count := by
  induction count with
  | zero => rfl
  | succ count ih => simp [flagged, ih]

/-- Between one and five bytes. -/
theorem width_pos (size : Nat) : 0 < width size := by
  unfold width maxWidth
  split <;> (try split) <;> (try split) <;> (try split) <;> decide

/-- A size is written in as many bytes as its width says. -/
@[simp] theorem length_encode (size : Nat) : (encode size).length = width size := by
  have := width_pos size
  simp only [encode, List.length_cons, length_flagged]
  omega

end Backlen

/-! ### Entries -/

/-- A value as a listpack stores it. -/
inductive Entry where
  | int (n : Int)
  | str (bytes : Bytes)
deriving DecidableEq, Repr

namespace Entry

/-- How a value is stored: the canonical text of an integer as the integer. -/
def ofBytes (value : Bytes) : Entry :=
  match Decimal.canonical? (Bytes.chars value) with
  | some n => .int n
  | none => .str value

/-- The value itself, as it is read back. -/
def text : Entry → Bytes
  | .int n => Bytes.ofAscii (Decimal.render n)
  | .str bytes => bytes

/-- The integer of an entry that is one. -/
def asInt? : Entry → Option Int
  | .int n => some n
  | .str _ => none

/-- The least of 2, 4 and 8 bytes that hold an integer in two's complement. -/
def intWidth (n : Int) : Nat :=
  if -2 ^ (15 : Nat) ≤ n ∧ n < 2 ^ (15 : Nat) then 2
  else if -2 ^ (31 : Nat) ≤ n ∧ n < 2 ^ (31 : Nat) then 4
  else 8

/-- The longest string that a length of four bytes can describe. -/
def maxStringLength : Nat := word32 - 1

/-- The size of the tag and length bytes in front of a string. -/
def stringHead (length : Nat) : Nat :=
  if length < 64 then 1 else if length < 4096 then 2 else 5

/-- The size of the body; `none` for a string that is too long for any tag. -/
def size? : Entry → Option Nat
  | .int n => some (if 0 ≤ n ∧ n < 128 then 1 else 1 + intWidth n)
  | .str bytes =>
    if bytes.length ≤ maxStringLength then some (stringHead bytes.length + bytes.length) else none

/-- The tag of an integer of 2, 4 or 8 bytes. -/
def intTag (width : Nat) : UInt8 :=
  if width = 2 then 0xF1 else if width = 4 then 0xF3 else 0xF4

/-- The tag and payload of an integer. -/
def intBody (n : Int) : Bytes :=
  if 0 ≤ n ∧ n < 128 then [UInt8.ofNat n.toNat]
  else
    let width := intWidth n
    intTag width :: LittleEndian.bytes width (n % 256 ^ width).toNat

/-- The tag and length bytes of a string. -/
def stringTag (length : Nat) : Bytes :=
  if length < 64 then [UInt8.ofNat (0x80 + length)]
  else if length < 4096 then [UInt8.ofNat (0xE0 + length / 256), UInt8.ofNat length]
  else 0xF0 :: LittleEndian.bytes 4 length

/-- The tag and payload of an entry. -/
def body : Entry → Bytes
  | .int n => intBody n
  | .str bytes => stringTag bytes.length ++ bytes

/-- The whole entry: the body and its size. -/
def encode (e : Entry) : Bytes :=
  let body := e.body
  body ++ Backlen.encode body.length

/-- The number of bytes of a value's entry; `none` if the value has none. -/
def encodedSize? (value : Bytes) : Option Nat :=
  (ofBytes value).size?.map fun size => size + Backlen.width size

/-- The number of first bytes that always suffice for `bodySize?`. -/
def headSize : Nat := 5

/-- The size of the body that starts with these bytes; `none` when the tag is
unknown or the length bytes are cut off. -/
def bodySize? : Bytes → Option Nat
  | [] => none
  | tag :: rest =>
    if tag < 0x80 then some 1
    else if tag < 0xC0 then some (1 + (tag.toNat - 0x80))
    else if 0xE0 ≤ tag ∧ tag < 0xF0 then
      match rest with
      | [] => none
      | low :: _ => some (2 + (256 * (tag.toNat - 0xE0) + low.toNat))
    else if tag = 0xF1 then some 3
    else if tag = 0xF3 then some 5
    else if tag = 0xF4 then some 9
    else if tag = 0xF0 ∧ 4 ≤ rest.length then some (5 + LittleEndian.value (rest.take 4))
    else none

/-- The integer that a payload spells in two's complement. -/
def signedValue (payload : Bytes) : Int :=
  (LittleEndian.value payload : Int).bmod (256 ^ payload.length)

/-- The entry of a whole body. -/
def ofBody? : Bytes → Option Entry
  | [] => none
  | tag :: rest =>
    if tag < 0x80 then some (.int tag.toNat)
    else if tag < 0xC0 then some (.str rest)
    else if 0xE0 ≤ tag ∧ tag < 0xF0 then some (.str (rest.drop 1))
    else if tag = 0xF1 ∨ tag = 0xF3 ∨ tag = 0xF4 then some (.int (signedValue rest))
    else if tag = 0xF0 then some (.str (rest.drop 4))
    else none

end Entry

end CompactStore
