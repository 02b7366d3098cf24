/-!
# Bytes

Keys, items, list values and command words are all plain byte strings.  Most
of them are ASCII text, so there are two crossings between bytes and
characters: `ofAscii` writes a text of this program as bytes, and `chars`
reads each byte as the character with its number, which is the text itself for
ASCII and never a digit, a sign or a letter of a keyword for any other byte.
Readers of numbers and names work on characters and therefore never have to
decode: a byte above 127 cannot be part of what they accept.

Numbers are written into bytes least significant first, `LittleEndian`, and a
text of any characters is read from bytes as UTF-8, `Utf8`.  They have no bounds of
their own; where a machine keeps one in a word, `word32`, `word64` and `signBit` are
the bounds.
-/

-- A power of numbers is the one of the core library, whatever else is imported.
attribute [instance (high)] instPowNat

namespace CompactStore

/-- The numbers of a word of 32 bits are those below this one. -/
def word32 : Nat := 2 ^ (32 : Nat)

/-- The numbers of a word of 64 bits are those below this one. -/
def word64 : Nat := 2 ^ (64 : Nat)

/-- The sign bit of a word of 64 bits: its integers lie between the negative of this number,
which is one of them, and the number itself, which is none. -/
def signBit : Nat := 2 ^ (63 : Nat)

/-- A byte string: a key, an item, a list value or a word of a command. -/
abbrev Bytes := List UInt8

namespace Bytes

/-- The bytes of an ASCII text. -/
def ofAscii (text : List Char) : Bytes :=
  text.map fun c => UInt8.ofNat c.toNat

/-- Each byte as the character with its number. -/
def chars (bytes : Bytes) : List Char :=
  bytes.map fun b => Char.ofNat b.toNat

/-- The upper-case form of an ASCII letter; every other byte stays. -/
def upperByte (b : UInt8) : UInt8 :=
  if 97 ≤ b ∧ b ≤ 122 then b - 32 else b

/-- Upper-cases the ASCII letters and leaves every other byte alone. -/
def upper (bytes : Bytes) : Bytes :=
  bytes.map upperByte

end Bytes

end CompactStore

/-!
### Numbers as bytes, least significant first

Every multi-byte field of this library is little-endian: the header and the
integers of a listpack, the blocks that a hash reads, the packed slots of a
cuckoo bucket.  `bytes n v` writes the low `n` bytes of `v`, and `value` reads
them back; `value_bytes` says that what is read is `v` modulo `256 ^ n`, and
`bytes_value` that no byte string is lost on the way through its number.
-/

namespace CompactStore.LittleEndian

/-- The low `n` bytes of `v`, least significant first. -/
def bytes : Nat → Nat → Bytes
  | 0, _ => []
  | n + 1, v => UInt8.ofNat v :: bytes n (v / 256)

/-- The number that a byte string spells, least significant byte first. -/
def value : Bytes → Nat
  | [] => 0
  | b :: rest => b.toNat + 256 * value rest

@[simp] theorem length_bytes (n v : Nat) : (bytes n v).length = n := by
  induction n generalizing v with
  | zero => rfl
  | succ n ih => simp [bytes, ih]

/-- Reading what was written gives the number modulo the width. -/
theorem value_bytes (n v : Nat) : value (bytes n v) = v % 256 ^ n := by
  induction n generalizing v with
  | zero => simp [bytes, value, Nat.mod_one]
  | succ n ih =>
    have hlow : (UInt8.ofNat v).toNat = v % 256 := UInt8.toNat_ofNat'
    rw [bytes, value, ih, hlow, Nat.pow_succ, Nat.mul_comm (256 ^ n) 256, Nat.mod_mul]

/-- A byte string spells a number below `256` to its length. -/
theorem value_lt (bs : Bytes) : value bs < 256 ^ bs.length := by
  induction bs with
  | nil => simp [value]
  | cons b rest ih =>
    have hb := b.toNat_lt
    simp only [value, List.length_cons, Nat.pow_succ]
    omega

/-- Writing what was read gives the byte string back. -/
theorem bytes_value (bs : Bytes) : bytes bs.length (value bs) = bs := by
  induction bs with
  | nil => rfl
  | cons b rest ih =>
    have hb := b.toNat_lt
    have hdiv : (b.toNat + 256 * value rest) / 256 = value rest := by omega
    have hlow : UInt8.ofNat (b.toNat + 256 * value rest) = b := by
      have h : (UInt8.ofNat (b.toNat + 256 * value rest)).toNat = b.toNat := by
        have := UInt8.toNat_ofNat' (n := b.toNat + 256 * value rest)
        omega
      exact UInt8.toNat_inj.mp h
    simp [bytes, value, hdiv, hlow, ih]

end CompactStore.LittleEndian

/-!
### Text in bytes

Bytes are read as UTF-8 one at a time.  A leading byte tells how many more
follow and which values the first of them may have, so that no character has two
spellings and none is a surrogate.  When a byte does not continue the character
that was begun, what was read of that character counts as one malformed
sequence, and the byte is looked at again as a leading byte.

`decode` keeps the malformed sequences in their places.  `text?` reads valid
text only, `lossyText` shows each malformed sequence as one replacement
character.
-/

namespace CompactStore.Utf8

/-- A character that was begun: its bits so far, the number of bytes still
missing, and the bounds of the next byte. -/
structure Begun where
  bits : Nat
  missing : Nat
  low : UInt8 := 0x80
  high : UInt8 := 0xBF
deriving DecidableEq, Repr

/-- The characters read so far, the last one first, where `none` stands for a
malformed sequence, and the character that was begun. -/
structure Progress where
  done : List (Option Char) := []
  begun : Option Begun := none

/-- Looks at a byte as a leading byte. -/
def lead (done : List (Option Char)) (b : UInt8) : Progress :=
  if b < 0x80 then { done := some (Char.ofNat b.toNat) :: done }
  else if 0xC2 ≤ b ∧ b < 0xE0 then { done, begun := some { bits := b.toNat - 0xC0, missing := 1 } }
  else if 0xE0 ≤ b ∧ b < 0xF0 then
    { done, begun := some {
        bits := b.toNat - 0xE0, missing := 2
        low := if b = 0xE0 then 0xA0 else 0x80
        high := if b = 0xED then 0x9F else 0xBF } }
  else if 0xF0 ≤ b ∧ b < 0xF5 then
    { done, begun := some {
        bits := b.toNat - 0xF0, missing := 3
        low := if b = 0xF0 then 0x90 else 0x80
        high := if b = 0xF4 then 0x8F else 0xBF } }
  else { done := none :: done }

/-- Reads one more byte. -/
def feed (p : Progress) (b : UInt8) : Progress :=
  match p.begun with
  | none => lead p.done b
  | some c =>
    if c.low ≤ b ∧ b ≤ c.high then
      let bits := 64 * c.bits + (b.toNat - 0x80)
      if c.missing = 1 then { done := some (Char.ofNat bits) :: p.done }
      else { done := p.done, begun := some { bits, missing := c.missing - 1 } }
    else lead (none :: p.done) b

/-- The characters of a byte string, with `none` for each malformed sequence; a
character that the end cuts off is one. -/
def decode (bytes : Bytes) : List (Option Char) :=
  let p := bytes.foldl feed {}
  (if p.begun.isSome then none :: p.done else p.done).reverse

/-- The text that a byte string is, if it is valid throughout. -/
def text? (bytes : Bytes) : Option String :=
  let chars := decode bytes
  if chars.all Option.isSome then some (String.ofList (chars.filterMap id)) else none

/-- What stands for a malformed sequence. -/
def replacement : Char := '\uFFFD'

/-- The text of a byte string, with replacements. -/
def lossyText (bytes : Bytes) : String :=
  String.ofList ((decode bytes).map fun c => c.getD replacement)

end CompactStore.Utf8
