import CompactStore.Bytes

/-!
# Decimal text of integers

Two grammars of decimal integers live here.

* The **canonical** text of an integer is what `render` writes: no plus sign,
  no leading zero, no minus zero.  `canonical?` reads exactly these texts, for
  the integers of 64 bits, so a value that is read this way can be written back
  byte for byte.
* The **lenient** grammar of command arguments and configuration values allows
  one sign and any number of leading zeros.  `unsigned?` reads the naturals of
  64 bits and `signed?` the integers of 64 bits; everything else, a lone sign and
  an empty text included, is refused.

Both stand on runs of digits.  The number that a run spells is `Nat.ofDigitChars`,
and `numeral` computes the same by halving long runs: it reads the two halves and
joins them with one product, so a run of a million digits costs few operations on
large numbers.  `digits?` asks for at least one digit and nothing else.  `capped?`
reads the same texts, but a number that has reached a limit takes up no further
digits.
-/

namespace CompactStore.Decimal

/-- The number that a run of digits spells, read after halving it `depth` times. -/
def numeralIn : Nat → List Char → Nat
  | 0, digits => Nat.ofDigitChars 10 digits 0
  | depth + 1, digits =>
    let (high, low) := digits.splitAt (digits.length / 2)
    10 ^ low.length * numeralIn depth high + numeralIn depth low

/-- The length of a run that is read digit by digit. -/
def shortRun : Nat := 500

/-- The number that a run of digits spells. -/
def numeral (digits : List Char) : Nat :=
  numeralIn (digits.length / shortRun).log2 digits

/-- Halving a run does not change its number. -/
theorem numeralIn_eq_ofDigitChars (depth : Nat) (digits : List Char) :
    numeralIn depth digits = Nat.ofDigitChars 10 digits 0 := by
  induction depth generalizing digits with
  | zero => rfl
  | succ depth ih =>
    rw [numeralIn, List.splitAt_eq]
    dsimp only
    rw [ih, ih, ← Nat.ofDigitChars_eq_ofDigitChars_zero, ← Nat.ofDigitChars_append,
      List.take_append_drop]

/-- A numeral is read in base ten, its first digit being the highest. -/
theorem numeral_eq_ofDigitChars (digits : List Char) :
    numeral digits = Nat.ofDigitChars 10 digits 0 :=
  numeralIn_eq_ofDigitChars _ digits

/-- Whether a text is digits, at least one, and nothing else. -/
def isNumeral (text : List Char) : Bool :=
  !text.isEmpty && text.all Char.isDigit

/-- The natural number that a non-empty run of decimal digits spells. -/
def digits? (text : List Char) : Option Nat :=
  if isNumeral text then some (numeral text) else none

/-- The number after one more digit, which counts only below a limit. -/
def cappedSnoc (limit n : Nat) (c : Char) : Nat :=
  if n < limit then 10 * n + (c.toNat - '0'.toNat) else n

/-- The number that a non-empty run of decimal digits spells up to the first
digit that takes it to a limit; the digits after that one do not count. -/
def capped? (limit : Nat) (text : List Char) : Option Nat :=
  if isNumeral text then some (text.foldl (cappedSnoc limit) 0) else none

/-! ### Integers -/

/-- The decimal text of an integer, without leading zeros. -/
def render : Int → List Char
  | .ofNat n => Nat.toDigits 10 n
  | .negSucc n => '-' :: Nat.toDigits 10 (n + 1)

/-- The integers of 64 bits. -/
def IsInt64 (n : Int) : Prop :=
  -signBit ≤ n ∧ n < signBit

instance (n : Int) : Decidable (IsInt64 n) :=
  inferInstanceAs (Decidable (_ ∧ _))

/-- The integer itself when it has 64 bits. -/
def int64? (n : Int) : Option Int :=
  if IsInt64 n then some n else none

/-- The longest canonical text of a 64-bit integer has twenty characters. -/
def maxCanonicalLength : Nat := 20

/-- The integer whose canonical text this is: a zero, or an optional minus sign
before digits of which the first is not zero. -/
def canonical? (text : List Char) : Option Int :=
  if maxCanonicalLength < text.length then none
  else
    match text with
    | ['0'] => some 0
    | '0' :: _ => none
    | '-' :: '0' :: _ => none
    | '-' :: digits => (digits? digits).bind fun n => int64? (-(n : Int))
    | digits => (digits? digits).bind fun n => int64? n

/-- A natural number of 64 bits, with an optional plus sign and any leading zeros. -/
def unsigned? (text : List Char) : Option Nat :=
  let digits := match text with
    | '+' :: rest => rest
    | _ => text
  (digits? digits).filter (· < word64)

/-- An integer of 64 bits, with an optional sign and any leading zeros. -/
def signed? (text : List Char) : Option Int :=
  match text with
  | '-' :: digits => (digits? digits).bind fun n => int64? (-(n : Int))
  | '+' :: digits => (digits? digits).bind fun n => int64? n
  | digits => (digits? digits).bind fun n => int64? n

end CompactStore.Decimal
