import CompactStore.Decimal.Integer

/-!
# Decimal text of floats

The absolute value of a finite double is `mantissa · 2 ^ exponent`, with a
natural mantissa below `2 ^ 53`.  Everything that asks for the exact value of a
double starts there, at `Binary64`: its shortest text, `floatText`, and the least
whole number that is not below it, `ceilWithin`.  The way back, from a text to the
double nearest to what it spells, is `float?`.
-/

namespace CompactStore

/-- The exact absolute value of a finite double: `mantissa · 2 ^ exponent`. -/
structure Binary64 where
  mantissa : Nat
  exponent : Int
deriving DecidableEq, Repr

namespace Binary64

/-- The part of the bits that is stored of the mantissa. -/
def fractionOf (bits : Nat) : Nat :=
  bits % 2 ^ (52 : Nat)

/-- The stored exponent; zero marks the numbers without a leading one. -/
def biasedOf (bits : Nat) : Nat :=
  bits / 2 ^ (52 : Nat) % 2 ^ (11 : Nat)

/-- The absolute value of the finite double with these bits. -/
def ofBits (bits : Nat) : Binary64 where
  mantissa := if biasedOf bits = 0 then fractionOf bits else 2 ^ (52 : Nat) + fractionOf bits
  exponent := if biasedOf bits = 0 then -1074 else (biasedOf bits : Int) - 1075

/-- The least natural number that is not below the value. -/
def ceil (b : Binary64) : Nat :=
  if 0 ≤ b.exponent then b.mantissa * 2 ^ b.exponent.toNat
  else
    let unit := 2 ^ (-b.exponent).toNat
    (b.mantissa + (unit - 1)) / unit

end Binary64

/-- The least whole number that is not below `x`, held between zero and `limit`;
zero stands for what is no number. -/
def ceilWithin (limit : Nat) (x : Float) : Nat :=
  if x.isNaN ∨ x ≤ 0 then 0
  else if x.isInf then limit
  else min limit (Binary64.ofBits x.toBits.toNat).ceil

end CompactStore

/-!
### The shortest text

A finite double is `m · 2 ^ q` for a natural `m` and an integer `q`, and the
reals that round to it form an interval around it.  The text of a double is the
decimal of fewest digits inside that interval: going down through the grids of
multiples of `10 ^ k`, the first grid with a point in the interval wins.  If any
point of a grid lies in the interval, so does one of the two neighbours of the
value on this grid, so only these two are tested; of two hits the nearer is
taken, and the upper one on a tie.

The layout is always positional: no exponent, no trailing point, and a leading
zero before a fraction.
-/

namespace CompactStore.Decimal

/-- The interval of reals that round to a positive double, in quarters of the
last place of its value: it reaches `below` quarters down and two quarters up,
and holds its ends exactly when `closed` is true. -/
structure Rounding where
  value : Binary64
  below : Nat
  closed : Bool
deriving DecidableEq, Repr

/-- The interval of the double with these bits, the sign left out.  At a power
of two the next double below is closer, so the interval reaches only one quarter
down there, but for the smallest normal number. -/
def Rounding.ofBits (bits : Nat) : Rounding where
  value := Binary64.ofBits bits
  below := if Binary64.fractionOf bits = 0 ∧ 1 < Binary64.biasedOf bits then 1 else 2
  closed := bits % 2 = 0

/-- A positive decimal `digits · 10 ^ exponent`. -/
structure Scaled where
  digits : Nat
  exponent : Int
deriving DecidableEq, Repr

/-- The factor of the numerator that a power contributes. -/
def upward (base : Nat) (exponent : Int) : Nat :=
  base ^ exponent.toNat

/-- The factor of the denominator that a power contributes. -/
def downward (base : Nat) (exponent : Int) : Nat :=
  base ^ (-exponent).toNat

/-- The nearest point of the grid of multiples of `10 ^ k` in the interval. -/
def Rounding.onGrid? (r : Rounding) (k : Int) : Option Scaled :=
  -- Both sides are scaled to whole numbers: a grid point `d` stands at `d * step`.
  let step := upward 10 k * downward 2 (r.value.exponent - 2)
  let quarter := upward 2 (r.value.exponent - 2) * downward 10 k
  let value := 4 * r.value.mantissa * quarter
  let low := (4 * r.value.mantissa - r.below) * quarter
  let high := (4 * r.value.mantissa + 2) * quarter
  let inside (d : Nat) : Bool :=
    if r.closed then low ≤ d * step ∧ d * step ≤ high
    else low < d * step ∧ d * step < high
  let d := value / step
  match inside d, inside (d + 1) with
  | true, true => some ⟨if value - d * step < (d + 1) * step - value then d else d + 1, k⟩
  | true, false => some ⟨d, k⟩
  | false, true => some ⟨d + 1, k⟩
  | false, false => none

/-- The decimal of a rounding's own value: a fraction of powers of two ends after
as many places as there are halvings. -/
def Rounding.exact (r : Rounding) : Scaled :=
  if 0 ≤ r.value.exponent then ⟨r.value.mantissa * 2 ^ r.value.exponent.toNat, 0⟩
  else ⟨r.value.mantissa * 5 ^ (-r.value.exponent).toNat, r.value.exponent⟩

/-- The first hit on the grids `10 ^ k`, `10 ^ (k - 1)`, …, of which `fuel` are
tried before the value itself is taken. -/
def Rounding.search (r : Rounding) : Nat → Int → Scaled
  | 0, _ => r.exact
  | fuel + 1, k =>
    match r.onGrid? k with
    | some s => s
    | none => r.search fuel (k - 1)

/-- The shortest decimal that rounds to the double.  The grids run from the
largest power of ten among the doubles to below the smallest double. -/
def Rounding.shortest (r : Rounding) : Scaled :=
  r.search 640 308

/-- The positional text of a decimal. -/
def Scaled.text (s : Scaled) : List Char :=
  let digits := Nat.toDigits 10 s.digits
  let places := (-s.exponent).toNat
  if places = 0 then digits ++ List.replicate s.exponent.toNat '0'
  else if places < digits.length then
    digits.take (digits.length - places) ++ '.' :: digits.drop (digits.length - places)
  else '0' :: '.' :: (List.replicate (places - digits.length) '0' ++ digits)

/-- The text of a float: the shortest digits that read back as the same float,
written positionally. -/
def floatText (x : Float) : List Char :=
  let bits := x.toBits.toNat
  let magnitude :=
    if bits % signBit = 0 then ['0']
    else if x.isInf then "inf".toList
    else (Rounding.ofBits bits).shortest.text
  if x.isNaN then "NaN".toList
  else if signBit ≤ bits then '-' :: magnitude
  else magnitude

/-!
### Reading

The grammar of a float argument: an optional sign, then one of the words `inf`,
`infinity` and `nan` in any case, or decimal digits with an optional point,
digits on at least one side of it, and an optional exponent of at least one
digit.  There are no spaces, no digit separators and no hexadecimal forms.

A number `m · 10 ^ e` is read as a natural and an integer, and rounded once, to
the nearest double.  The digits of `m` all count.  Those of the exponent count up
to the one that takes it to `2 ^ 16`, so an exponent of any length stays small.
-/

/-- An exponent that has reached this takes up no further digits. -/
def exponentLimit : Nat := 2 ^ (16 : Nat)

/-- The integer of an exponent: an optional sign and at least one digit. -/
def exponent? (text : List Char) : Option Int :=
  match text with
  | '-' :: digits => (capped? exponentLimit digits).map fun n => -(n : Int)
  | '+' :: digits => (capped? exponentLimit digits).map fun n => (n : Int)
  | digits => (capped? exponentLimit digits).map fun n => (n : Int)

/-- The exponent after the digits of a number; nothing stands for zero. -/
def tail? : List Char → Option Int
  | [] => some 0
  | 'e' :: rest => exponent? rest
  | 'E' :: rest => exponent? rest
  | _ => none

/-- The digits after a point, if there is one, and what follows them. -/
def fraction : List Char → List Char × List Char
  | '.' :: rest => (rest.takeWhile Char.isDigit, rest.dropWhile Char.isDigit)
  | rest => ([], rest)

/-- The infinite double above all others. -/
def infinite : Float := 1.0 / 0.0

/-- From two to this power on, a number is nearest to no finite double. -/
def rangeBits : Nat := 1024

/-- Whether `m · 10 ^ e` is past every finite double by its binary digits alone,
of which three decimal places take away at most ten. -/
def isPastRange (m : Nat) (e : Int) : Bool :=
  rangeBits + 10 * (((-e).toNat + 2) / 3) ≤ m.log2

/-- The double nearest to `m · 10 ^ e`.  Rounding drops binary digits one by one,
so a number of far too many is told first. -/
def nearest (m : Nat) (e : Int) : Float :=
  if isPastRange m e then infinite else Float.ofScientific m (e < 0) e.natAbs

/-- A number without a sign. -/
def number? (text : List Char) : Option Float :=
  let whole := text.takeWhile Char.isDigit
  let (fractional, rest) := fraction (text.dropWhile Char.isDigit)
  let digits := whole ++ fractional
  if digits.isEmpty then none
  else (tail? rest).map fun e => nearest (numeral digits) (e - fractional.length)

/-- A keyword or a number, without a sign. -/
def magnitude? (text : List Char) : Option Float :=
  let word := text.map Char.toLower
  if word = "inf".toList ∨ word = "infinity".toList then some infinite
  else if word = "nan".toList then some (0.0 / 0.0)
  else number? text

/-- The float that a text spells. -/
def float? (text : List Char) : Option Float :=
  match text with
  | '-' :: rest => (magnitude? rest).map fun x => -x
  | '+' :: rest => magnitude? rest
  | rest => magnitude? rest

end CompactStore.Decimal
