import CompactStore.Bytes
import CompactStore.Decimal.Float
import CompactStore.Error
import CompactStore.Log
import CompactStore.Quicklist.Basic

/-!
# Configuration

Seven parameters set what a store makes by itself and how much it logs.  Each has
a name, a text for its value, and a rule for the texts that it takes; a text that
is refused changes nothing.  Names are found in any case.

A configuration text sets one parameter on each line: its name, blanks, and its
value.  Blanks around a line and around the value do not count, and one pair of
quotes around the value is taken off, so a value may begin and end with blanks.
Empty lines and lines that begin with `#` are skipped.  Reading stops at the first
value that is refused.
-/

namespace CompactStore

/-- The values of all parameters; a field's default is the parameter's. -/
structure Config where
  /-- The capacity of a bloom filter that is made by adding to a missing key. -/
  bloomCapacity : Nat := 100
  /-- The rate of false reports of such a bloom filter. -/
  bloomErrorRate : Float := 0.01
  /-- The capacity of a cuckoo filter that is made by adding to a missing key. -/
  cuckooCapacity : Nat := 128
  /-- The rate of false reports of such a cuckoo filter. -/
  cuckooErrorRate : Float := 0.01
  /-- The size that a node of a list may reach before a new one is linked. -/
  listNodeMax : Nat := Quicklist.defaultNodeMax
  /-- How much is logged: the name of a level. -/
  logLevel : String := "notice"
  /-- Where the log is written; the standard error when empty. -/
  logFile : String := ""
deriving Repr

/-- A parameter of the configuration. -/
inductive Parameter where
  | bloomCapacity
  | bloomErrorRate
  | cuckooCapacity
  | cuckooErrorRate
  | listNodeMax
  | logLevel
  | logFile
deriving DecidableEq, Repr

namespace Parameter

/-- All parameters, in the order in which they are listed. -/
def all : List Parameter :=
  [bloomCapacity, bloomErrorRate, cuckooCapacity, cuckooErrorRate, listNodeMax, logLevel, logFile]

/-- The name of a parameter. -/
def name : Parameter → String
  | bloomCapacity => "bf-default-capacity"
  | bloomErrorRate => "bf-default-error-rate"
  | cuckooCapacity => "cf-default-capacity"
  | cuckooErrorRate => "cf-default-error-rate"
  | listNodeMax => "list-max-listpack-size"
  | logLevel => "loglevel"
  | logFile => "logfile"

/-- The text of a parameter's value. -/
def get (p : Parameter) (c : Config) : String :=
  match p with
  | bloomCapacity => String.ofList (Decimal.render c.bloomCapacity)
  | bloomErrorRate => String.ofList (Decimal.floatText c.bloomErrorRate)
  | cuckooCapacity => String.ofList (Decimal.render c.cuckooCapacity)
  | cuckooErrorRate => String.ofList (Decimal.floatText c.cuckooErrorRate)
  | listNodeMax => String.ofList (Decimal.render c.listNodeMax)
  | logLevel => c.logLevel
  | logFile => c.logFile

/-- The text of a parameter's default. -/
def defaultText (p : Parameter) : String :=
  p.get {}

/-- The number of a text that a size takes: positive and of 64 bits. -/
def positive? (text : String) : Except ParameterFault Nat :=
  match Decimal.unsigned? text.toList with
  | none => .error .notInteger
  | some n => if n = 0 then .error .notPositive else .ok n

/-- The float of a text that a rate takes. -/
def rate? (text : String) : Except ParameterFault Float :=
  match Decimal.float? text.toList with
  | none => .error .notFloat
  | some x => if IsRate x then .ok x else .error .notRate

/-- The name of a level that a text spells in any case. -/
def level? (text : String) : Except ParameterFault String :=
  let level := lowerCase text
  match level with
  | "debug" | "verbose" | "notice" | "warning" | "nothing" => .ok level
  | _ => .error .notLevel

/-- The configuration with another value for a parameter. -/
def set (p : Parameter) (c : Config) (text : String) : Except ParameterFault Config :=
  match p with
  | bloomCapacity => (positive? text).map fun n => { c with bloomCapacity := n }
  | bloomErrorRate => (rate? text).map fun x => { c with bloomErrorRate := x }
  | cuckooCapacity => (positive? text).map fun n => { c with cuckooCapacity := n }
  | cuckooErrorRate => (rate? text).map fun x => { c with cuckooErrorRate := x }
  | listNodeMax => (positive? text).map fun n => { c with listNodeMax := n }
  | logLevel => (level? text).map fun level => { c with logLevel := level }
  | logFile => .ok { c with logFile := text }

/-- The parameter with this name in any case. -/
def find? (text : String) : Option Parameter :=
  all.find? fun p => p.name.toList == text.toList.map Char.toLower

end Parameter

namespace Config

/-- The text of the value of the parameter with this name. -/
def get? (c : Config) (name : String) : Option String :=
  (Parameter.find? name).map fun p => p.get c

/-- Sets the parameter with this name.  A refusal quotes the value, and the name
of the parameter, or the given name if there is none. -/
def set (c : Config) (name value : String) : Except Error Config :=
  match Parameter.find? name with
  | none => .error (.parameter name value .unknown)
  | some p =>
    match p.set c value with
    | .error fault => .error (.parameter p.name value fault)
    | .ok c => .ok c

/-! ### Configuration text -/

/-- Whether a character is a blank: the property White_Space. -/
def isBlank (c : Char) : Bool :=
  let n := c.toNat
  (9 ≤ n && n ≤ 13) || n == 0x20 || n == 0x85 || n == 0xA0 || n == 0x1680
    || (0x2000 ≤ n && n ≤ 0x200A) || n == 0x2028 || n == 0x2029 || n == 0x202F
    || n == 0x205F || n == 0x3000

/-- Puts a character in front of the first line, or begins a line in front. -/
def consLine (c : Char) (rest : List (List Char)) : List (List Char) :=
  if c = '\n' then [] :: rest
  else
    match rest with
    | [] => [[c]]
    | line :: rest => (c :: line) :: rest

/-- The lines of a text, without their line feeds. -/
def lines (text : List Char) : List (List Char) :=
  text.foldr consLine [[]]

/-- The characters without the blanks at both ends. -/
def trim (text : List Char) : List Char :=
  ((text.dropWhile isBlank).reverse.dropWhile isBlank).reverse

/-- The characters without a pair of quotes around them. -/
def unquote (value : List Char) : List Char :=
  match value with
  | '"' :: rest => if rest.getLast? = some '"' then rest.dropLast else value
  | _ => value

/-- A name and the value for it. -/
structure Setting where
  name : String
  value : String
deriving DecidableEq, Repr

/-- What a line sets; `none` for a line that is skipped. -/
def setting? (line : List Char) : Option Setting :=
  let line := trim line
  match line with
  | [] => none
  | '#' :: _ => none
  | _ => some {
      name := String.ofList (line.takeWhile fun c => !isBlank c)
      value := String.ofList (unquote (trim (line.dropWhile fun c => !isBlank c))) }

/-- Sets what a line asks for. -/
def applyLine (c : Config) (line : List Char) : Except Error Config :=
  match setting? line with
  | none => .ok c
  | some s => c.set s.name s.value

/-- The configuration that a text makes of the defaults. -/
def parse (text : String) : Except Error Config :=
  (lines text.toList).foldlM applyLine {}

/-- The configuration of a file with this content; `none` stands for a file that
cannot be opened. -/
def load (content : Option Bytes) : Except Error Config :=
  match content.bind Utf8.text? with
  | none => .error .unreadable
  | some text => parse text

end Config

end CompactStore
