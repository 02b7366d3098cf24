import CompactStore.Decimal.Float

/-!
# Sizes and errors

What a filter or a sketch may be asked for, and the reasons for which it is
refused.  A rate is a float strictly between zero and one, so neither an end of
the interval nor what is no number is a rate.

Sizes follow from rates through logarithms.  A logarithm of a float is the
machine's to give, so every size takes the function as an argument.

An error is every way in which a command, a change of the configuration or the
making of a structure can fail, as its cause.  `Error.message` is the only place
that puts a cause into words.
-/

namespace CompactStore

/-- Why a structure of the wanted size is not made. -/
inductive SizeError where
  | rate
  | probability
  | noCapacity
  | capacityTooLarge
  | noDimension
  | dimensionsTooLarge
deriving DecidableEq, Repr

/-- The reason in words. -/
def SizeError.message : SizeError → String
  | rate => "error rate should be between 0 and 1"
  | probability => "probability should be between 0 and 1"
  | noCapacity => "capacity must be positive"
  | capacityTooLarge => "capacity too large"
  | noDimension => "dimensions must be positive"
  | dimensionsTooLarge => "dimensions too large"

/-- A float strictly between zero and one. -/
def IsRate (x : Float) : Prop :=
  0 < x ∧ x < 1

instance (x : Float) : Decidable (IsRate x) :=
  inferInstanceAs (Decidable (_ ∧ _))

/-- The double nearest to the natural logarithm of two. -/
def ln2 : Float := 0.6931471805599453

/-- The double nearest to the base of the natural logarithm. -/
def euler : Float := 2.718281828459045

/-! ### Errors -/

/-- Why a configuration parameter does not take a value. -/
inductive ParameterFault where
  | unknown
  | notInteger
  | notPositive
  | notFloat
  | notRate
  | notLevel
deriving DecidableEq, Repr

/-- The fault in words. -/
def ParameterFault.message : ParameterFault → String
  | unknown => "unknown parameter"
  | notInteger => "Invalid integer"
  | notPositive => "Must be positive"
  | notFloat => "Invalid float"
  | notRate => "Must be between 0 and 1"
  | notLevel => "Invalid log level"

/-- The cause of a failure. -/
inductive Error where
  /-- A filter or sketch cannot have the wanted size. -/
  | size (reason : SizeError)
  /-- A cuckoo filter has no room for an item. -/
  | filterFull
  /-- A command has the wrong number of arguments. -/
  | arity (command : String)
  /-- An argument is no integer of the wanted range. -/
  | notInteger
  /-- An argument must not be negative. -/
  | negative
  /-- An argument is no float. -/
  | notFloat
  /-- The key holds a value of another type. -/
  | wrongType
  /-- The key is taken. -/
  | keyExists
  /-- The key holds nothing. -/
  | noSuchKey
  /-- There is no command of this name. -/
  | unknownCommand (name : String)
  /-- A configuration parameter does not take a value. -/
  | parameter (name value : String) (fault : ParameterFault)
  /-- A configuration file cannot be read as text. -/
  | unreadable
deriving DecidableEq, Repr

/-- The failure in words. -/
def Error.message : Error → String
  | size reason => "ERR " ++ reason.message
  | filterFull => "ERR filter is full"
  | arity command => "ERR wrong number of arguments for '" ++ command ++ "' command"
  | notInteger => "ERR value is not an integer or out of range"
  | negative => "ERR value is out of range, must be positive"
  | notFloat => "ERR value is not a valid float"
  | wrongType => "WRONGTYPE Operation against a key holding the wrong kind of value"
  | keyExists => "ERR item exists"
  | noSuchKey => "ERR no such key"
  | unknownCommand name => "ERR unknown command '" ++ name ++ "'"
  | parameter name value fault =>
    "ERR Invalid argument '" ++ value ++ "' for CONFIG '" ++ name ++ "': " ++ fault.message
  | unreadable => "ERR configuration cannot be read"

end CompactStore
