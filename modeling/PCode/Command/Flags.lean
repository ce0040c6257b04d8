/-!
# Command-line flags

Flags stand before the other arguments, after one or two dashes.  The value of a
flag follows after an equals sign or as the next argument; a flag that is true or
false needs none.  Two dashes alone end the flags.

Main definition: `Flags.parse`.
-/

namespace PCode

/-- What a flag takes. -/
inductive FlagKind where
  | bool
  | int
  | natural
  | text
  deriving DecidableEq, Inhabited, Repr

/-- The value of a flag. -/
inductive FlagValue where
  | bool (b : Bool)
  | int (n : Int64)
  | natural (n : UInt64)
  | text (s : String)
  deriving DecidableEq, Inhabited, Repr

/-- Why a command does not start. -/
inductive FlagError where
  /-- help was asked for -/
  | help
  | unusable
  deriving DecidableEq, Inhabited, Repr

namespace Flags

/-! ## Numbers -/

/-- The value of a digit or letter. -/
def digitValue? (c : Char) : Option Nat :=
  let c := c.toLower
  if c.isDigit then some (c.toNat - 48)
  else if c.isAlpha then some (c.toNat - 87)
  else none

/-- The base of a number and its digits: a base mark follows a zero in front, and a zero alone
marks base eight. -/
def baseOf (cs : List Char) : Nat × List Char :=
  match cs with
  | '0' :: mark :: d :: rest =>
    match mark.toLower with
    | 'b' => (2, d :: rest)
    | 'o' => (8, d :: rest)
    | 'x' => (16, d :: rest)
    | _ => (8, mark :: d :: rest)
  | '0' :: rest => (8, rest)
  | cs => (10, cs)

/-- Whether every underscore stands after a digit and before another, given whether a digit or a
base mark comes before. -/
def underscoresFit : Bool → List Char → Bool
  | _, [] => true
  | _, ['_'] => false
  | afterDigit, '_' :: rest => afterDigit && underscoresFit false rest
  | _, _ :: rest => underscoresFit true rest

/-- A number without a sign. -/
def magnitude? (cs : List Char) : Option Nat :=
  let (base, digits) := baseOf cs
  let marked := base != 10
  if cs.isEmpty || !underscoresFit marked digits then none
  else
    (digits.filter (· != '_')).foldl
      (fun n? c =>
        match n?, digitValue? c with
        | some n, some d => if d < base then some (base * n + d) else none
        | _, _ => none)
      (some 0)

/-- An integer with or without a sign. -/
def int64? (s : String) : Option Int64 :=
  let (negative, cs) :=
    match s.toList with
    | '-' :: rest => (true, rest)
    | '+' :: rest => (false, rest)
    | rest => (false, rest)
  match magnitude? cs with
  | none => none
  | some n =>
    let i : Int := if negative then -(n : Int) else n
    if -9223372036854775808 ≤ i ∧ i < 9223372036854775808 then some (Int64.ofInt i) else none

/-- A natural number. -/
def uint64? (s : String) : Option UInt64 :=
  match magnitude? s.toList with
  | some n => if n < 18446744073709551616 then some (UInt64.ofNat n) else none
  | none => none

/-- A truth value. -/
def bool? (s : String) : Option Bool :=
  if ["1", "t", "T", "true", "TRUE", "True"].contains s then some true
  else if ["0", "f", "F", "false", "FALSE", "False"].contains s then some false
  else none

/-- The value that a text is for a flag. -/
def value? (kind : FlagKind) (s : String) : Option FlagValue :=
  match kind with
  | .bool => (bool? s).map .bool
  | .int => (int64? s).map .int
  | .natural => (uint64? s).map .natural
  | .text => some (.text s)

/-! ## Arguments -/

/-- The flags that were given, the latest first. -/
abbrev Given := List (String × FlagValue)

/-- What an argument is: the name of a flag with a value, if there is an equals sign, or none. -/
inductive Argument where
  | flag (name : String) (value : Option String)
  | endOfFlags
  | other
  | unusable
  deriving Inhabited, Repr

/-- The name and the value around an equals sign, which is not the first character. -/
def splitFlag (cs : List Char) : Argument :=
  match cs with
  | [] | '-' :: _ | '=' :: _ => .unusable
  | first :: rest =>
    let name := String.ofList (first :: rest.takeWhile (· != '='))
    match rest.dropWhile (· != '=') with
    | '=' :: value => .flag name (some (String.ofList value))
    | _ => .flag name none

/-- Look at an argument. -/
def argument (s : String) : Argument :=
  match s.toList with
  | ['-', '-'] => .endOfFlags
  | '-' :: '-' :: rest => splitFlag rest
  | '-' :: c :: rest => splitFlag (c :: rest)
  | _ => .other

/-- Read flags and give the other arguments, after the flags read so far. -/
def parseFrom (known : List (String × FlagKind)) :
    Given → List String → Except FlagError (Given × List String)
  | given, [] => .ok (given, [])
  | given, arg :: args =>
    match argument arg with
    | .other => .ok (given, arg :: args)
    | .endOfFlags => .ok (given, args)
    | .unusable => .error .unusable
    | .flag name value =>
      match known.lookup name with
      | none => .error (if name = "help" ∨ name = "h" then .help else .unusable)
      | some kind =>
        match value, kind, args with
        | some v, kind, args =>
          match value? kind v with
          | some v => parseFrom known ((name, v) :: given) args
          | none => .error .unusable
        | none, .bool, args => parseFrom known ((name, .bool true) :: given) args
        | none, kind, v :: args =>
          match value? kind v with
          | some v => parseFrom known ((name, v) :: given) args
          | none => .error .unusable
        | none, _, [] => .error .unusable

/-- Read flags and give the other arguments. -/
def parse (known : List (String × FlagKind)) (args : List String) :
    Except FlagError (Given × List String) :=
  parseFrom known [] args

/-! ## Values -/

/-- Whether a flag is on. -/
def isOn (given : Given) (name : String) : Bool := given.lookup name == some (.bool true)

/-- The text of a flag; without it, empty. -/
def textOf (given : Given) (name : String) : String :=
  match given.lookup name with
  | some (.text s) => s
  | _ => ""

/-- The integer of a flag, with a default. -/
def intOf (given : Given) (name : String) (default : Int64) : Int64 :=
  match given.lookup name with
  | some (.int n) => n
  | _ => default

/-- The natural number of a flag; without it, zero. -/
def naturalOf (given : Given) (name : String) : UInt64 :=
  match given.lookup name with
  | some (.natural n) => n
  | _ => 0

end Flags

end PCode
