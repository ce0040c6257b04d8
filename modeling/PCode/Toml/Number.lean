import PCode.Toml.Quoted

/-!
# Numbers and times of settings documents

A value that starts with a digit or a sign is an integer, a float or a time.  What
it is shows from its first characters; then the longest run of fitting characters
is taken and checked.

Main definition: `number?`.
-/

namespace PCode.Toml

/-! ## Checks -/

/-- Whether every underscore stands between digits, given whether the last character was a digit. -/
def underscoresFit : Bool → List Char → Bool
  | afterDigit, [] => afterDigit
  | afterDigit, c :: rest =>
    if c = '_' && !afterDigit then false else underscoresFit (Text.hexValue? c).isSome rest

/-- Whether a decimal number has a zero in front of other digits. -/
def hasLeadingZero : List Char → Bool
  | '0' :: _ :: _ => true
  | '+' :: '0' :: _ :: _ => true
  | '-' :: '0' :: _ :: _ => true
  | _ => false

/-- Whether every point stands before a digit. -/
def pointsFit : List Char → Bool
  | [] => true
  | '.' :: rest => (rest.head?.any Char.isDigit) && pointsFit rest
  | _ :: rest => pointsFit rest

/-- A number without its underscores. -/
def withoutUnderscores (cs : List Char) : List Char := cs.filter (· != '_')

/-! ## Integers -/

/-- The number that digits stand for. -/
def ofDigits (base : Nat) (digits : List Char) : Nat :=
  digits.foldl (fun n c => base * n + (Text.hexValue? c).getD 0) 0

/-- An integer that fits in a word. -/
def fitting? (n : Int) : Option Int64 :=
  if -9223372036854775808 ≤ n ∧ n < 9223372036854775808 then some (Int64.ofInt n) else none

/-- A decimal integer, which may have a sign. -/
def decimalInteger? (cs : List Char) : Option Int64 :=
  if underscoresFit false cs && !hasLeadingZero cs then
    match withoutUnderscores cs with
    | '-' :: digits => fitting? (-(ofDigits 10 digits : Int))
    | '+' :: digits => fitting? (ofDigits 10 digits)
    | digits => fitting? (ofDigits 10 digits)
  else none

/-- An integer in another base, given its digits. -/
def basedInteger? (base : Nat) (cs : List Char) : Option Int64 :=
  if (cs.head?.any (· != '_')) && underscoresFit false cs then
    fitting? (ofDigits base (withoutUnderscores cs))
  else none

/-! ## Floats -/

/-- A decimal number as digits and a power of ten. -/
structure Decimal where
  digits : List Char
  power : Int
  deriving Inhabited, Repr

/-- An exponent, which may have a sign. -/
def exponent? (cs : List Char) : Option Int :=
  let (negative, digits) :=
    match cs with
    | '-' :: rest => (true, rest)
    | '+' :: rest => (false, rest)
    | rest => (false, rest)
  if digits.isEmpty || !digits.all Char.isDigit then none
  else if negative then some (-(ofDigits 10 digits : Int))
  else some (ofDigits 10 digits)

/-- The decimal number that characters without underscores and sign stand for. -/
def decimal? (cs : List Char) : Option Decimal :=
  let whole := cs.takeWhile Char.isDigit
  let rest := cs.dropWhile Char.isDigit
  let (fraction, rest) :=
    match rest with
    | '.' :: rest => (rest.takeWhile Char.isDigit, rest.dropWhile Char.isDigit)
    | rest => ([], rest)
  let digits := whole ++ fraction
  if digits.isEmpty then none
  else
    match rest with
    | [] => some ⟨digits, -(fraction.length : Int)⟩
    | c :: rest =>
      if c = 'e' ∨ c = 'E' then
        (exponent? rest).map fun e => ⟨digits, e - fraction.length⟩
      else none

/-- The least number that no double is nearest to. -/
def overflowLimit : Nat := Nat.pow 2 1024 - Nat.pow 2 970

/-- Whether a decimal number is too large for a double. -/
def Decimal.overflows (d : Decimal) : Bool :=
  let digits := d.digits.dropWhile (· == '0')
  let places := digits.length + d.power
  if digits.isEmpty || places < 309 then false
  else if 309 < places then true
  else if 0 ≤ d.power then overflowLimit ≤ ofDigits 10 digits * Nat.pow 10 d.power.toNat
  else overflowLimit * Nat.pow 10 (-d.power).toNat ≤ ofDigits 10 digits

/-- The parts of a float between points and exponent marks. -/
def floatParts (cs : List Char) : List (List Char) :=
  (cs.splitBy fun a b => !isMark a && !isMark b).filter fun part => !part.any isMark
where
  /-- Whether a character divides a float. -/
  isMark (c : Char) : Bool := c == '.' || c == 'e' || c == 'E'

/-- Characters without a sign in front. -/
def withoutSign : List Char → List Char
  | '+' :: rest => rest
  | '-' :: rest => rest
  | cs => cs

/-- Whether characters are a float that fits in a double. -/
def isFloat (cs : List Char) : Bool :=
  let parts := floatParts cs
  parts.all (underscoresFit false) && !(parts.head?.any hasLeadingZero) && pointsFit cs &&
    (match decimal? (withoutSign (withoutUnderscores cs)) with
     | some d => !d.overflows
     | none => false)

/-! ## Times -/

/-- A number of exactly so many digits, and the characters after it. -/
def fixedDigits? (count : Nat) (cs : List Char) : Option (Nat × List Char) :=
  let digits := cs.take count
  if digits.length = count ∧ digits.all Char.isDigit then some (ofDigits 10 digits, cs.drop count)
  else none

/-- Whether a year has a leap day. -/
def isLeap (year : Nat) : Bool := year % 4 == 0 && (year % 100 != 0 || year % 400 == 0)

/-- The number of days of a month. -/
def daysIn (year month : Nat) : Nat :=
  match month with
  | 2 => if isLeap year then 29 else 28
  | 4 | 6 | 9 | 11 => 30
  | _ => 31

/-- The characters after a day. -/
def afterDay? (cs : List Char) : Option (List Char) :=
  match fixedDigits? 4 cs with
  | some (year, '-' :: cs) =>
    match fixedDigits? 2 cs with
    | some (month, '-' :: cs) =>
      match fixedDigits? 2 cs with
      | some (day, cs) =>
        if 1 ≤ month ∧ month ≤ 12 ∧ 1 ≤ day ∧ day ≤ daysIn year month then some cs else none
      | none => none
    | _ => none
  | _ => none

/-- The characters after the seconds of a clock time, or after their fraction. -/
def afterFraction (cs : List Char) : List Char :=
  match cs with
  | '.' :: rest => if rest.head?.any Char.isDigit then rest.dropWhile Char.isDigit else cs
  | _ => cs

/-- The characters after a clock time, whose seconds may be left out. -/
def afterClock? (cs : List Char) : Option (List Char) :=
  match fixedDigits? 2 cs with
  | some (hour, ':' :: cs) =>
    match fixedDigits? 2 cs with
    | some (minute, cs) =>
      if 24 ≤ hour ∨ 60 ≤ minute then none
      else
        match cs with
        | ':' :: rest =>
          match fixedDigits? 2 rest with
          | some (second, rest) => if second < 60 then some (afterFraction rest) else none
          | none => none
        | cs => some cs
    | none => none
  | _ => none

/-- Whether characters are nothing or an offset from universal time. -/
def isOffset (cs : List Char) : Bool :=
  match cs with
  | [] | ['Z'] => true
  | sign :: rest =>
    (sign == '+' || sign == '-') &&
      (match fixedDigits? 2 rest with
       | some (hours, ':' :: rest) =>
         match fixedDigits? 2 rest with
         | some (minutes, []) => hours ≤ 24 && minutes ≤ 60
         | _ => false
       | _ => false)

/-- A time with the usual letters and separator. -/
def normalTime (cs : List Char) : List Char :=
  cs.map fun c => if c = 't' ∨ c = ' ' then 'T' else if c = 'z' then 'Z' else c

/-- Whether characters are a day, a clock time, or both, with or without an offset. -/
def isTime (cs : List Char) : Bool :=
  let cs := normalTime cs
  match afterDay? cs with
  | some [] => true
  | some ('T' :: cs) =>
    match afterClock? cs with
    | some rest => isOffset rest
    | none => false
  | some _ => false
  | none => afterClock? cs == some []

/-! ## Values that start with a digit or a sign -/

/-- Whether a character can stand in a time. -/
def isTimeChar (c : Char) : Bool := c.isDigit || "-:Tt .Zz+".toList.contains c

/-- Whether a character can stand in a float. -/
def isFloatChar (c : Char) : Bool := c.isDigit || "_.-+eE".toList.contains c

/-- Whether a character makes a float of the digits before it. -/
def startsFloat (c : Char) : Bool := c == '.' || c == 'e' || c == 'E'

/-- A decimal integer or a float: what was taken of it already, and the characters from there. -/
def decimalNumber? (taken cs : List Char) : Option (Scalar × List Char) :=
  let inner (c : Char) : Bool := c.isDigit || c == '_'
  let whole := taken ++ cs.takeWhile inner
  let rest := cs.dropWhile inner
  if rest.head?.any startsFloat then
    let float := whole ++ rest.takeWhile isFloatChar
    if isFloat float then some (.float (String.ofList float), rest.dropWhile isFloatChar) else none
  else (decimalInteger? whole).map fun n => (.integer n, rest)

/-- An integer in another base, whose digits satisfy a condition. -/
def basedNumber? (base : Nat) (isDigit : Char → Bool) (cs : List Char) :
    Option (Scalar × List Char) :=
  let inner (c : Char) : Bool := isDigit c || c == '_'
  (basedInteger? base (cs.takeWhile inner)).map fun n => (.integer n, cs.dropWhile inner)

/-- A time. -/
def time? (cs : List Char) : Option (Scalar × List Char) :=
  let written := ((cs.takeWhile isTimeChar).reverse.dropWhile (· == ' ')).reverse
  if isTime written then some (.time (String.ofList written), cs.dropWhile isTimeChar) else none

/-- A number after a sign. -/
def signedNumber? (sign : Char) (cs : List Char) : Option (Scalar × List Char) :=
  match cs with
  | 'i' :: 'n' :: 'f' :: rest => some (.float (String.ofList [sign, 'i', 'n', 'f']), rest)
  | 'n' :: 'a' :: 'n' :: rest => some (.float (String.ofList [sign, 'n', 'a', 'n']), rest)
  | '0' :: 'b' :: _ | '0' :: 'o' :: _ | '0' :: 'x' :: _ => none
  | c :: _ => if c.isDigit then decimalNumber? [sign] cs else none
  | [] => none

/-- A number or time whose first character is a digit. -/
def unsignedNumber? (cs : List Char) : Option (Scalar × List Char) :=
  match cs with
  | '0' :: 'b' :: rest => basedNumber? 2 (fun c => c == '0' || c == '1') rest
  | '0' :: 'o' :: rest => basedNumber? 8 (fun c => '0' ≤ c && c ≤ '7') rest
  | '0' :: 'x' :: rest => basedNumber? 16 (fun c => (Text.hexValue? c).isSome) rest
  | cs =>
    match cs.dropWhile Char.isDigit with
    | '-' :: _ | ':' :: _ => time? cs
    | _ => decimalNumber? [] cs

/-- A number or time, and the characters after it. -/
def number? (cs : List Char) : Option (Scalar × List Char) :=
  match cs with
  | '+' :: rest => signedNumber? '+' rest
  | '-' :: rest => signedNumber? '-' rest
  | cs => unsignedNumber? cs

end PCode.Toml
