import PCode.Toml.Value

/-!
# Strings of settings documents

Strings stand in double quotes, with escapes, or in single quotes, without; three
quotes of either kind hold several lines.  Each reader is given the characters
after the opening quotes, and gives the string and the characters after the
closing ones.
-/

namespace PCode.Toml

/-! ## Escapes -/

/-- The character whose code is given by hexadecimal digits. -/
def charOfHex? (digits : List Char) : Option Char :=
  match digits.mapM Text.hexValue? with
  | none => none
  | some values =>
    let n := values.foldl (fun n d => 16 * n + d) 0
    if n.isValidChar then some (Char.ofNat n) else none

/-- The character that a letter after a backslash stands for. -/
def simpleEscape? (c : Char) : Option Char :=
  match c with
  | 'b' => some '\x08'
  | 't' => some '\t'
  | 'n' => some '\n'
  | 'f' => some '\x0c'
  | 'r' => some '\r'
  | 'e' => some '\x1b'
  | '"' => some '"'
  | '\\' => some '\\'
  | _ => none

/-- Whether only blanks stand before the end of the line. -/
def endsLine (cs : List Char) : Bool :=
  (cs.takeWhile fun c => isBlank c || isNewline c).contains '\n'

/-- Characters with their escapes replaced.  A backslash at the end of a line goes away with all
blanks and line ends after it, and the flag tells that these are being skipped; the digits of an
escape stand together, so that no such line end divides them. -/
def unescape? : Bool → List Char → Option (List Char)
  | _, [] => some []
  | skipping, c :: rest =>
    if skipping && (isBlank c || isNewline c) then unescape? true rest
    else if c ≠ '\\' then (unescape? false rest).map (c :: ·)
    else if endsLine rest then unescape? true rest
    else
      match rest with
      | 'x' :: a :: b :: rest =>
        match charOfHex? [a, b], unescape? false rest with
        | some c, some cs => some (c :: cs)
        | _, _ => none
      | 'u' :: a :: b :: c :: d :: rest =>
        match charOfHex? [a, b, c, d], unescape? false rest with
        | some c, some cs => some (c :: cs)
        | _, _ => none
      | 'U' :: a :: b :: c :: d :: e :: f :: g :: h :: rest =>
        match charOfHex? [a, b, c, d, e, f, g, h], unescape? false rest with
        | some c, some cs => some (c :: cs)
        | _, _ => none
      | c :: rest =>
        match simpleEscape? c, unescape? false rest with
        | some c, some cs => some (c :: cs)
        | _, _ => none
      | [] => none

/-! ## Strings on one line -/

/-- The characters up to a double quote without a backslash before it, and those after it.  The
second list has the characters so far, the latest first. -/
def basicSpan? : List Char → List Char → Option (List Char × List Char)
  | [], _ => none
  | '"' :: rest, sofar => some (sofar.reverse, rest)
  | '\\' :: c :: rest, sofar =>
    if isNewline c then none else basicSpan? rest (c :: '\\' :: sofar)
  | c :: rest, sofar => if isNewline c then none else basicSpan? rest (c :: sofar)

/-- A string in double quotes. -/
def basicString? (cs : List Char) : Option (String × List Char) :=
  match basicSpan? cs [] with
  | none => none
  | some (content, rest) => (unescape? false content).map fun cs => (String.ofList cs, rest)

/-- A string in single quotes. -/
def literalString? (cs : List Char) : Option (String × List Char) :=
  let content := cs.takeWhile fun c => c != '\'' && !isNewline c
  match cs.dropWhile fun c => c != '\'' && !isNewline c with
  | '\'' :: rest => some (String.ofList content, rest)
  | _ => none

/-! ## Strings of several lines -/

/-- Whether characters, the latest first, end with two double quotes that no backslash precedes. -/
def endsInTwoQuotes : List Char → Bool
  | '"' :: '"' :: '\\' :: _ => false
  | '"' :: '"' :: _ => true
  | _ => false

/-- The characters up to the last three of at most five double quotes, and those after them.  The
second list has the characters so far, the latest first. -/
def multilineSpan? : List Char → List Char → Option (List Char × List Char)
  | [], _ => none
  | '\\' :: c :: rest, sofar => multilineSpan? rest (c :: '\\' :: sofar)
  | '"' :: tail@('"' :: '"' :: '"' :: _), sofar =>
    if endsInTwoQuotes sofar then none else multilineSpan? tail ('"' :: sofar)
  | '"' :: '"' :: '"' :: rest, sofar => some (sofar.reverse, rest)
  | c :: rest, sofar => multilineSpan? rest (c :: sofar)

/-- The characters up to the last three of at most five single quotes, and those after them.  The
second list has the characters so far, the latest first. -/
def literalSpan? : List Char → List Char → Option (List Char × List Char)
  | [], _ => none
  | '\'' :: tail@('\'' :: '\'' :: '\'' :: _), sofar =>
    match sofar with
    | '\'' :: '\'' :: _ => none
    | _ => literalSpan? tail ('\'' :: sofar)
  | '\'' :: '\'' :: '\'' :: rest, sofar => some (sofar.reverse, rest)
  | c :: rest, sofar => literalSpan? rest (c :: sofar)

/-- Characters without a line end in front. -/
def dropFirstNewline : List Char → List Char
  | '\n' :: rest => rest
  | '\r' :: '\n' :: rest => rest
  | cs => cs

/-- A string in three double quotes. -/
def multilineString? (cs : List Char) : Option (String × List Char) :=
  match multilineSpan? cs [] with
  | none => none
  | some (content, rest) =>
    (unescape? false (dropFirstNewline content)).map fun cs => (String.ofList cs, rest)

/-- A string in three single quotes. -/
def multilineLiteral? (cs : List Char) : Option (String × List Char) :=
  (literalSpan? cs []).map fun (content, rest) => (String.ofList (dropFirstNewline content), rest)

end PCode.Toml
