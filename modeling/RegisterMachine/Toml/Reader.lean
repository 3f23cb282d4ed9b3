import RegisterMachine.Text.Hexadecimal
import RegisterMachine.Toml.Basic
import RegisterMachine.Toml.Moment
import RegisterMachine.Toml.Number

/-!
# Reading TOML documents

A document is read line by line. Every function of this module takes the text that is left, and
gives what it has read with the text behind it, or `none` if the text is not right.

Values are recursive, because arrays and inline tables hold values; the readers of values take a
supply of steps, for which the length of the text is enough. Arrays and inline tables inside of
each other must not be too many, and neither must the parts of a key.
-/

namespace RegisterMachine

namespace Toml

def isSpace (c : Char) : Bool := c == ' ' || c == '\t'

def skipSpace (cs : List Char) : List Char := cs.dropWhile isSpace

/-- Characters that stand for themselves in comments and in strings: all but the control
characters, of which only the tabulator is allowed. -/
def isPlain (c : Char) : Bool := c == '\t' || (0x20 ≤ c.toNat && c.toNat != 0x7F)

/-- Takes a line break: a line feed, or a carriage return with a line feed. -/
def newline? : List Char → Option (List Char)
  | '\n' :: rest => some rest
  | '\r' :: '\n' :: rest => some rest
  | _ => none

def skipComment : List Char → List Char
  | '#' :: rest => rest.dropWhile isPlain
  | cs => cs

/-- Takes the end of a line, with blanks and a comment in front of it; the text may end here too. -/
def endOfLine? (cs : List Char) : Option (List Char) :=
  match skipComment (skipSpace cs) with
  | [] => some []
  | cs => newline? cs

/-- Skips blanks, comments and line breaks, as they may stand between the items of an array. -/
def skipLines (steps : Nat) (cs : List Char) : List Char :=
  match steps with
  | 0 => cs
  | steps + 1 =>
    let cs := skipComment (skipSpace cs)
    match newline? cs with
    | some rest => skipLines steps rest
    | none => cs

def readScalar (count : Nat) (cs : List Char) : Option (Char × List Char) := do
  let digits := cs.take count
  if digits.length < count then none
  else
    let n ← Hexadecimal.number? digits
    if Nat.isValidChar n then some (Char.ofNat n, cs.drop count) else none

def readEscape : List Char → Option (Char × List Char)
  | 'b' :: rest => some ('\x08', rest)
  | 't' :: rest => some ('\t', rest)
  | 'n' :: rest => some ('\n', rest)
  | 'f' :: rest => some ('\x0c', rest)
  | 'r' :: rest => some ('\r', rest)
  | '"' :: rest => some ('"', rest)
  | '\\' :: rest => some ('\\', rest)
  | 'u' :: rest => readScalar 4 rest
  | 'U' :: rest => readScalar 8 rest
  | _ => none

/-- Reads a string on one line from behind its first quote. A string between single quotes has no
escapes. -/
def readLineString (quote : Char) (steps : Nat) (acc : List Char) (cs : List Char) :
    Option (String × List Char) :=
  match steps, cs with
  | 0, _ => none
  | _, [] => none
  | steps + 1, c :: rest =>
    if c = quote then some (String.ofList acc.reverse, rest)
    else if c = '\\' ∧ quote = '"' then do
      let (e, rest) ← readEscape rest
      readLineString quote steps (e :: acc) rest
    else if isPlain c then readLineString quote steps (c :: acc) rest
    else none

def skipBlankLines (steps : Nat) (cs : List Char) : List Char :=
  match steps with
  | 0 => cs
  | steps + 1 =>
    let cs := skipSpace cs
    match newline? cs with
    | some rest => skipBlankLines steps rest
    | none => cs

/-- A backslash at the end of a line takes with it the line break and all blanks and line breaks
behind it. -/
def skipFold? (cs : List Char) : Option (List Char) :=
  (newline? (skipSpace cs)).map fun rest => skipBlankLines rest.length rest

/-- Reads a string on several lines from behind its three quotes. Up to two quotes may stand inside
of it, also right before the three at its end. -/
def readBlockString (quote : Char) (steps : Nat) (acc : List Char) (cs : List Char) :
    Option (String × List Char) :=
  match steps, cs with
  | 0, _ => none
  | _, [] => none
  | steps + 1, c :: rest =>
    if c = quote then
      let quotes := cs.takeWhile (· == quote)
      let rest := cs.dropWhile (· == quote)
      if quotes.length < 3 then readBlockString quote steps (quotes ++ acc) rest
      else if quotes.length ≤ 5 then
        some (String.ofList ((quotes.drop 3 ++ acc).reverse), rest)
      else none
    else if c = '\\' ∧ quote = '"' then
      match skipFold? rest with
      | some rest => readBlockString quote steps acc rest
      | none => do
        let (e, rest) ← readEscape rest
        readBlockString quote steps (e :: acc) rest
    else
      match newline? cs with
      | some rest => readBlockString quote steps ('\n' :: acc) rest
      | none => if isPlain c then readBlockString quote steps (c :: acc) rest else none

/-- Reads a string. A line break right behind three opening quotes is not part of it. -/
def readString : List Char → Option (String × List Char)
  | '"' :: '"' :: '"' :: rest =>
    readBlockString '"' (rest.length + 1) [] ((newline? rest).getD rest)
  | '\'' :: '\'' :: '\'' :: rest =>
    readBlockString '\'' (rest.length + 1) [] ((newline? rest).getD rest)
  | '"' :: rest => readLineString '"' (rest.length + 1) [] rest
  | '\'' :: rest => readLineString '\'' (rest.length + 1) [] rest
  | _ => none

def isBare (c : Char) : Bool := c.isAlphanum || c == '_' || c == '-'

def readSimpleKey (cs : List Char) : Option (String × List Char) :=
  match cs with
  | '"' :: rest => readLineString '"' (rest.length + 1) [] rest
  | '\'' :: rest => readLineString '\'' (rest.length + 1) [] rest
  | cs =>
    let bare := cs.takeWhile isBare
    if bare.isEmpty then none else some (String.ofList bare, cs.dropWhile isBare)

/-- Reads a key of at most `parts` parts with points between them, as the path in front of its last
part and that part. Blanks around the parts are skipped. -/
def readKeyWithin (parts : Nat) (cs : List Char) :
    Option ((List String × String) × List Char) := do
  match parts with
  | 0 => none
  | parts + 1 =>
    let (part, rest) ← readSimpleKey (skipSpace cs)
    match skipSpace rest with
    | '.' :: rest =>
      let ((path, last), rest) ← readKeyWithin parts rest
      return ((part :: path, last), rest)
    | rest => return (([], part), rest)

/-- The largest number of parts of a key, and of arrays and inline tables inside of each other. -/
def nestingLimit : Nat := 79

def readKey (cs : List Char) : Option ((List String × String) × List Char) :=
  readKeyWithin nestingLimit cs

/-- Reads a value that does not start like any other: a moment or a number. A date starts like a
number, and a real number like an integer. -/
def readPlain (cs : List Char) : Option (Toml × List Char) :=
  match readMoment cs with
  | some rest => some (.moment, rest)
  | none =>
    match readReal cs with
    | some rest => some (.real, rest)
    | none => do let (n, rest) ← readInteger cs; return (.integer n, rest)

mutual

/-- Reads a value with at most `levels` arrays and inline tables inside of each other. -/
def readValue (levels steps : Nat) (cs : List Char) : Option (Toml × List Char) :=
  match steps with
  | 0 => none
  | steps + 1 =>
    match cs, levels with
    | '"' :: _, _ | '\'' :: _, _ => do let (s, rest) ← readString cs; return (.string s, rest)
    | 't' :: 'r' :: 'u' :: 'e' :: rest, _ => some (.boolean true, rest)
    | 'f' :: 'a' :: 'l' :: 's' :: 'e' :: rest, _ => some (.boolean false, rest)
    | '[' :: rest, levels + 1 => do
      let (items, rest) ← readItems levels steps rest
      return (.array items, rest)
    | '{' :: rest, levels + 1 => do
      let (pairs, rest) ← (match skipSpace rest with
        | '}' :: rest => some ([], rest)
        | rest => readPairs levels steps rest)
      return (.table .inline (← addPairs [] pairs), rest)
    | cs, _ => readPlain cs

def readItems (levels steps : Nat) (cs : List Char) : Option (List Toml × List Char) :=
  match steps with
  | 0 => none
  | steps + 1 =>
    match skipLines cs.length cs with
    | ']' :: rest => some ([], rest)
    | cs => do
      let (head, rest) ← readValue levels steps cs
      match skipLines rest.length rest with
      | ']' :: rest => return ([head], rest)
      | ',' :: rest =>
        let (items, rest) ← readItems levels steps rest
        return (head :: items, rest)
      | _ => none

/-- Reads the rest of an inline table, which stands on one line and does not end with a comma. -/
def readPairs (levels steps : Nat) (cs : List Char) :
    Option (List (List String × String × Toml) × List Char) :=
  match steps with
  | 0 => none
  | steps + 1 => do
    let ((path, key), rest) ← readKey cs
    match rest with
    | '=' :: rest =>
      let (value, rest) ← readValue levels steps (skipSpace rest)
      match skipSpace rest with
      | '}' :: rest => return ([(path, key, value)], rest)
      | ',' :: rest =>
        let (pairs, rest) ← readPairs levels steps rest
        return ((path, key, value) :: pairs, rest)
      | _ => none
    | _ => none

end

def readLines (steps : Nat) (cs : List Char) : Option (List Line) :=
  match steps with
  | 0 => none
  | steps + 1 =>
    match skipSpace cs with
    | [] => some []
    | '[' :: rest => do
      let ((path, key), rest) ← readKey rest
      match rest with
      | ']' :: rest =>
        let lines ← readLines steps (← endOfLine? rest)
        return .header (path ++ [key]) :: lines
      | _ => none
    | cs =>
      match endOfLine? cs with
      | some rest => readLines steps rest
      | none => do
        let ((path, key), rest) ← readKey cs
        match rest with
        | '=' :: rest =>
          let (value, rest) ← readValue nestingLimit (rest.length + 1) (skipSpace rest)
          let lines ← readLines steps (← endOfLine? rest)
          return .entry path key value :: lines
        | _ => none

/-- The entries of a document; `none` if it is not one. A byte order mark may stand in front. -/
def ofText? (text : String) : Option Entries := do
  let cs := match text.toList with
    | '\uFEFF' :: rest => rest
    | cs => cs
  addLines [] [] (← readLines (cs.length + 1) cs)

end Toml

end RegisterMachine
