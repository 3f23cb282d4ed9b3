import RegisterMachine.Json.Basic
import RegisterMachine.Text.Hexadecimal

/-!
# Reading JSON texts

`Document.ofText` reads a text as far as it is JSON. It never fails: a fault becomes a tear in the
value, see `RegisterMachine.Json.Basic`.

The reader is recursive on a supply of steps. Every call takes a character of the text before it
calls on, so the length of the text is supply enough.
-/

namespace RegisterMachine

namespace Json

def isBlank (c : Char) : Bool := c == ' ' || c == '\n' || c == '\t' || c == '\r'

def skipBlanks (cs : List Char) : List Char := cs.dropWhile isBlank

/-- The number of bytes that a text takes in UTF-8. -/
def byteCount (cs : List Char) : Nat := cs.foldl (fun n c => n + c.utf8Size) 0

def shortEscape? : Char → Option Char
  | '"' => some '"'
  | '\\' => some '\\'
  | '/' => some '/'
  | 'b' => some '\x08'
  | 'f' => some '\x0c'
  | 'n' => some '\n'
  | 'r' => some '\r'
  | 't' => some '\t'
  | _ => none

def isHighSurrogate (n : Nat) : Bool := 0xD800 ≤ n && n < 0xDC00

def isLowSurrogate (n : Nat) : Bool := 0xDC00 ≤ n && n < 0xE000

/-- The character that a pair of surrogates stands for. -/
def joinSurrogates (high low : Nat) : Char :=
  Char.ofNat ((high - 0xD800) * 0x400 + (low - 0xDC00) + 0x10000)

/-- What has been read of a string, last character first; `none` once an escape in it stood for
half of a character. -/
abbrev Scanned := Option (List Char)

/-- The tear at a fault in a string. Those who read it have met half a character before. -/
def Scanned.tear (scanned : Scanned) (fault : Fault) : Tear :=
  ⟨if scanned.isSome then fault else .malformed, fault⟩

/-- Where a reader of a string stands between two characters of the text. -/
inductive StringState where
  /-- between characters of the string -/
  | plain
  /-- behind the first half of a character -/
  | half (high : Nat)
  /-- behind a backslash, perhaps with the first half of a character in front of it -/
  | escape (high : Option Nat)
  /-- behind some of the four digits of an escape, with their value -/
  | digits (high : Option Nat) (count value : Nat)

/-- What an escape of four digits adds to the string, and where its reader stands then. -/
def Scanned.addUnit (scanned : Scanned) (high : Option Nat) (unit : Nat) : Scanned × StringState :=
  match high with
  | some h =>
    if isLowSurrogate unit then (scanned.map (joinSurrogates h unit :: ·), .plain)
    else (none, .plain)
  | none =>
    if isLowSurrogate unit then (none, .plain)
    else if isHighSurrogate unit then (scanned, .half unit)
    else (scanned.map (Char.ofNat unit :: ·), .plain)

/-- The string without a first half that no second one follows. -/
def Scanned.missing (scanned : Scanned) (high : Option Nat) : Scanned :=
  if high.isSome then none else scanned

/-- Reads a string from behind its first quote, and gives the text behind its last. -/
def readString (scanned : Scanned) (state : StringState) :
    List Char → Except Tear (Option String × List Char)
  | [] => .error (scanned.tear .unfinished)
  | c :: rest =>
    match state with
    | .plain =>
      if c = '"' then .ok (scanned.map fun cs => String.ofList cs.reverse, rest)
      else if c = '\\' then readString scanned (.escape none) rest
      else if c.toNat < 0x20 then .error (scanned.tear .malformed)
      else readString (scanned.map (c :: ·)) .plain rest
    | .half high =>
      if c = '"' then .ok (none, rest)
      else if c = '\\' then readString scanned (.escape (some high)) rest
      else if c.toNat < 0x20 then .error (Tear.of .malformed)
      else readString none .plain rest
    | .escape high =>
      if c = 'u' then readString scanned (.digits high 0 0) rest
      else
        match shortEscape? c with
        | some e => readString ((scanned.missing high).map (e :: ·)) .plain rest
        | none => .error (Tear.of .malformed)
    | .digits high count value =>
      match Hexadecimal.value? c with
      | some d =>
        if count < 3 then readString scanned (.digits high (count + 1) (16 * value + d)) rest
        else
          let (scanned, state) := scanned.addUnit high (16 * value + d)
          readString scanned state rest
      | none =>
        -- the four bytes behind an escape are taken together
        .error (scanned.tear
          (if count + byteCount (c :: rest) < 4 then .unfinished else .malformed))

/-- The tear of a numeral without the digits that have to come next. Only those who read it tell
the end of the text from any other character. -/
def missingDigits (rest : List Char) : Tear :=
  if rest.isEmpty then ⟨.unfinished, .malformed⟩ else Tear.of .malformed

/-- Reads the power of ten of a numeral, if there is one. -/
def readExponent (negative : Bool) (whole : List Char) (fraction : Option (List Char)) :
    List Char → Json × List Char
  | c :: rest =>
    if c = 'e' ∨ c = 'E' then
      let (down, rest) := match rest with
        | '-' :: rest => (true, rest)
        | '+' :: rest => (false, rest)
        | rest => (false, rest)
      let digits := rest.takeWhile Char.isDigit
      if digits.isEmpty then (.torn (missingDigits rest), [])
      else (.number ⟨negative, whole, fraction, some (down, digits)⟩, rest.dropWhile Char.isDigit)
    else (.number ⟨negative, whole, fraction, none⟩, c :: rest)
  | [] => (.number ⟨negative, whole, fraction, none⟩, [])

/-- Reads the rest of a numeral behind the digits before the point. -/
def readFraction (negative : Bool) (whole : List Char) : List Char → Json × List Char
  | '.' :: rest =>
    let digits := rest.takeWhile Char.isDigit
    if digits.isEmpty then (.torn (missingDigits rest), [])
    else readExponent negative whole (some digits) (rest.dropWhile Char.isDigit)
  | rest => readExponent negative whole none rest

/-- Reads a numeral from behind its sign. Only the number zero starts with the digit zero. -/
def readNumeral (negative : Bool) (cs : List Char) : Json × List Char :=
  let whole := cs.takeWhile Char.isDigit
  match whole with
  | [] => (.torn (missingDigits cs), [])
  | '0' :: _ :: _ => (.torn (Tear.of .malformed), [])
  | _ => readFraction negative whole (cs.dropWhile Char.isDigit)

/-- Reads the rest of a word whose first letter has been seen. -/
def readWord (value : Json) : List Char → List Char → Json × List Char
  | [], rest => (value, rest)
  | _ :: _, [] => (.torn (Tear.of .unfinished), [])
  | w :: word, c :: rest =>
    if w = c then readWord value word rest else (.torn (Tear.of .malformed), [])

mutual

def readValue (steps : Nat) (cs : List Char) : Json × List Char :=
  match steps with
  | 0 => (.torn (Tear.of .unfinished), [])
  | steps + 1 =>
    match skipBlanks cs with
    | [] => (.torn (Tear.of .unfinished), [])
    | 'n' :: rest => readWord .null ['u', 'l', 'l'] rest
    | 't' :: rest => readWord (.bool true) ['r', 'u', 'e'] rest
    | 'f' :: rest => readWord (.bool false) ['a', 'l', 's', 'e'] rest
    | '-' :: rest => readNumeral true rest
    | '"' :: rest =>
      match readString (some []) .plain rest with
      | .ok (text, rest) => (.string text, rest)
      | .error tear => (.torn tear, [])
    | '[' :: rest =>
      match skipBlanks rest with
      | ']' :: rest => (.array .done, rest)
      | rest =>
        let (head, rest) := readValue steps rest
        let (items, rest) := readItems steps rest
        (.array (.item head items), rest)
    | '{' :: rest =>
      match skipBlanks rest with
      | '}' :: rest => (.object .done, rest)
      | rest =>
        let (members, rest) := readMember steps rest
        (.object members, rest)
    | c :: rest =>
      if c.isDigit then readNumeral false (c :: rest) else (.torn (Tear.of .malformed), [])

def readItems (steps : Nat) (cs : List Char) : Items × List Char :=
  match steps with
  | 0 => (.torn (Tear.of .unfinished), [])
  | steps + 1 =>
    match skipBlanks cs with
    | [] => (.torn (Tear.of .unfinished), [])
    | ']' :: rest => (.done, rest)
    | ',' :: rest =>
      let (head, rest) := readValue steps rest
      let (items, rest) := readItems steps rest
      (.item head items, rest)
    | _ => (.torn (Tear.of .malformed), [])

/-- Reads a member, from its key on, and the rest of the object. -/
def readMember (steps : Nat) (cs : List Char) : Members × List Char :=
  match steps with
  | 0 => (.torn (Tear.of .unfinished), [])
  | steps + 1 =>
    match skipBlanks cs with
    | [] => (.torn (Tear.of .unfinished), [])
    | '"' :: rest =>
      match readString (some []) .plain rest with
      | .error tear => (.torn tear, [])
      | .ok (key, rest) =>
        match skipBlanks rest with
        | [] => (.member key (.torn (Tear.of .unfinished)) .done, [])
        | ':' :: rest =>
          let (value, rest) := readValue steps rest
          let (members, rest) := readMembers steps rest
          (.member key value members, rest)
        | _ => (.member key (.torn (Tear.of .malformed)) .done, [])
    | _ => (.torn (Tear.of .malformed), [])

def readMembers (steps : Nat) (cs : List Char) : Members × List Char :=
  match steps with
  | 0 => (.torn (Tear.of .unfinished), [])
  | steps + 1 =>
    match skipBlanks cs with
    | [] => (.torn (Tear.of .unfinished), [])
    | '}' :: rest => (.done, rest)
    | ',' :: rest => readMember steps rest
    | _ => (.torn (Tear.of .malformed), [])

end

/-- A text read as JSON: the value at its start, and whether something other than blanks stands
behind it. -/
structure Document where
  value : Json
  hasMore : Bool

def Document.ofText (text : String) : Document :=
  let cs := text.toList
  let (value, rest) := readValue (cs.length + 1) cs
  ⟨value, !(skipBlanks rest).isEmpty⟩

end Json

end RegisterMachine
