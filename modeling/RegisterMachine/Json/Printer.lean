import RegisterMachine.Json.Basic
import RegisterMachine.Text.Hexadecimal

/-!
# Writing JSON texts

Two layouts: `compact` without any blanks, and `pretty` with one item or member a line, each level
of nesting indented by two blanks. In strings the quote, the backslash and the control characters
below the blank are escaped, five of them by a letter and the others by their number; all other
characters stand for themselves.

A value with a tear has no text; what is written of it ends at the tear.
-/

namespace RegisterMachine

namespace Json

def escapeChar (c : Char) : List Char :=
  if c = '"' then ['\\', '"']
  else if c = '\\' then ['\\', '\\']
  else if c = '\x08' then ['\\', 'b']
  else if c = '\x0c' then ['\\', 'f']
  else if c = '\n' then ['\\', 'n']
  else if c = '\r' then ['\\', 'r']
  else if c = '\t' then ['\\', 't']
  else if c.toNat < 0x20 then
    ['\\', 'u', '0', '0', Hexadecimal.digit (c.toNat / 16), Hexadecimal.digit (c.toNat % 16)]
  else [c]

def quoted (s : String) : List Char :=
  '"' :: s.toList.flatMap escapeChar ++ ['"']

/-- The text of a value that is neither an array nor an object. -/
def scalarChars : Json → List Char
  | null => "null".toList
  | bool true => "true".toList
  | bool false => "false".toList
  | number n => n.chars
  | string (some s) => quoted s
  | _ => []

mutual

def compactChars : Json → List Char
  | array items => '[' :: items.compactChars true ++ [']']
  | object members => '{' :: members.compactChars true ++ ['}']
  | v => v.scalarChars

def Items.compactChars (first : Bool) : Items → List Char
  | .item head rest =>
    (if first then [] else [',']) ++ head.compactChars ++ rest.compactChars false
  | _ => []

def Members.compactChars (first : Bool) : Members → List Char
  | .member (some key) value rest =>
    (if first then [] else [',']) ++ quoted key ++ ':' :: value.compactChars
      ++ rest.compactChars false
  | _ => []

end

def newline (level : Nat) : List Char := '\n' :: List.replicate (2 * level) ' '

mutual

/-- The text with a line for every item and member, inside of `level` levels. -/
def prettyChars (level : Nat) : Json → List Char
  | array .done => ['[', ']']
  | object .done => ['{', '}']
  | array items => '[' :: items.prettyChars (level + 1) true ++ newline level ++ [']']
  | object members => '{' :: members.prettyChars (level + 1) true ++ newline level ++ ['}']
  | v => v.scalarChars

def Items.prettyChars (level : Nat) (first : Bool) : Items → List Char
  | .item head rest =>
    (if first then [] else [',']) ++ newline level ++ head.prettyChars level
      ++ rest.prettyChars level false
  | _ => []

def Members.prettyChars (level : Nat) (first : Bool) : Members → List Char
  | .member (some key) value rest =>
    (if first then [] else [',']) ++ newline level ++ quoted key ++ ':' :: ' '
      :: value.prettyChars level ++ rest.prettyChars level false
  | _ => []

end

def compact (v : Json) : String := String.ofList v.compactChars

def pretty (v : Json) : String := String.ofList (v.prettyChars 0)

end Json

end RegisterMachine
