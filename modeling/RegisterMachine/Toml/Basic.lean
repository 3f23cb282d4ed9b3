/-!
# TOML documents

The values of a document, and the rules by which its lines add up to one table. No setting is a
real number or a moment, so a document only shows where they stand. Arrays of tables occur in no
settings; a document with one of them is refused by the reader.

A table may be written in several places, and the rules on that depend on how it was begun, which
is kept as its form.
-/

namespace RegisterMachine

inductive TableForm where
  /-- between braces; nothing can be added -/
  | inline
  /-- by a header of its own -/
  | header
  /-- by the header of a table inside of it -/
  | implicit
  /-- by a dotted key -/
  | dotted
  deriving DecidableEq, Repr, Inhabited

inductive Toml where
  | string (text : String)
  | integer (n : Int)
  | boolean (value : Bool)
  /-- a number that is not written as an integer -/
  | real
  /-- a date or a time or both -/
  | moment
  | array (items : List Toml)
  | table (form : TableForm) (entries : List (String × Toml))
  deriving Inhabited

namespace Toml

/-- The entries of a table, in the order in which they were begun. -/
abbrev Entries := List (String × Toml)

def find? (key : String) (entries : Entries) : Option Toml :=
  (entries.find? fun e => e.1 == key).map (·.2)

/-- Puts a value in the place of the one under a key, or at the end. -/
def put (key : String) (value : Toml) : Entries → Entries
  | [] => [(key, value)]
  | (k, old) :: rest => if k == key then (k, value) :: rest else (k, old) :: put key value rest

/-- Adds the entry `path.key = value`. A key has one value. A dotted key begins the tables on its
path or adds to tables that were begun by dotted keys; through the tables that a header has begun
on its way it can pass, but it cannot add to them. -/
def assign (entries : Entries) (path : List String) (key : String) (value : Toml) :
    Option Entries :=
  match path with
  | [] => if (find? key entries).isSome then none else some (entries ++ [(key, value)])
  | next :: path =>
    match find? next entries with
    | none => do return entries ++ [(next, .table .dotted (← assign [] path key value))]
    | some (.table .dotted inner) => do
      return put next (.table .dotted (← assign inner path key value)) entries
    | some (.table .implicit inner) =>
      if path.isEmpty then none
      else do return put next (.table .implicit (← assign inner path key value)) entries
    | some _ => none

/-- Begins the table of a header. The tables on its path are begun too, unless they exist. A table
has one header, and none if it was begun by a dotted key. -/
def openTable (entries : Entries) : List String → Option Entries
  | [] => none
  | [key] =>
    match find? key entries with
    | none => some (entries ++ [(key, .table .header [])])
    | some (.table .implicit inner) => some (put key (.table .header inner) entries)
    | some _ => none
  | key :: path =>
    match find? key entries with
    | none => do return entries ++ [(key, .table .implicit (← openTable [] path))]
    | some (.table .inline _) => none
    | some (.table form inner) => do
      return put key (.table form (← openTable inner path)) entries
    | some _ => none

/-- Adds the entry `path.key = value` to the table whose header is `header`. -/
def assignIn (entries : Entries) (header path : List String) (key : String) (value : Toml) :
    Option Entries :=
  match header with
  | [] => assign entries path key value
  | next :: header =>
    match find? next entries with
    | some (.table form inner) => do
      return put next (.table form (← assignIn inner header path key value)) entries
    | _ => none

inductive Line where
  | header (path : List String)
  | entry (path : List String) (key : String) (value : Toml)

def addLines (entries : Entries) (header : List String) : List Line → Option Entries
  | [] => some entries
  | .header path :: lines => do addLines (← openTable entries path) path lines
  | .entry path key value :: lines => do
    addLines (← assignIn entries header path key value) header lines

def addPairs (entries : Entries) : List (List String × String × Toml) → Option Entries
  | [] => some entries
  | (path, key, value) :: pairs => do addPairs (← assign entries path key value) pairs

end Toml

end RegisterMachine
