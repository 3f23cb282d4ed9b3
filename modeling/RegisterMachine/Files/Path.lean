import RegisterMachine.Text.Parts

/-!
# Paths

A path is a text whose segments are divided by slashes. Empty segments and points inside of it mean
nothing; a point at its start stands for the current directory and is kept.

`ancestors` lists a path and what is left of it when its segments are taken off one by one. The
list of a relative path ends with the empty path, which is the current directory too.
-/

namespace RegisterMachine

namespace Path

inductive Start where
  | root
  | current
  | nowhere
  deriving DecidableEq, Repr, Inhabited

namespace Start

def text : Start → List Char
  | root => ['/']
  | current => ['.']
  | nowhere => []

end Start

def start : List Char → Start × List Char
  | '/' :: rest => (.root, rest)
  | ['.'] => (.current, [])
  | '.' :: '/' :: rest => (.current, '/' :: rest)
  | cs => (.nowhere, cs)

def isAbsolute (path : String) : Bool := (start path.toList).1 == .root

/-- Segments that mean nothing. -/
def isVoid (segment : List Char) : Bool := segment == [] || segment == ['.']

/-- The path with some segments, given from the last to the first. -/
def ofSegments (s : Start) (segments : List (List Char)) : String :=
  String.ofList (s.text ++ ['/'].intercalate segments.reverse)

/-- What is left of a path when its segments, given from the last to the first, are taken off. -/
def parents (s : Start) : List (List Char) → List String
  | [] => if s = .current then [""] else []
  | segment :: rest =>
    if isVoid segment then parents s rest
    else ofSegments s (rest.dropWhile isVoid) :: parents s rest

/-- A path and the paths above it, the nearest first. -/
def ancestors (path : String) : List String :=
  let (s, rest) := start path.toList
  path :: parents s (partsBetween '/' rest).reverse

/-- The path above a path. A root, the empty path and what means the same have none. -/
def parent? (path : String) : Option String := (ancestors path)[1]?

/-- A path seen from a directory. An absolute path is the same from everywhere. -/
def join (directory path : String) : String :=
  if isAbsolute path then path
  else if directory.isEmpty || directory.endsWith "/" then directory ++ path
  else directory ++ "/" ++ path

end Path

end RegisterMachine
