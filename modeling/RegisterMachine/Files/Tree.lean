import RegisterMachine.Files.Surroundings

/-!
# Trees of files

Directories and files in memory, and what is found at a path in them.
-/

namespace RegisterMachine

inductive FileTree where
  | file (bytes : List UInt8)
  | directory (entries : List (String × FileTree))
  deriving Inhabited

namespace FileTree

def empty : FileTree := directory []

def putEntry (name : String) (entry : FileTree) : List (String × FileTree) →
    List (String × FileTree)
  | [] => [(name, entry)]
  | (n, old) :: rest =>
    if n = name then (n, entry) :: rest else (n, old) :: putEntry name entry rest

def child? (name : String) (entries : List (String × FileTree)) : Option FileTree :=
  (entries.find? fun e => e.1 == name).map (·.2)

/-- Puts a tree at the end of a list of names. Directories on the way are made. -/
def put (here : FileTree) : List String → FileTree → FileTree
  | [], leaf => leaf
  | name :: names, leaf =>
    let entries := match here with
      | directory entries => entries
      | file _ => []
    directory (putEntry name (put ((child? name entries).getD empty) names leaf) entries)

/-- Makes a directory at the end of a list of names, unless there is one. -/
def makeDirectory (here : FileTree) : List String → FileTree
  | [] =>
    match here with
    | directory _ => here
    | file _ => empty
  | name :: names =>
    let entries := match here with
      | directory entries => entries
      | file _ => []
    directory (putEntry name (makeDirectory ((child? name entries).getD empty) names) entries)

/-- The largest number of bytes of a name. -/
def nameLimit : Nat := 255

/-- The largest number of bytes of a path. -/
def pathLimit : Nat := 4095

/-- Follows the segments of a path. `above` are the directories over `here`, the nearest first; over
the root there is only the root. Behind a file no segment is right, not even an empty one. -/
def follow (above : List FileTree) (here : FileTree) : List String → Except FileFault FileTree
  | [] => .ok here
  | segment :: rest =>
    match here with
    | file _ => .error .notDirectory
    | directory entries =>
      if segment = "" ∨ segment = "." then follow above here rest
      else if segment = ".." then
        match above with
        | [] => follow [] here rest
        | up :: above => follow above up rest
      else if nameLimit < segment.utf8ByteSize then .error .nameTooLong
      else
        match child? segment entries with
        | none => .error .notFound
        | some next => follow (here :: above) next rest

def find (root : FileTree) (current path : String) : Except FileFault FileTree :=
  if path.contains '\x00' then .error .nulInName
  else if path.isEmpty then .error .notFound
  else if pathLimit < path.utf8ByteSize then .error .nameTooLong
  else
    let absolute := Path.join current path
    follow [] root ((partsBetween '/' absolute.toList).map String.ofList)

def read (root : FileTree) (current path : String) : Except FileFault String :=
  match root.find current path with
  | .error fault => .error fault
  | .ok (directory _) => .error .isDirectory
  | .ok (file bytes) =>
    match String.fromUTF8? ⟨bytes.toArray⟩ with
    | some text => .ok text
    | none => .error .notText

/-- The names on a path from the root. Two points take back the name in front of them. -/
def names (path : String) : List String :=
  let segments := (partsBetween '/' path.toList).filter fun s => !Path.isVoid s
  let onward := fun above s => if s == ['.', '.'] then above.tail else s :: above
  ((segments.foldl onward []).reverse).map String.ofList

/-- The tree with the given directories and files, and with those on the way to them. -/
def ofListing (directories : List String) (files : List (String × List UInt8)) : FileTree :=
  let tree := directories.foldl (fun t path => t.makeDirectory (names path)) empty
  files.foldl (fun t (path, bytes) => t.put (names path) (.file bytes)) tree

/-- The surroundings of a program that a user with a directory `home?` runs in a directory of the
tree. -/
def surroundings (root : FileTree) (directory : String) (home? : Option String)
    (values : List (String × String)) : Surroundings where
  read := root.read directory
  hasPath path := (root.find directory path).toOption.isSome
  getVariable name := values.lookup name
  home?
  directory := .ok directory

end FileTree

end RegisterMachine
