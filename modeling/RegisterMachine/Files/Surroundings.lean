import RegisterMachine.Files.Path

/-!
# The surroundings of a program

What a program finds around it: files, variables, the directory of the user and the current one.
They do not change while it runs, so they are plain functions and values. None of them follows from
another one. Whether there is something at a path is found out without reading it, and the answer is
no as well if one cannot get there; the system knows the directory of a user even if no variable
holds it.
-/

namespace RegisterMachine

inductive FileFault where
  | notFound
  | notDirectory
  | isDirectory
  /-- the path or one of the names on it is too long -/
  | nameTooLong
  /-- the path holds the character NUL -/
  | nulInName
  | notText
  | other (message : String)
  deriving DecidableEq, Repr, Inhabited

namespace FileFault

def message : FileFault → String
  | notFound => "No such file or directory (os error 2)"
  | notDirectory => "Not a directory (os error 20)"
  | isDirectory => "Is a directory (os error 21)"
  | nameTooLong => "File name too long (os error 36)"
  | nulInName => "file name contained an unexpected NUL byte"
  | notText => "stream did not contain valid UTF-8"
  | other message => message

end FileFault

structure Surroundings where
  /-- the text of the file at a path -/
  read : String → Except FileFault String
  /-- there is something at a path, which may be a directory, and one can get there -/
  hasPath : String → Bool
  /-- the text of a variable; `none` also for one that is no text -/
  getVariable : String → Option String
  /-- the directory of the user -/
  home? : Option String
  /-- the current directory -/
  directory : Except FileFault String

end RegisterMachine
