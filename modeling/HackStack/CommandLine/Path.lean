set_option autoImplicit false

/-! # File names in paths

A path is text; slashes separate its steps, and empty steps and steps `.` lead nowhere. The name of
a file is the last step, unless that is `..`. The extension of a name is what follows its last dot,
if anything precedes that dot.
-/

namespace HackStack.Path

/-- What stands between the slashes of a path, empty texts left out. -/
def pieces (path : String) : List String :=
  ((path.toList.splitOn '/').map String.ofList).filter (· != "")

/-- The steps of a path that lead somewhere. -/
def steps (path : String) : List String := (pieces path).filter (· != ".")

def startsInRoot (path : String) : Bool := path.toList.head? == some '/'

def endsInSlash (path : String) : Bool := path.toList.getLast? == some '/'

/-- The longest name that a step can have, in bytes. -/
def longestName : Nat := 255

/-- The longest path, in bytes. -/
def longestPath : Nat := 4095

/-- Whether the last step of a path is a name, with or without a slash after it. -/
def endsInName (path : String) : Bool :=
  match (pieces path).getLast? with
  | some piece => piece != "." && piece != ".."
  | none => false

/-- The name of the file that a path leads to. -/
def fileName? (path : String) : Option String :=
  match (steps path).getLast? with
  | some name => if name = ".." then none else some name
  | none => none

/-- The extension of a file name, without its dot. -/
def extension? (name : String) : Option String :=
  let reversed := name.toList.reverse
  match reversed.dropWhile (· != '.') with
  | [] => none
  | [_] => none
  | _ :: _ => some (String.ofList (reversed.takeWhile (· != '.')).reverse)

/-- Whether a path names a file with an extension. -/
def hasExtension (path extension : String) : Bool :=
  (fileName? path).bind extension? == some extension

/-- The path without steps at its end that lead nowhere, in reverse. -/
def dropTrailing : List Char → List Char
  | '/' :: rest => dropTrailing rest
  | '.' :: '/' :: rest => dropTrailing rest
  | reversed => reversed

/-- The path with another extension in place of the one that its file name has. The old one is cut
off first, and the new one is put to what is left of the path if that has a file name. -/
def replaceExtension (path extension : String) : String :=
  let reversed := (dropTrailing path.toList.reverse).dropWhile (· != '.')
  let cut := String.ofList reversed.reverse
  if (fileName? cut).isSome then cut ++ extension else cut

example : hasExtension "dir/a.vm/." "vm" = true ∧ hasExtension ".vm" "vm" = false := by decide

example :
    replaceExtension "dir/a.b.vm" "asm" = "dir/a.b.asm"
      ∧ replaceExtension "x..vm" "asm" = "x..asm" := by
  decide

end HackStack.Path
