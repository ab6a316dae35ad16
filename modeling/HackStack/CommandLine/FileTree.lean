import HackStack.CommandLine.Path
import HackStack.Stream

set_option autoImplicit false

/-! # File trees

A small model of files and directories: which files a path opens, and what writing through a path
changes. A place in the tree is the list of names that leads to it from the root. Every step of
a path but the last one must lead to a directory; writing creates a missing file, but no missing
directory. Names and paths are limited in length; of two failures on the way the first one counts,
except that a path of excessive length fails at once.
-/

namespace HackStack

inductive FileNode
  | directory
  | file (content : ByteArray)

/-- The names that lead to a file or a directory from the root. -/
abbrev Place := List String

structure FileTree where
  workingDirectory : Place
  entries : List (Place × FileNode)

namespace FileTree

/-- What is at a place. The root is a directory. -/
def node? (t : FileTree) (place : Place) : Option FileNode :=
  if place = [] then some .directory else t.entries.lookup place

/-- The tree with something else at a place. -/
def put (t : FileTree) (place : Place) (node : FileNode) : FileTree :=
  { t with entries := (place, node) :: t.entries.filter fun entry => entry.1 != place }

/-- Goes along the steps of a path; each step starts from a directory. -/
def walk (t : FileTree) (place : Place) : List String → Except IoError Place
  | [] => .ok place
  | step :: rest =>
      match t.node? place with
      | none => .error .noSuchFile
      | some (.file _) => .error .notADirectory
      | some .directory =>
          if Path.longestName < step.utf8ByteSize then .error .nameTooLong
          else t.walk (if step = ".." then place.dropLast else place ++ [step]) rest

/-- The place that a path starts from. -/
def origin (t : FileTree) (path : String) : Place :=
  if Path.startsInRoot path then [] else t.workingDirectory

/-- The place that given steps of a path lead to. There may be nothing at that place. -/
def locate (t : FileTree) (path : String) (steps : List String) : Except IoError Place :=
  if Path.longestPath < path.utf8ByteSize then .error .nameTooLong
  else t.walk (t.origin path) steps

/-- Whether a path says that it leads to a directory: it ends in a slash or in a step `.`. -/
def namesDirectory (path : String) : Bool :=
  Path.endsInSlash path || (Path.pieces path).getLast? == some "."

/-- The source that opening a path for reading gives. A directory can be opened, but reading from
it fails. -/
def open? (t : FileTree) (path : String) : Except IoError ByteSource := do
  let place ← t.locate path (Path.steps path)
  match t.node? place with
  | none => throw .noSuchFile
  | some .directory => return ⟨.empty, some .isADirectory⟩
  | some (.file content) =>
      if namesDirectory path then throw .notADirectory else return ⟨content, none⟩

/-- Why a file cannot be written under a path that leads through the given steps to a directory. -/
def refusal (t : FileTree) (path : String) (steps : List String) : IoError :=
  match t.locate path steps with
  | .error error => error
  | .ok place =>
      match t.node? place with
      | none => .noSuchFile
      | some .directory => .isADirectory
      | some (.file _) => .notADirectory

/-- The place that is written through a path. The path must lead to a file or to nothing yet. The
last name of a path that ends in a slash is not looked up: no file is written under it in any
case. -/
def target? (t : FileTree) (path : String) : Except IoError Place :=
  let steps := Path.steps path
  if !Path.endsInName path then .error (t.refusal path steps)
  else if Path.endsInSlash path then .error (t.refusal path steps.dropLast)
  else
    match t.locate path steps with
    | .error error => .error error
    | .ok place =>
        match t.node? place with
        | some .directory => .error .isADirectory
        | some (.file _) => .ok place
        | none => .ok place

/-- The tree after a file has been written through a path. -/
def write (t : FileTree) (path : String) (content : ByteArray) : Except IoError FileTree :=
  (t.target? path).map fun place => t.put place (.file content)

theorem lookup_filter_ne {place other : Place} (entries : List (Place × FileNode))
    (h : other ≠ place) :
    (entries.filter fun entry => entry.1 != place).lookup other = entries.lookup other := by
  induction entries with
  | nil => rfl
  | cons entry entries ih =>
      obtain ⟨p, n⟩ := entry
      by_cases hp : p = place
      · have hop : (other == place) = false := by simpa using h
        simp [List.lookup_cons, hp, hop, ih]
      · cases hop : other == p <;> simp [List.lookup_cons, hp, hop, ih]

theorem node?_put {t : FileTree} {place other : Place} {node : FileNode} (h : place ≠ []) :
    (t.put place node).node? other = if other = place then some node else t.node? other := by
  unfold node? put
  by_cases heq : other = place
  · simp [heq, h]
  · have hbeq : (other == place) = false := by simpa using heq
    rw [if_neg heq]
    simp only [List.lookup_cons, hbeq, lookup_filter_ne t.entries heq]

end FileTree

end HackStack
