/-!
# Paths

A path is read as a sequence of components between slashes. Empty components, and `.` after the
first, say nothing. The extension of a path is what follows the last dot in the name of its file,
unless that dot starts the name.
-/

namespace Enquanto.Path

/-- The pieces between slashes. -/
def pieces (path : String) : List String := path.splitOn "/"

/-- The components that say something. -/
def components (path : String) : List String := (pieces path).filter fun c => c ≠ "" ∧ c ≠ "."

/-- Whether a path can only stand for a directory. -/
def wantsDirectory (path : String) : Bool :=
  match (pieces path).getLast? with
  | some last => (last == "" || last == ".") && path ≠ ""
  | none => false

/-- The last component, if it names something. -/
def fileName? (path : String) : Option String :=
  (components path).getLast?.filter (· ≠ "..")

/-- What follows the last dot of a list of characters, if something stands before that dot. -/
def extensionOf (name : List Char) : Option (List Char) :=
  let tail := (name.reverse.takeWhile (· ≠ '.')).reverse
  if name.length ≤ tail.length + 1 then none else some tail

/-- The extension of the file that a path names. -/
def extension? (path : String) : Option String :=
  ((fileName? path).bind fun name => extensionOf name.toList).map String.ofList

end Enquanto.Path
