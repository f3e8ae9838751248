import Enquanto.CommandLine.Path

/-!
# Files

What reading a file can give, and a directory tree as data to read files from. The tree knows the
files and the directories below the working directory; nothing is known above it.
-/

namespace Enquanto

/-- What reading a file gives. -/
inductive Reading where
  | contents (bytes : ByteArray)
  | missing
  /-- The reason that the operating system gives. -/
  | failed (reason : String)

/-- The files and the directories below a working directory, by their path from there. -/
structure Files where
  files : List (String × ByteArray)
  directories : List String

namespace Files

def notADirectory : String := "Not a directory (os error 20)"

def isADirectory : String := "Is a directory (os error 21)"

def nameTooLong : String := "File name too long (os error 36)"

/-- A place in the tree, or a directory outside it, of which nothing is known. -/
inductive Place where
  | inside (components : List String)
  | outside

/-- What is at a place. -/
inductive Entry where
  | file (bytes : ByteArray)
  | directory
  | nothing

/-- What is at the place with given components. A directory is there once something is in it. -/
def entry (tree : Files) (components : List String) : Entry :=
  match tree.files.find? fun f => Path.components f.1 == components with
  | some (_, bytes) => .file bytes
  | none =>
    let known := tree.directories ++ tree.files.map (·.1)
    if components.isEmpty || known.any fun p => components.isPrefixOf (Path.components p) then
      .directory
    else .nothing

/-- Follows components from a place. A name of more than 255 bytes is refused. -/
def walk (tree : Files) (place : Place) (wantsDirectory : Bool) : List String → Reading
  | [] =>
    match place with
    | .outside => .failed isADirectory
    | .inside here =>
      match tree.entry here with
      | .file bytes => if wantsDirectory then .failed notADirectory else .contents bytes
      | .directory => .failed isADirectory
      | .nothing => .missing
  | name :: rest =>
    match place with
    | .outside =>
      if name = ".." then walk tree .outside wantsDirectory rest
      else if 255 < name.utf8ByteSize then .failed nameTooLong
      else .missing
    | .inside here =>
      match tree.entry here with
      | .file _ => .failed notADirectory
      | .nothing => .missing
      | .directory =>
        if name = ".." then
          walk tree (if here = [] then .outside else .inside here.dropLast) wantsDirectory rest
        else if 255 < name.utf8ByteSize then .failed nameTooLong
        else walk tree (.inside (here ++ [name])) wantsDirectory rest

/-- Reads the file that a path names. A path that starts with a slash leads out of the tree, and one
of 4096 bytes or more is refused. -/
def read (tree : Files) (path : String) : Reading :=
  let start := if path.startsWith "/" then Place.outside else .inside []
  if path = "" then .missing
  else if 4096 ≤ path.utf8ByteSize then .failed nameTooLong
  else tree.walk start (Path.wantsDirectory path) (Path.components path)

end Files

end Enquanto
