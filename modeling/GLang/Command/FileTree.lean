import GLang.Command.FileSystem
import GLang.Command.Path

/-!
# A tree of files

The files of a machine, by the names that lead to them from the root, and the working directory. The
working directory and those above it exist, and all directories on the way to a file.

* `FileTree.walk`: where a path leads.
* `FileTree.read`, `FileTree.write`: reading and writing a file.
* `FileTree.fileSystem`: the two as operations on a state.
-/

namespace GLang

structure FileTree where
  /-- The names that lead to the working directory. -/
  home : List String := []
  files : List (List String × Content) := []
  deriving DecidableEq, Repr

namespace FileTree

/-- What is at a place. -/
inductive Entry where
  | missing
  | directory
  | file (content : Content)
  deriving DecidableEq, Repr

def file? (t : FileTree) (place : List String) : Option Content :=
  t.files.lookup place

def entry (t : FileTree) (place : List String) : Entry :=
  if place.isPrefixOf t.home then .directory
  else match t.file? place with
    | some content => .file content
    | none => if t.files.any (fun f => place.isPrefixOf f.1) then .directory else .missing

/-- Goes from a place, which has to be a directory, to what `name` names there. The root is above
itself. -/
def step (t : FileTree) (place : List String) (name : String) : Except FileError (List String) :=
  match t.entry place with
  | .missing => .error .notFound
  | .file _ => .error .notDirectory
  | .directory =>
    if name = "" ∨ name = "." then .ok place
    else if name = ".." then .ok place.dropLast
    else .ok (place ++ [name])

/-- Goes from the start of `path` through names. -/
def walk (t : FileTree) (path : String) (names : List String) : Except FileError (List String) :=
  names.foldlM t.step (if Path.isAbsolute path then [] else t.home)

/-- The text of a file. -/
def read (t : FileTree) (path : String) : Except FileError String := do
  match t.entry (← t.walk path (Path.names path)) with
  | .file (.text text) => return text
  | .file .bytes => throw .notText
  | .directory => throw .isDirectory
  | .missing => throw .notFound

/-- The tree with a file replaced or added. -/
def put (t : FileTree) (place : List String) (text : String) : FileTree :=
  if (t.file? place).isSome then
    { t with files := t.files.map fun f => if f.1 = place then (place, .text text) else f }
  else { t with files := t.files ++ [(place, .text text)] }

/-- Writes a file. The directory that it lies in has to exist, and a path that ends with a slash
names no file. -/
def write (t : FileTree) (path text : String) : Except FileError FileTree := do
  let names := Path.names path
  let named := Path.withoutSlashes names
  let place ← t.walk path named
  if named.length < names.length then throw .isDirectory
  match t.entry place with
  | .file _ | .missing => return t.put place text
  | .directory => throw .isDirectory

def fileSystem : FileSystem (StateM FileTree) where
  read path := do return (← get).read path
  write path text := do
    match (← get).write path text with
    | .error e => return .error e
    | .ok t =>
      set t
      return .ok ()

end FileTree

end GLang
