/-!
# Paths

* `Path.names`: the names in a path, between its slashes.
* `Path.withExtension`: a path with its extension replaced. An extension is what follows the last
  point of a file name, unless that point is the first character.
-/

namespace GLang.Path

/-- The pieces of a text between slashes. -/
def pieces : List Char → List (List Char)
  | [] => [[]]
  | '/' :: cs => [] :: pieces cs
  | c :: cs =>
    match pieces cs with
    | piece :: rest => (c :: piece) :: rest
    | [] => [[c]]

/-- The names in a path. Two slashes in a row, and a slash at an end, have an empty name beside
them. -/
def names (path : String) : List String :=
  (pieces path.toList).map String.ofList

/-- Whether a path starts at the root. -/
def isAbsolute (path : String) : Bool :=
  path.toList.head? = some '/'

/-- Names without the empty ones at the end. -/
def withoutSlashes (names : List String) : List String :=
  (names.reverse.dropWhile (·.isEmpty)).reverse

/-- A file name, backwards, without its extension, also backwards. -/
def stemBackwards (name : List Char) : List Char :=
  match name.dropWhile (· ≠ '.') with
  | _ :: stem => if stem.isEmpty then name else stem
  | [] => name

/-- The path with the extension of its file name replaced. A file name that starts with two points
and has no other loses its extension down to those points; the path then leads to the parent
directory and takes no new extension. -/
def withExtension (path : String) (extension : String) : String :=
  let back := path.toList.reverse
  let name := back.takeWhile (· ≠ '/')
  let directory := (back.drop name.length).reverse
  if name.dropWhile (· ≠ '.') = ['.', '.'] then String.ofList (directory ++ ['.', '.'])
  else String.ofList (directory ++ (stemBackwards name).reverse) ++ "." ++ extension

end GLang.Path
