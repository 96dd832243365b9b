/-!
# Files

What a program needs of the files of a machine. The operations are those of a monad: `IO` for the
program itself, a state monad for a tree of files in memory.
-/

namespace GLang

/-- Why a file cannot be read or written. -/
inductive FileError where
  | notFound
  | isDirectory
  | notDirectory
  | notText
  /-- Any other reason, in words. -/
  | other (text : String)
  deriving DecidableEq, Repr

def FileError.message : FileError → String
  | notFound => "No such file or directory (os error 2)"
  | isDirectory => "Is a directory (os error 21)"
  | notDirectory => "Not a directory (os error 20)"
  | notText => "stream did not contain valid UTF-8"
  | other text => text

/-- What a file holds. -/
inductive Content where
  | text (text : String)
  /-- Bytes that encode no text. -/
  | bytes
  deriving DecidableEq, Repr

/-- The content that bytes make. -/
def Content.ofBytes (bytes : ByteArray) : Content :=
  match String.fromUTF8? bytes with
  | some s => .text s
  | none => .bytes

/-- Reading and writing of whole files. -/
structure FileSystem (m : Type → Type) where
  read (path : String) : m (Except FileError String)
  write (path text : String) : m (Except FileError Unit)

end GLang
