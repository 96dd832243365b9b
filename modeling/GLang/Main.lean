import GLang.Command.Run

/-!
# The program

The command line over the files of the machine: see `GLang.Command.Run`.
-/

namespace GLang.Command

/-- The reason for which the system refused an operation on a file. -/
def systemError : IO.Error → FileError
  | .noFileOrDirectory _ _ _ => .notFound
  | .inappropriateType _ _ _ => .isDirectory
  | e => .other (toString e)

/-- The files of the machine. -/
def systemFiles : FileSystem IO where
  read path := do
    try
      match Content.ofBytes (← IO.FS.readBinFile path) with
      | .text text => return .ok text
      | .bytes => return .error .notText
    catch e => return .error (systemError e)
  write path text := do
    try
      IO.FS.writeFile path text
      return .ok ()
    catch e => return .error (systemError e)

end GLang.Command

open GLang GLang.Command in
def main (args : List String) : IO UInt32 := do
  let paint : Report.Painter := if ← (← IO.getStdout).isTty then .terminal else .off
  let outcome ← run Options.ofArgs paint systemFiles args
  IO.print outcome.stdout
  IO.eprint outcome.stderr
  return outcome.exit.toUInt32
