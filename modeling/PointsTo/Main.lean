import PointsTo.CommandLine.Run

/-!
# The program

The command line with the files of the system.
-/

namespace PointsTo.CommandLine

/-- The cause of a failure of the system. -/
def FileError.ofSystem (e : IO.Error) : FileError :=
  match e with
  | .noFileOrDirectory .. => .notFound
  | .inappropriateType _ 20 _ => .notDirectory
  | .inappropriateType _ 21 _ => .isDirectory
  | e => .other (toString e)

instance : Files IO where
  readBytes path := do
    try
      return .ok (← IO.FS.readBinFile path)
    catch e => return .error (.ofSystem e)
  writeText path text := do
    try
      IO.FS.writeFile path text
      return .ok ()
    catch e => return .error (.ofSystem e)

end PointsTo.CommandLine

def main (args : List String) : IO UInt32 := do
  let result ← PointsTo.CommandLine.run args
  IO.print result.stdout
  IO.eprint result.stderr
  return result.exit
