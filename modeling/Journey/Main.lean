import Journey.Program

/-!
# The command line

Reads the settings file named by the first argument, if there is one, and
prints the report of `Journey.Program.run`.
-/

namespace Journey.Main

/-- Read a file. A file that is not there is told apart from other failures. -/
def readFile (file : String) : IO Settings.FileRead := do
  try
    let bytes ← IO.FS.readBinFile file
    return .content bytes.toList
  catch
    | .noFileOrDirectory .. => return .missing
    | e => return .failed (toString e)

end Journey.Main

open Journey in
def main (args : List String) : IO UInt32 := do
  let input ← args.head?.mapM fun file => do
    let read ← Main.readFile file
    return (file, read)
  match Program.run input with
  | .ok report =>
    IO.print report.stdout
    IO.eprint report.stderr
    return report.exitCode.toUInt32
  | .error fault =>
    IO.eprintln fault.message
    return Program.faultCode.toUInt32
