import TapeToolchain.CommandLine.Outcome

/-!
The program: the command line with the files and streams of the operating system.
-/

namespace TapeToolchain.CommandLine

/-- The cause of a failed system call. Error codes come with either sign, in 32 bits. -/
def causeOf : IO.Error → Cause
  | .noFileOrDirectory .. => .notFound
  | .inappropriateType _ code _ =>
    if code = 21 ∨ code = 0 - 21 then .isDirectory else .notDirectory
  | e@(.invalidArgument _ code _) =>
    if code = 36 ∨ code = 0 - 36 then .nameTooLong else .other (toString e)
  | .permissionDenied .. => .other "Permission denied (os error 13)"
  | e => .other (toString e)

def operatingSystem : Surroundings IO where
  read
    | .standard => do
      let stdin ← IO.getStdin
      try
        return .ok (← stdin.readBinToEnd)
      catch e => return .error (causeOf e)
    | .file path => do
      try
        return .ok (← IO.FS.readBinFile path)
      catch e => return .error (causeOf e)
  save path text := do
    try
      IO.FS.writeFile path text
      return .ok ()
    catch e => return .error (causeOf e)

end TapeToolchain.CommandLine

def main (arguments : List String) : IO UInt32 := do
  let outcome ← TapeToolchain.CommandLine.operatingSystem.run arguments
  (← IO.getStdout).putStr outcome.stdout
  (← IO.getStderr).putStr outcome.stderr
  return outcome.exitCode.toUInt32
