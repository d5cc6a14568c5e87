import TapeToolchain.CommandLine.Arguments
import TapeToolchain.Compiler
import TapeToolchain.SelfHosting.Assembler
import TapeToolchain.Source.Diagnostics

/-!
What the command line does with a request: choose the target, read the input, and make a product,
which is printed, saved, or a failure. Reading and writing themselves are left to the surroundings.
-/

namespace TapeToolchain.CommandLine

/-- Why the surroundings refuse to read or write. -/
inductive Cause where
  | notFound
  | isDirectory
  | notDirectory
  | nameTooLong
  | invalidText
  | other (text : String)

def Cause.text : Cause → String
  | notFound => "No such file or directory (os error 2)"
  | isDirectory => "Is a directory (os error 21)"
  | notDirectory => "Not a directory (os error 20)"
  | nameTooLong => "File name too long (os error 36)"
  | invalidText => "stream did not contain valid UTF-8"
  | other text => text

structure Failure where
  message : String
  cause : Option Cause := none

def Failure.render (f : Failure) : String :=
  let cause :=
    match f.cause with
    | none => ""
    | some cause => "\nCaused by:\n    " ++ cause.text ++ "\n"
  "Error: " ++ f.message ++ "\n" ++ cause

/-- Where an instruction stream is read from. -/
inductive Input where
  | standard
  | file (path : String)

def Input.ofArgument (text : String) : Input :=
  if text = "-" then .standard else .file text

/-- The name of the input in messages. -/
def Input.name : Input → String
  | standard => "<stdin>"
  | file path => path

/-- The text of the bytes that were read, or the failure to read them. -/
def Input.decode (input : Input) (bytes : Except Cause ByteArray) : Except Failure String :=
  let message :=
    match input with
    | standard => "Failed to read from stdin"
    | file path => "Failed to read: " ++ path
  match bytes with
  | .error cause => .error ⟨message, some cause⟩
  | .ok bytes =>
    match String.fromUTF8? bytes with
    | some text => .ok text
    | none => .error ⟨message, some .invalidText⟩

def targetNamed (text : String) : Except Failure Target :=
  match Target.ofName? text with
  | some target => .ok target
  | none => .error { message := Target.unknownMessage text }

/-- What comes of a job, before it is written anywhere. -/
inductive Product where
  | printed (text : String)
  | saved (path text : String)
  /-- A failure, and what is shown before it. -/
  | failed (notes : String) (failure : Failure)
  /-- Nothing: the program breaks off. -/
  | aborted

/-- Puts a text where the output argument says. -/
def Product.deliver (output text : String) : Product :=
  if output = "-" then .printed text else .saved output text

/-- Shows a report and gives up. -/
def Product.reported (d : Diagnostics) : Product :=
  match d.render? with
  | some report => .failed report { message := "Aborting due to previous errors" }
  | none => .aborted

/-- Turns an instruction stream into assembly. Executables are not made here. -/
def assembleProduct (target : Target) (assemblyOnly : Bool) (style : RunStyle) (output : String)
    (source : Source) : Product :=
  match source.program with
  | .error errors => .reported (.ofBracketErrors source errors)
  | .ok program =>
    if assemblyOnly then .deliver output (program.assembly target style)
    else if output = "-" then .failed "" { message := "Refusing to write executable to stdout" }
    else .failed "" { message := "Failed to link", cause := some (.other "No linker is available") }

def bootstrapProduct (target : Target) (output : String) : Product :=
  match (do compile {} (← SelfHosting.assembler target) "main") with
  | .error cause => .reported { Diagnostics.ofCompileError cause with kind := "compile error" }
  | .ok listing => .deliver output listing.render

/-- What the command line leaves behind. -/
structure Outcome where
  exitCode : UInt8
  stdout : String
  stderr : String

def Outcome.success (stdout : String) : Outcome :=
  ⟨0, stdout, ""⟩

def Outcome.failure (notes : String) (f : Failure) : Outcome :=
  ⟨1, "", notes ++ f.render⟩

/-- A report that cannot be laid out breaks the program off. -/
def Outcome.aborted : Outcome :=
  ⟨101, "", "Formatting argument out of range\n"⟩

def cannotWrite (path : String) (cause : Cause) : Failure :=
  ⟨"Failed to open for writing: " ++ path, some cause⟩

/-- The outcome of arguments that make no sense. -/
def Outcome.usage : Outcome :=
  ⟨2, "", "error: invalid arguments\n\nFor more information try --help\n"⟩

def versionText : String :=
  "abfc 1.0.0\n"

def helpText : String :=
  "abfc 1.0.0\n" ++
  "Macro compiler and assembler backend for an eight-instruction tape machine\n\n" ++
  "USAGE:\n" ++
  "    abfc asm [-t ARCH] [-S] [-s] [-r] -o FILE INPUT\n" ++
  "    abfc bootstrap [-t ARCH] -o FILE\n"

/-- What the surroundings have to offer: ways to read the inputs and to write a file. -/
structure Surroundings (m : Type → Type) where
  read : Input → m (Except Cause ByteArray)
  save : (path text : String) → m (Except Cause Unit)

section
variable {m : Type → Type} [Monad m]

def Surroundings.settle (s : Surroundings m) : Product → m Outcome
  | .printed text => return .success text
  | .failed notes failure => return .failure notes failure
  | .aborted => return .aborted
  | .saved path text => do
    match ← s.save path text with
    | .ok () => return .success ""
    | .error cause => return .failure "" (cannotWrite path cause)

/-- Does what is asked for. The target is looked at before the input is read, and the output file is
created only when there is something to write. -/
def Surroundings.perform (s : Surroundings m) : Request → m Outcome
  | .version => return .success versionText
  | .help => return .success helpText
  | .assemble target assemblyOnly _ style output input =>
    match targetNamed target with
    | .error failure => return .failure "" failure
    | .ok target => do
      let input := Input.ofArgument input
      match input.decode (← s.read input) with
      | .error failure => return .failure "" failure
      | .ok text =>
        s.settle (assembleProduct target assemblyOnly style output ⟨input.name, text⟩)
  | .bootstrap target output =>
    match targetNamed target with
    | .error failure => return .failure "" failure
    | .ok target => s.settle (bootstrapProduct target output)

def Surroundings.run (s : Surroundings m) (arguments : List String) : m Outcome :=
  match Request.ofArguments? arguments with
  | none => return .usage
  | some request => s.perform request

end

end TapeToolchain.CommandLine
