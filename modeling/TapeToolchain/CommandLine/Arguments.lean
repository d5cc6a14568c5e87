import TapeToolchain.Assembly.Emission

/-!
The arguments of the command line. There are two subcommands; each takes options with a value,
flags, and at most one plain argument. Short options may be written together, and a value may follow
its option directly, after an equals sign, or as the next argument. After `--` all arguments are
plain.
-/

namespace TapeToolchain.CommandLine

inductive Request where
  | version
  | help
  /-- Turns an instruction stream into assembly, or into an executable unless `assemblyOnly`. -/
  | assemble (target : String) (assemblyOnly strip : Bool) (style : RunStyle)
      (output input : String)
  /-- Compiles the self-hosted assembler. -/
  | bootstrap (target output : String)

inductive Subcommand where
  | asm
  | bootstrap
deriving DecidableEq

/-- An option that takes a value. -/
inductive Setting where
  | target
  | output
deriving DecidableEq

/-- An option without a value. -/
inductive Flag where
  | assemblyOnly
  | strip
  | runLength
deriving DecidableEq

inductive Meaning where
  | help
  | setting (setting : Setting)
  | flag (flag : Flag)

def Subcommand.short? : Subcommand → Char → Option Meaning
  | _, 'h' => some .help
  | _, 't' => some (.setting .target)
  | _, 'o' => some (.setting .output)
  | .asm, 'S' => some (.flag .assemblyOnly)
  | .asm, 's' => some (.flag .strip)
  | .asm, 'r' => some (.flag .runLength)
  | _, _ => none

def Subcommand.long? : Subcommand → String → Option Meaning
  | _, "help" => some .help
  | _, "target" => some (.setting .target)
  | .asm, "run-length" => some (.flag .runLength)
  | _, _ => none

/-- The number of plain arguments that a subcommand takes. -/
def Subcommand.plainCount : Subcommand → Nat
  | .asm => 1
  | .bootstrap => 0

/-- The options and arguments found so far, the last one first. A setting without a value is kept,
too. -/
structure Found where
  settings : List (Setting × Option String)
  flags : List Flag
  plain : List String

def Found.set (found : Found) (setting : Setting) (value : String) : Found :=
  { found with settings := (setting, some value) :: found.settings }

inductive Reading (α : Type) where
  /-- The arguments make no sense. -/
  | fault
  | help
  | done (result : α)

/-- Reads short options written together. The result names the setting whose value is still to come.
-/
def readCluster (c : Subcommand) (found : Found) : List Char → Reading (Found × Option Setting)
  | [] => .done (found, none)
  | letter :: rest =>
    match c.short? letter with
    | none => .fault
    | some .help => .help
    | some (.flag flag) => readCluster c { found with flags := flag :: found.flags } rest
    | some (.setting setting) =>
      match rest with
      | [] => .done (found, some setting)
      | '=' :: value => .done (found.set setting (String.ofList value), none)
      | value => .done (found.set setting (String.ofList value), none)

/-- Reads a long option, whose name and value are divided by the first equals sign. -/
def readLong (c : Subcommand) (found : Found) (text : List Char) :
    Reading (Found × Option Setting) :=
  let name := String.ofList (text.takeWhile (· ≠ '='))
  let value :=
    match text.dropWhile (· ≠ '=') with
    | [] => none
    | _ :: value => some (String.ofList value)
  match c.long? name, value with
  | none, _ => .fault
  | some .help, none => .help
  | some .help, some _ => .fault
  | some (.flag flag), none => .done ({ found with flags := flag :: found.flags }, none)
  | some (.flag _), some _ => .fault
  | some (.setting setting), none => .done (found, some setting)
  | some (.setting setting), some value => .done (found.set setting value, none)

/-- Notes that a setting was left without a value. -/
def Found.abandon (found : Found) : Option Setting → Found
  | none => found
  | some setting => { found with settings := (setting, none) :: found.settings }

/-- Adds a plain argument, if there is room for one. -/
def Found.addPlain (c : Subcommand) (found : Found) (text : String) : Option Found :=
  if found.plain.length < c.plainCount then some { found with plain := text :: found.plain }
  else none

def readPlain (c : Subcommand) (found : Found) : List String → Reading Found
  | [] => .done found
  | text :: rest =>
    match found.addPlain c text with
    | none => .fault
    | some found => readPlain c found rest

/-- Reads the arguments of a subcommand; `pending` is the setting whose value comes next. -/
def readArguments (c : Subcommand) (found : Found) (pending : Option Setting) :
    List String → Reading Found
  | [] => .done (found.abandon pending)
  | text :: rest =>
    match text.toList, pending with
    | ['-', '-'], _ => readPlain c (found.abandon pending) rest
    | '-' :: '-' :: long, _ =>
      match readLong c (found.abandon pending) long with
      | .fault => .fault
      | .help => .help
      | .done (found, pending) => readArguments c found pending rest
    | '-' :: letter :: letters, _ =>
      match readCluster c (found.abandon pending) (letter :: letters) with
      | .fault => .fault
      | .help => .help
      | .done (found, pending) => readArguments c found pending rest
    | _, some setting =>
      readArguments c (found.set setting text) none rest
    | _, none =>
      match found.addPlain c text with
      | none => .fault
      | some found => readArguments c found none rest

def Found.values (found : Found) (setting : Setting) : List (Option String) :=
  (found.settings.filter fun entry => entry.1 = setting).map (·.2)

/-- The value of a setting that may be left out. Giving it twice is a fault. -/
def Found.optional (found : Found) (setting : Setting) (default : String) : Option String :=
  match found.values setting with
  | [] => some default
  | [some value] => some value
  | _ => none

/-- The value of a setting that must be given, once. -/
def Found.required (found : Found) (setting : Setting) : Option String :=
  match found.values setting with
  | [some value] => some value
  | _ => none

/-- The request of a subcommand, if its arguments are complete and nothing is given twice. -/
def Found.request? (found : Found) (c : Subcommand) : Option Request := do
  let target ← found.optional .target "x86-64"
  let output ← found.required .output
  guard found.flags.Nodup
  match c, found.plain with
  | .asm, [input] =>
    let style := if found.flags.contains .runLength then .immediates else .plain
    return .assemble target (found.flags.contains .assemblyOnly) (found.flags.contains .strip) style
      output input
  | .bootstrap, [] => return .bootstrap target output
  | _, _ => none

def Subcommand.ofName? : String → Option Subcommand
  | "asm" => some .asm
  | "bootstrap" => some .bootstrap
  | _ => none

/-- The request that arguments make; nothing when they make no sense. -/
def Request.ofArguments? : List String → Option Request
  | [] => none
  | "--version" :: _ => some .version
  | "--help" :: _ => some .help
  | "help" :: [] => some .help
  | "help" :: name :: [] => (Subcommand.ofName? name).map fun _ => .help
  | text :: rest =>
    match text.toList with
    | '-' :: 'V' :: _ => some .version
    | '-' :: 'h' :: _ => some .help
    | _ => do
      let c ← Subcommand.ofName? text
      match readArguments c ⟨[], [], []⟩ none rest with
      | .fault => none
      | .help => some .help
      | .done found => found.request? c

end TapeToolchain.CommandLine
