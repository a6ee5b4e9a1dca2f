import RegCode.Text.Quoted
import RegCode.Text.Cut

/-! Options of the command line. They come before the paths, with one dash or two, and take their
value after an equals sign or from the next word. -/
namespace RegCode.Command

structure Options where
  owner : String := ""
  method : String := ""
  all : Bool := false
  showCode : Bool := false
  interactive : Bool := false
  verbose : Bool := false
  stats : Bool := false
  format : String := ""
  configPath : String := ""
  language : String := ""
  initConfig : Bool := false
  version : Bool := false
  deriving DecidableEq, Repr, Inhabited

/-- What an option holds, and how it is set. -/
inductive OptionSlot where
  | flag (set : Options → Bool → Options)
  | word (set : Options → String → Options)

structure OptionSpec where
  name : String
  help : String
  slot : OptionSlot

/-- All options by name. -/
def specs : List OptionSpec :=
  [⟨"all", "decompile every method of the selected classes", .flag fun o b => { o with all := b }⟩,
    ⟨"bytecode", "print the disassembled bytecode before the source (with -method)",
      .flag fun o b => { o with showCode := b }⟩,
    ⟨"class", "class name or fragment to decompile", .word fun o s => { o with owner := s }⟩,
    ⟨"config", "configuration file (default: nearest dexdec.toml)",
      .word fun o s => { o with configPath := s }⟩,
    ⟨"format", "output format: java or json (overrides config)",
      .word fun o s => { o with format := s }⟩,
    ⟨"i", "interactive class and method picker", .flag fun o b => { o with interactive := b }⟩,
    ⟨"init-config", "write a default dexdec.toml to the current directory",
      .flag fun o b => { o with initConfig := b }⟩,
    ⟨"lang", "message language: en or zh", .word fun o s => { o with language := s }⟩,
    ⟨"method", "method index or name to decompile (requires -class)",
      .word fun o s => { o with method := s }⟩,
    ⟨"stats", "print run statistics and per-stage timings", .flag fun o b => { o with stats := b }⟩,
    ⟨"v", "verbose logging", .flag fun o b => { o with verbose := b }⟩,
    ⟨"version", "print version", .flag fun o b => { o with version := b }⟩]

def OptionSpec.usage (s : OptionSpec) : String :=
  let head := "  -" ++ s.name ++ match s.slot with
    | .flag _ => ""
    | .word _ => " string"
  head ++ (if head.utf8ByteSize ≤ 4 then "\t" else "\n    \t") ++ s.help ++ "\n"

def optionHelp : String := String.join (specs.map OptionSpec.usage)

/-- Why options cannot be followed. -/
inductive OptionFault where
  | help
  | malformed (word : String)
  | unknown (name : String)
  | noValue (name : String)
  | notBoolean (name value : String)
  deriving DecidableEq, Repr

def OptionFault.message? : OptionFault → Option String
  | help => none
  | malformed w => some ("bad flag syntax: " ++ w)
  | unknown n => some ("flag provided but not defined: -" ++ n)
  | noValue n => some ("flag needs an argument: -" ++ n)
  | notBoolean n v =>
    some ("invalid boolean value " ++ Text.Quoted.encode v ++ " for -" ++ n ++ ": parse error")

def readBool? (s : String) : Option Bool :=
  if ["1", "t", "T", "TRUE", "true", "True"].contains s then some true
  else if ["0", "f", "F", "FALSE", "false", "False"].contains s then some false
  else none

def splitValue (body : List Char) : String × Option String :=
  match body with
  | [] => ("", none)
  | c :: cs =>
    match Text.cutWhere? (· == '=') cs with
    | some (a, _, b) => (String.ofList (c :: a), some (String.ofList b))
    | none => (String.ofList (c :: cs), none)

def optionBody? (word : String) : Option (List Char) :=
  match word.toList with
  | '-' :: '-' :: body => some body
  | '-' :: c :: body => some (c :: body)
  | _ => none

/-- Options and the paths after them. -/
def parse (o : Options) : List String → Except OptionFault (Options × List String)
  | [] => .ok (o, [])
  | word :: rest =>
    match optionBody? word with
    | none => .ok (o, word :: rest)
    | some body =>
      if word = "--" then .ok (o, rest)
      else if body.isEmpty ∨ body.head? = some '-' ∨ body.head? = some '=' then
        .error (.malformed word)
      else
        let (name, value) := splitValue body
        match specs.find? (·.name == name) with
        | none => .error (if name = "help" ∨ name = "h" then .help else .unknown name)
        | some spec =>
          match spec.slot, value, rest with
          | .flag set, none, rest => parse (set o true) rest
          | .flag set, some v, rest =>
            match readBool? v with
            | some b => parse (set o b) rest
            | none => .error (.notBoolean name v)
          | .word set, some v, rest => parse (set o v) rest
          | .word set, none, v :: rest => parse (set o v) rest
          | .word _, none, [] => .error (.noValue name)

end RegCode.Command
