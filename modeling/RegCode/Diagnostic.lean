import RegCode.Message
import RegCode.Terminal
import RegCode.Text.Distance

/-! Diagnostics about methods: their codes, levels, wording and text. -/
namespace RegCode

/-- Language and colours of all output. -/
structure Voice where
  language : Language := .english
  colours : Bool := false
  deriving DecidableEq, Repr, Inhabited

def Voice.say (v : Voice) (m : Message) (args : List Arg) : String := m.text v.language args

inductive Level where
  | error | warning | note | unknown
  deriving DecidableEq, Repr, Inhabited

namespace Level

def name : Level → String
  | error => "error" | warning => "warning" | note => "note" | unknown => "unknown"

def colour : Level → Terminal.Colour
  | error => .boldRed | warning => .boldYellow | note => .cyan | unknown => .white

end Level

/-- What can be wrong with a method: its code is malformed, breaks an invariant or is not supported;
or its text has jumps to labels, unknown members or overlapping protected code. -/
inductive Code where
  | malformed | invariant | unsupported | residualGoto | unresolved | overlappingTry
  deriving DecidableEq, Repr, Inhabited

namespace Code

def all : List Code := [malformed, invariant, unsupported, residualGoto, unresolved, overlappingTry]

def name : Code → String
  | malformed => "D0001" | invariant => "D0002" | unsupported => "D0003"
  | residualGoto => "W0001" | unresolved => "W0002" | overlappingTry => "W0003"

def ofName? (name : String) : Option Code := all.find? (·.name == name)

def level : Code → Level
  | malformed | invariant | unsupported => .error
  | residualGoto | unresolved | overlappingTry => .warning

def message : Code → Message
  | malformed => .malformed | invariant => .invariant | unsupported => .unsupported
  | residualGoto => .residualGoto | unresolved => .unresolved | overlappingTry => .overlappingTry

def hint? : Code → Option Message
  | malformed => some .hintMalformed
  | invariant => some .hintInvariant
  | unsupported => some .hintUnsupported
  | residualGoto => some .hintResidualGoto
  | unresolved => some .hintUnresolved
  | overlappingTry => none

def category : Code → String
  | malformed | unsupported => "bytecode"
  | invariant => "internal"
  | residualGoto | overlappingTry => "structure"
  | unresolved => "reference"

end Code

structure Diagnostic where
  code : String
  level : Level
  message : String
  owner : String
  method : String
  hints : List String := []
  notes : List String := []
  deriving DecidableEq, Repr, Inhabited

/-- Facts that lead to further hints. -/
structure Clues where
  irreducible : Option Int := none
  name : String := ""
  candidates : List String := []
  deriving DecidableEq, Repr, Inhabited

def messageOfCode (v : Voice) (code : String) (args : List Arg) : String :=
  match Code.ofName? code with
  | some c => v.say c.message args
  | none => code

namespace Diagnostic

def ofCode (v : Voice) (code owner method : String) (args : List Arg) : Diagnostic :=
  let known := Code.ofName? code
  { code
    level := (known.map Code.level).getD .error
    message := messageOfCode v code args
    owner
    method
    hints := ((known.bind Code.hint?).map fun m => v.say m []).toList }

def place (d : Diagnostic) : String := if d.method = "" then d.owner else d.method

def text (d : Diagnostic) : String :=
  d.level.name ++ "[" ++ d.code ++ "] " ++ d.place ++ ": " ++ d.message

def suggestions (v : Voice) (code : String) (c : Clues) : List String :=
  match Code.ofName? code with
  | some .residualGoto => if c.irreducible = some 0 then [v.say .hintLoopPolicy []] else []
  | some .unresolved =>
    if c.name = "" then []
    else
      match Text.nearest? c.name 2 c.candidates with
      | some "" | none => []
      | some similar => [v.say .hintDidYouMean [.text similar]]
  | _ => []

end Diagnostic

/-- How diagnostics are written. -/
structure ReportStyle where
  colours : Bool
  hints : Bool := true
  deriving DecidableEq, Repr, Inhabited

namespace ReportStyle

open Terminal (Colour)

def placeLine (paint : Colour → String → String) (place : String) : String :=
  if place = "" then "" else " " ++ paint .cyan "-->" ++ " " ++ paint .cyan place ++ "\n"

def remark (paint : Colour → String → String) (word text : String) : String :=
  paint .cyan (" = " ++ word ++ ":") ++ " " ++ text ++ "\n"

def diagnostic (s : ReportStyle) (v : Voice) (d : Diagnostic) : String :=
  let paint := Colour.paint (s.colours && v.colours)
  paint d.level.colour d.level.name ++ paint d.level.colour ("[" ++ d.code ++ "]") ++ ": " ++
    paint .boldWhite d.message ++ "\n" ++ placeLine (fun c => paint c) d.place ++
    (if s.hints then String.join (d.hints.map (remark (fun c => paint c) "help")) else "") ++
    String.join (d.notes.map (remark (fun c => paint c) "note"))

def summary (s : ReportStyle) (v : Voice) (errors warnings : Nat) : String :=
  let text := v.say .summary [.num errors, .num warnings]
  let paint := Colour.paint (s.colours && v.colours)
  if errors > 0 then paint .red text else if warnings > 0 then paint .yellow text else text

end ReportStyle

/-- Diagnostics in order of arrival; everything that is not an error counts as a warning. -/
structure Reporter where
  style : ReportStyle
  quiet : Bool := false
  errors : List Diagnostic := []
  warnings : List Diagnostic := []
  output : String := ""
  deriving DecidableEq, Repr, Inhabited

namespace Reporter

def new (v : Voice) : Reporter := { style := { colours := v.colours } }

def report (v : Voice) (r : Reporter) (d : Diagnostic) : Reporter :=
  let r :=
    if d.level = .error then { r with errors := r.errors ++ [d] }
    else { r with warnings := r.warnings ++ [d] }
  if r.quiet then r else { r with output := r.output ++ r.style.diagnostic v d }

def warn (v : Voice) (r : Reporter) (code owner method : String) (clues : Clues) (args : List Arg) :
    Reporter :=
  let d := Diagnostic.ofCode v code owner method args
  r.report v { d with hints := d.hints ++ Diagnostic.suggestions v code clues }

def methodError (v : Voice) (r : Reporter) (code owner method cause : String) : Reporter :=
  r.report v (Diagnostic.ofCode v code owner method [.text cause])

def summary (v : Voice) (r : Reporter) : String :=
  r.style.summary v r.errors.length r.warnings.length

def clear (r : Reporter) : Reporter := { r with errors := [], warnings := [] }

def drain (r : Reporter) : String × Reporter := (r.output, { r with output := "" })

end Reporter

end RegCode
