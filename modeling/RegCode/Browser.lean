import RegCode.Terminal
import RegCode.Workspace

/-! Browsing classes and methods line by line. First a class is chosen, then methods of it; an empty
line leads back, and out of the choice of classes. -/
namespace RegCode

structure Browser where
  work : Workspace
  highlight : Bool := false
  selected : Option Class := none
  history : List String := []
  deriving Inhabited

namespace Browser

def classLine (c : Class) : String := "  " ++ c.name ++ "\n"

def methodLine (index : Nat) (m : Method) (mark : String) : String :=
  "  [" ++ Text.natText index ++ "] " ++ m.name ++ m.descriptor ++ mark ++ "\n"

def classList (w : Workspace) : String :=
  w.voice.say .classList [] ++ "\n" ++ String.join (w.classes.map classLine)

def methodList (w : Workspace) (c : Class) (mark : Nat → String) : String :=
  w.voice.say .methodList [.text c.name] ++ "\n" ++
    String.join (c.methods.zipIdx.map fun (m, i) => methodLine i m (mark i))

def question (b : Browser) : String :=
  match b.selected with
  | none => classList b.work ++ b.work.voice.say .promptClass []
  | some c =>
    methodList b.work c (fun i => if b.work.isDone c i then " *" else "") ++
      b.work.voice.say .promptMethod []

def help : String :=
  "Available commands:\n" ++
    "  :help, :h, :?     Show this help message\n" ++
    "  :history, :hist   Show selection history\n\n" ++
    "  *                 Select everything at this level\n" ++
    "  <empty line>      Go back (quit at the class prompt)\n"

def historyText (history : List String) : String :=
  String.join (history.zipIdx.map fun (line, i) =>
    Text.padLeft 4 (Text.natText (i + 1)) ++ "  " ++ line ++ "\n")

def remember (b : Browser) (line : String) : Browser :=
  if b.history.getLast? = some line then b
  else
    let all := b.history ++ [line]
    { b with history := all.drop (all.length - 1000) }

def command (b : Browser) (line : String) : String :=
  match Text.lower line with
  | ":help" | ":h" | ":?" => help
  | ":history" | ":hist" => historyText b.history
  | _ => "Unknown command: " ++ line ++ "\nType :help for available commands.\n"

def shown (b : Browser) (text : String) : String :=
  if b.highlight then Terminal.highlight b.work.voice.colours text else text

def showing (b : Browser) (work : Working String) : String × Option Browser :=
  let (text, w) := work.run b.work
  (b.shown text, some { b with work := w })

def chooseClass (b : Browser) (selector : String) : String × Option Browser :=
  match b.work.class? selector with
  | some c => ("", some { b with selected := some c })
  | none =>
    match b.work.image.find selector with
    | [] => (b.work.voice.say .classNotFound [.text selector] ++ "\n", some b)
    | [c] => ("", some { b with selected := some c })
    | found =>
      (b.work.voice.say .invalidSelector [.text selector] ++ "\n" ++
        String.join (found.map classLine), some b)

def chooseMethod (b : Browser) (c : Class) (selector : String) : String × Option Browser :=
  match Workspace.findMethod c selector with
  | (_, false) => (b.work.voice.say .methodNotFound [.text selector] ++ "\n", some b)
  | (i, true) =>
    let (result, w) := (Workspace.renderMethod c i).run b.work
    let b := { b with work := w }
    match result with
    | .ok text => (b.shown text, some b)
    | .error f => ("Error: " ++ f.message ++ "\n", some b)

/-- Answer to a line; the browser is gone when the line leads out. -/
def answer (b : Browser) (line : String) : String × Option Browser :=
  let line := Text.trim line
  if line = "" then
    match b.selected with
    | none => ("", none)
    | some _ => ("", some { b with selected := none })
  else
    let b := b.remember line
    if Text.startsWith ":" line then (b.command line, some b)
    else
      match b.selected with
      | none =>
        if line = "*" then
          b.showing (do return String.join (← (← get).topLevel.mapM Workspace.render))
        else b.chooseClass line
      | some c => if line = "*" then b.showing (Workspace.render c) else b.chooseMethod c line

def transcript (b : Browser) : List String → String
  | [] => b.question ++ "\n"
  | line :: rest =>
    b.question ++
      match b.answer line with
      | (text, some b) => text ++ b.transcript rest
      | (text, none) => text

end Browser

end RegCode
