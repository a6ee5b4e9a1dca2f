import RegCode.Text.Quoted

/-! Choices left open when graphs become trees. -/
namespace RegCode

/-- Which form wins for a loop that can be written with its test first or last. -/
inductive LoopPolicy where
  | pretestFirst | posttestFirst
  deriving DecidableEq, Repr, Inhabited

/-- Order of the catch clauses: that of the table, or with the catch-all moved to the end. -/
inductive HandlerOrder where
  | table | catchAllLast
  deriving DecidableEq, Repr, Inhabited

structure Policy where
  loop : LoopPolicy := .pretestFirst
  handlers : HandlerOrder := .table
  deriving DecidableEq, Repr, Inhabited

inductive PolicyFault where
  | unknownLoop (name : String)
  | unknownOrder (name : String)
  deriving DecidableEq, Repr

def PolicyFault.message : PolicyFault → String
  | unknownLoop name => "unknown loop policy " ++ Text.Quoted.encode name
  | unknownOrder name => "unknown handler order " ++ Text.Quoted.encode name

def LoopPolicy.name : LoopPolicy → String
  | pretestFirst => "pretest-first"
  | posttestFirst => "posttest-first"

def LoopPolicy.ofName (name : String) : Except PolicyFault LoopPolicy :=
  match name with
  | "" | "pretest-first" => .ok .pretestFirst
  | "posttest-first" => .ok .posttestFirst
  | _ => .error (.unknownLoop name)

def HandlerOrder.name : HandlerOrder → String
  | table => "table"
  | catchAllLast => "catch-all-last"

def HandlerOrder.ofName (name : String) : Except PolicyFault HandlerOrder :=
  match name with
  | "" | "table" => .ok .table
  | "catch-all-last" => .ok .catchAllLast
  | _ => .error (.unknownOrder name)

def Policy.ofNames (loop handlers : String) : Except PolicyFault Policy := do
  return { loop := ← LoopPolicy.ofName loop, handlers := ← HandlerOrder.ofName handlers }

end RegCode
