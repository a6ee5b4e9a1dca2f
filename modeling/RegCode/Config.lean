import RegCode.Chains.Propagation
import RegCode.Layout.Line
import RegCode.Recovery.Policy
import RegCode.Toml

/-! Settings of a run. -/
namespace RegCode

structure Config where
  splitLifetimes : Bool := true
  propagate : Bool := true
  fold : Bool := true
  rounds : Int := 0
  dumpStages : Bool := false
  loopPolicy : String := "pretest-first"
  handlerOrder : String := "table"
  indent : Int := 4
  format : String := "java"
  showCode : Bool := false
  workers : Int := 0
  language : String := "en"
  cacheDir : String := ""
  deriving DecidableEq, Repr, Inhabited

inductive ConfigFault where
  | document (fault : Toml.Fault)
  | loopPolicy (fault : PolicyFault)
  | handlerOrder (fault : PolicyFault)
  | unknownFormat (name : String)
  | negativeIndent
  deriving DecidableEq, Repr

def ConfigFault.message : ConfigFault → String
  | document f => "failed to parse config file: " ++ f.message
  | loopPolicy f => "structure.loop_policy: " ++ f.message
  | handlerOrder f => "structure.handler_order: " ++ f.message
  | unknownFormat name => "output.format: unknown format " ++ Text.Quoted.encode name
  | negativeIndent => "output.indent_size: must not be negative"

namespace Config

def validate (c : Config) : Except ConfigFault Config := do
  match LoopPolicy.ofName c.loopPolicy with
  | .error f => throw (.loopPolicy f)
  | .ok _ => pure ()
  match HandlerOrder.ofName c.handlerOrder with
  | .error f => throw (.handlerOrder f)
  | .ok _ => pure ()
  if c.format ≠ "java" ∧ c.format ≠ "json" then throw (.unknownFormat c.format)
  if c.indent < 0 then throw .negativeIndent
  return c

def isJson (c : Config) : Bool := c.format == "json"

def policy (c : Config) : Policy :=
  { loop := (LoopPolicy.ofName c.loopPolicy).toOption.getD .pretestFirst
    handlers := (HandlerOrder.ofName c.handlerOrder).toOption.getD .table }

def propagateOptions (c : Config) : PropagateOptions := ⟨c.fold, c.rounds⟩

def layout (c : Config) : Layout.Options :=
  { indent := if c.indent > 0 then c.indent.toNat else 4
    showCode := c.showCode }

def truthText (b : Bool) : String := if b then "true" else "false"

def fingerprint (c : Config) : String :=
  "split=" ++ truthText c.splitLifetimes ++ " prop=" ++ truthText c.propagate ++
    " fold=" ++ truthText c.fold ++ " rounds=" ++ Text.intText c.rounds ++
    " loop=" ++ c.loopPolicy ++ " handlers=" ++ c.handlerOrder ++
    " indent=" ++ Text.intText c.indent ++ " bc=" ++ truthText c.showCode

/-- The settings as a commented file. -/
def fileText (c : Config) : String :=
  let flag (key : String) (b : Bool) : String := key ++ " = " ++ truthText b ++ "\n"
  let number (key : String) (n : Int) : String := key ++ " = " ++ Text.intText n ++ "\n"
  let word (key s : String) : String := key ++ " = " ++ Text.Quoted.encode s ++ "\n"
  "[pipeline]\n# 按定义-使用网拆分寄存器变量\n" ++ flag "split_variables" c.splitLifetimes ++
    "# 把单次使用的表达式替换进使用处\n" ++ flag "propagate" c.propagate ++
    flag "fold_constants" c.fold ++ "# 0 表示直到不动点\n" ++
    number "max_propagation_rounds" c.rounds ++ "# 在 debug 日志中输出各阶段的图\n" ++
    flag "dump_stages" c.dumpStages ++
    "\n[structure]\n# pretest-first | posttest-first\n" ++ word "loop_policy" c.loopPolicy ++
    "# table | catch-all-last\n" ++ word "handler_order" c.handlerOrder ++
    "\n[output]\n" ++ number "indent_size" c.indent ++ "# java | json\n" ++ word "format" c.format ++
    flag "show_bytecode" c.showCode ++
    "\n[run]\n# 0 表示 CPU 数\n" ++ number "workers" c.workers ++ "# en | zh\n" ++
    word "language" c.language ++
    "\n[cache]\n# 为空表示不使用缓存\n" ++ word "dir" c.cacheDir

end Config

end RegCode
