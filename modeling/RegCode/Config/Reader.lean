import RegCode.Config
import RegCode.Decimal
import RegCode.Text.Lowercase
import RegCode.Toml.Keys
import RegCode.Toml.Reader

/-! Settings from a file. A key that is not known is skipped, and so are all pairs of a table that is
not known. -/
namespace RegCode

open Toml (Fault Statement Value)

/-- What a setting holds, and how it is changed. -/
inductive SettingSlot where
  | flag (set : Config → Bool → Config)
  | number (set : Config → Int → Config)
  | word (set : Config → String → Config)

/-- A setting: its table and key, and its full name with its type, for messages. -/
structure Setting where
  table : String
  key : String
  field : String
  slot : SettingSlot

namespace Setting

def all : List Setting :=
  [⟨"pipeline", "split_variables", "PipelineConfig.SplitVariables",
      .flag fun c b => { c with splitLifetimes := b }⟩,
    ⟨"pipeline", "propagate", "PipelineConfig.Propagate", .flag fun c b => { c with propagate := b }⟩,
    ⟨"pipeline", "fold_constants", "PipelineConfig.FoldConstants",
      .flag fun c b => { c with fold := b }⟩,
    ⟨"pipeline", "max_propagation_rounds", "PipelineConfig.MaxPropagationRounds",
      .number fun c n => { c with rounds := n }⟩,
    ⟨"pipeline", "dump_stages", "PipelineConfig.DumpStages",
      .flag fun c b => { c with dumpStages := b }⟩,
    ⟨"structure", "loop_policy", "StructureConfig.LoopPolicy",
      .word fun c s => { c with loopPolicy := s }⟩,
    ⟨"structure", "handler_order", "StructureConfig.HandlerOrder",
      .word fun c s => { c with handlerOrder := s }⟩,
    ⟨"output", "indent_size", "OutputConfig.IndentSize", .number fun c n => { c with indent := n }⟩,
    ⟨"output", "format", "OutputConfig.Format", .word fun c s => { c with format := s }⟩,
    ⟨"output", "show_bytecode", "OutputConfig.ShowBytecode",
      .flag fun c b => { c with showCode := b }⟩,
    ⟨"run", "workers", "RunConfig.Workers", .number fun c n => { c with workers := n }⟩,
    ⟨"run", "language", "RunConfig.Language", .word fun c s => { c with language := s }⟩,
    ⟨"cache", "dir", "CacheConfig.Dir", .word fun c s => { c with cacheDir := s }⟩]

def type (s : Setting) : String :=
  match s.slot with
  | .flag _ => "bool" | .number _ => "int" | .word _ => "string"

def target (s : Setting) : String := "config." ++ s.field ++ " of type " ++ s.type

def tables : List String := ["pipeline", "structure", "output", "run", "cache"]

def tableTarget (t : String) : String :=
  let name := match t.toList with
    | [] => ""
    | c :: cs => String.ofList (c.toUpper :: cs)
  "config.Config." ++ name ++ " of type config." ++ name ++ "Config"

end Setting

namespace Config

def cleanNumeral (numeral : String) : Except Fault String :=
  let digits := (Text.splitSign numeral.toList).2
  if digits.isEmpty then .ok numeral
  else if digits.head? = some '_' then .error .underscoreFirst
  else if digits.getLast? = some '_' then .error .underscoreLast
  else if Text.hasInfix "__" numeral then .error .underscoreTwice
  else .ok (String.ofList (numeral.toList.filter (· ≠ '_')))

def readNumeral (kind numeral : String) (base : Nat) : Except Fault Int :=
  match Text.readSignedIn base numeral with
  | .value n => .ok n
  | .beyond _ => .error (.badNumber kind numeral true)
  | .malformed => .error (.badNumber kind numeral false)

def readInteger (numeral : String) : Except Fault Int := do
  match numeral.toList with
  | '0' :: 'x' :: c :: cs =>
    readNumeral "hexadecimal" (← cleanNumeral (String.ofList (c :: cs))) 16
  | '0' :: 'o' :: c :: cs => readNumeral "octal" (← cleanNumeral (String.ofList (c :: cs))) 8
  | '0' :: 'b' :: c :: cs => readNumeral "binary" (← cleanNumeral (String.ofList (c :: cs))) 2
  | _ =>
    let cleaned ← cleanNumeral numeral
    match (Text.splitSign cleaned.toList).2 with
    | '0' :: _ :: _ => throw .leadingZero
    | _ => readNumeral "decimal" cleaned 10

/-- A real numeral without the underscores between its digits; `before` says that a digit has come
since the last underscore or sign. -/
def cleanRealAfter (before : Bool) (last : Option Char) : List Char → Except Fault (List Char)
  | [] => .ok []
  | c :: cs =>
    let next := cs.head?
    if c = '_' then
      if !before then .error .underscoreTwice
      else if next = some 'e' ∨ next = some 'E' then .error .underscoreBeforeExponent
      else cleanRealAfter false (some c) cs
    else if c = '+' ∨ c = '-' then (cleanRealAfter false (some c) cs).map (c :: ·)
    else if c = 'e' ∨ c = 'E' then
      if next = some '_' then .error .underscoreAfterExponent
      else (cleanRealAfter before (some c) cs).map (c :: ·)
    else if c = '.' then
      if next = some '_' then .error .underscoreAfterPoint
      else if last = some '_' then .error .underscoreBeforePoint
      else (cleanRealAfter before (some c) cs).map (c :: ·)
    else (cleanRealAfter true (some c) cs).map (c :: ·)

def cleanReal (cs : List Char) : Except Fault (List Char) :=
  if cs.head? = some '_' then .error .underscoreFirst
  else if cs.getLast? = some '_' then .error .underscoreLast
  else if cs.contains '_' then cleanRealAfter false none cs
  else .ok cs

def checkPoints (seen : Bool) (last : Option Char) : List Char → Except Fault Unit
  | [] => .ok ()
  | c :: cs =>
    if c ≠ '.' then checkPoints seen (some c) cs
    else if seen then .error .pointTwice
    else if !last.any Text.isDecimalDigit then .error .pointNotAfterDigit
    else if !cs.head?.any Text.isDecimalDigit then .error .pointNotBeforeDigit
    else checkPoints true (some c) cs

def checkReal (numeral : String) : Except Fault Unit := do
  if numeral = "+nan" ∨ numeral = "-nan" then return ()
  let cs ← cleanReal numeral.toList
  if cs.head? = some '.' then throw .pointFirst
  if cs.getLast? = some '.' then throw .pointLast
  checkPoints false none cs
  match (Text.splitSign cs).2 with
  | '0' :: c :: _ => if Text.isDecimalDigit c then throw .realLeadingZero
  | _ => pure ()
  let cleaned := String.ofList cs
  match Decimal.read Decimal.double cleaned with
  | .ok _ => return ()
  | .error f => throw (.badReal cleaned (f == .beyond))

def refuse (target kind : String) : Value → Except Fault Fault
  | .string _ => .ok (.mismatch "string" target)
  | .integer n => (readInteger n).map fun _ => .mismatch "integer" target
  | .float x => (checkReal x).map fun _ => .wrongFloat kind
  | .boolean b => .ok (.wrongBoolean b)
  | .moment k cs => (k.check cs).map fun _ => .mismatch k.name target
  | .array _ => .ok (.mismatch "array" target)
  | .table _ => .ok (.wrongInlineTable kind)

def assign (c : Config) (s : Setting) (v : Value) : Except Fault Config :=
  match s.slot, v with
  | .flag set, .boolean b => .ok (set c b)
  | .number set, .integer n => (readInteger n).map (set c)
  | .word set, .string t => .ok (set c t)
  | _, v => (refuse s.target s.type v).bind .error

/-- Where a key leads: to all settings, to those of a table, to one, or nowhere. -/
inductive Place where
  | root
  | table (name : String)
  | setting (s : Setting)
  | nowhere

namespace Place

def child (p : Place) (name : String) : Place :=
  let name := Text.lower name
  match p with
  | root => if Setting.tables.contains name then table name else nowhere
  | table t =>
    match Setting.all.find? fun s => s.table == t && s.key == name with
    | some s => setting s
    | none => nowhere
  | _ => nowhere

def follow (p : Place) : List String → Except Fault Place
  | [] => .ok p
  | k :: ks =>
    match p with
    | setting s => .error (.insideScalar s.type)
    | p => (p.child k).follow ks

end Place

mutual

def put (c : Config) (p : Place) : Value → Except Fault Config
  | .table pairs =>
    match p with
    | .setting s => c.assign s (.table pairs)
    | .nowhere => .ok c
    | p => putAll c p pairs
  | v =>
    match p with
    | .setting s => c.assign s v
    | .table t => (refuse (Setting.tableTarget t) "struct" v).bind .error
    | _ => .ok c

def putAll (c : Config) (p : Place) : List (List String × Value) → Except Fault Config
  | [] => .ok c
  | (k, v) :: rest => do
    let c ← put c (← p.follow k) v
    putAll c p rest

end

def headPlace (key : List String) : Except Fault Place := Place.root.follow key

/-- Follows the statements under a head at `place`. -/
def decode (keys : Toml.Keys) (place : Place) (c : Config) : List Statement → Except Fault Config
  | [] => .ok c
  | .pair k v :: rest =>
    match place with
    | .nowhere => decode keys place c rest
    | _ => do
      let keys ← keys.addPair k v
      let c ← c.put (← place.follow k) v
      decode keys place c rest
  | .table k :: rest => do
    let keys ← keys.addTable k
    decode keys (← headPlace k) c rest
  | .listTable k :: rest => do
    let keys ← keys.addListTable k
    match ← headPlace k with
    | .setting s => throw (.mismatch "array table" s.target)
    | .table t => throw (.mismatch "array table" (Setting.tableTarget t))
    | _ => decode keys .nowhere c rest

def decodeText (text : String) : Except Fault Config := do
  let (statements, fault) := Toml.statements text
  let c ← decode {} .root {} statements
  match fault with
  | some f => throw f
  | none => return c

def read (text : String) : Except ConfigFault Config :=
  match decodeText text with
  | .error f => .error (.document f)
  | .ok c => c.validate

end Config

end RegCode
