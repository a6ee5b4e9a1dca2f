import RegCode.Layout.Code
import RegCode.Method
import RegCode.Sorting

/-! Source text of fields, methods and classes. -/
namespace RegCode

/-- What became of the code of a method. -/
inductive MethodBody where
  | code (body : List (Tree String))
  | failed (message : String)
  | stored (text : String)
  deriving Repr, Inhabited

structure MethodSource where
  method : Method
  vars : VarTable := .empty
  params : List VarId := []
  body : MethodBody
  deriving Repr, Inhabited

/-- A class with its methods and the classes inside it. -/
inductive ClassSource where
  | mk (cls : Class) (methods : List MethodSource) (nested : List ClassSource)
  deriving Repr, Inhabited

namespace Layout

def dropSizeLetters (s : String) : String :=
  String.ofList ((s.toList.reverse.dropWhile fun c => "LlSsTt".toList.contains c).reverse)

/-- Source form of an initial value. What is not understood stays as it is. -/
def fieldValue (type value : String) : String :=
  match type with
  | "Ljava/lang/String;" =>
    match Text.Quoted.decode? value with
    | some bs => Text.Quoted.ofBytes bs
    | none => Text.Quoted.encode value
  | "Z" =>
    if value = "0x0" ∨ value = "0" then "false"
    else if value = "0x1" ∨ value = "1" then "true"
    else value
  | "I" | "S" | "B" | "J" =>
    match (Text.readAnyBase (dropSizeLetters value)).ok? with
    | some n => if type = "J" then Text.intText n ++ "L" else Text.intText n
    | none => value
  | _ => value

def modifierText (words : List String) : String := String.join (words.map (· ++ " "))

def fieldText (f : Field) : String :=
  modifierText f.access.fieldModifiers ++ Descriptor.sourceName f.type ++ " " ++ f.name ++
    (match f.value with
    | some v => " = " ++ fieldValue f.type v
    | none => "") ++ ";"

def sortFields (fs : List Field) : List Field :=
  Sorting.sort (fun a b => decide (a.name < b.name)) fs

def paramNames (s : MethodSource) : List String :=
  (s.params.filter fun v => (s.vars.get v).kind != .this).map s.vars.text

def paramTexts (types names : List String) : List String :=
  types.zipIdx.map fun (type, i) =>
    Descriptor.sourceName type ++ " " ++ names[i]?.getD ("arg" ++ Text.natText i)

def methodHead (m : Method) (names : List String) : String :=
  if m.name = "<clinit>" then "static"
  else
    modifierText m.access.methodModifiers ++
      (if m.name = "<init>" then Descriptor.simpleName m.owner
      else Descriptor.sourceName m.returnType ++ " " ++ m.name) ++
      "(" ++ ", ".intercalate (paramTexts m.paramTypes names) ++ ")"

def codeComment (depth : Nat) (m : Method) : List Line :=
  [⟨depth, "/*"⟩] ++ m.code.map (fun i => ⟨depth, " * " ++ i.text⟩) ++ [⟨depth, " */"⟩]

def storedLines (depth : Nat) (text : String) : List Line :=
  (Text.pieces '\n' (Text.stripEnd "\n" text)).map fun l => if l = "" then .blank else ⟨depth, l⟩

def methodBodyLines (o : Options) (t : VarTable) (depth : Nat) : MethodBody → List Line
  | .code body => bodyLines o t depth body
  | .failed message => [⟨depth, "// decompilation failed: " ++ message⟩]
  | .stored _ => []

def declarationLines (o : Options) (depth : Nat) (s : MethodSource) : List Line :=
  let m := s.method
  let head := methodHead m (paramNames s)
  (if o.showCode && m.hasCode then codeComment depth m else []) ++
    if m.hasCode then opening o depth head ++ methodBodyLines o s.vars (depth + 1) s.body ++ closing depth ""
    else [⟨depth, head ++ ";"⟩]

def methodLines (o : Options) (depth : Nat) (s : MethodSource) : List Line :=
  match s.body with
  | .stored text => storedLines depth text
  | _ => declarationLines o depth s

def methodText (o : Options) (s : MethodSource) : String := render o (methodLines o 0 s)

def superText (c : Class) : String :=
  if c.super = "" ∨ c.super = "Ljava/lang/Object;" ∨ c.isInterface then ""
  else " extends " ++ Descriptor.sourceName c.super

def interfacesText (c : Class) : String :=
  if c.interfaces.isEmpty then ""
  else
    (if c.isInterface then " extends " else " implements ") ++
      ", ".intercalate (c.interfaces.map Descriptor.sourceName)

def classHead (c : Class) : String :=
  modifierText c.access.classModifiers ++ (if c.isInterface then "interface " else "class ") ++
    Descriptor.simpleName c.name ++ superText c ++ interfacesText c

def packageLines (c : Class) : List Line :=
  let package := Descriptor.packageName c.name
  if package ≠ "" ∧ c.outerName = "" then [⟨0, "package " ++ package ++ ";"⟩, .blank] else []

mutual

def classBodyLines (o : Options) (depth : Nat) : ClassSource → List Line
  | .mk c methods nested =>
    opening o depth (classHead c) ++
      ((sortFields c.fields).map fun f => ⟨depth + 1, fieldText f⟩) ++
      nestedLines o (depth + 1) nested ++
      methods.flatMap (fun m => .blank :: methodLines o (depth + 1) m) ++
      closing depth ""

def nestedLines (o : Options) (depth : Nat) : List ClassSource → List Line
  | [] => []
  | c :: rest => .blank :: classBodyLines o depth c ++ nestedLines o depth rest

end

def classText (o : Options) : ClassSource → String
  | .mk c methods nested => render o (packageLines c ++ classBodyLines o 0 (.mk c methods nested))

end Layout

end RegCode
