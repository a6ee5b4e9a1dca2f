import RegCode.Assembly.Body

/-! Reading assembly text into classes, one line at a time. Faults are noted and reading goes on
with the next line. -/
namespace RegCode.Assembly

/-- How the next line is taken: as it stands, passed over up to a closing line, passed over only if
it opens an annotation, or as part of a payload that goes by some labels. -/
inductive Mode where
  | plain
  | skipping (stop : String)
  | peeking (stop : String)
  | payload (names : List String) (p : Payload)
  deriving Repr

/-- Classes read so far, the last one first; a method body is open while there is a draft. -/
structure Reader where
  classes : List Class := []
  draft : Option Draft := none
  mode : Mode := .plain
  deriving Repr

def splitFlags (s : String) : Access × String :=
  match (Text.words s).reverse with
  | [] => (Access.empty, "")
  | name :: flags => (Access.ofWords flags.reverse, name)

def isClassDescriptor (s : String) : Bool :=
  s.utf8ByteSize > 2 && Text.startsWith "L" s && Text.endsWith ";" s

namespace Reader

def skip (r : Reader) (stop : String) : Reader := { r with mode := .skipping stop }

def modifyClass (r : Reader) (f : Class → Class) : Reader :=
  match r.classes with
  | [] => r
  | c :: cs => { r with classes := f c :: cs }

def openClass (r : Reader) (l : Line) (rest : String) : Noting Reader := do
  let (access, name) := splitFlags rest
  if !isClassDescriptor name then note l.number (.className name)
  let c : Class :=
    { name, access, super := "", interfaces := [], sourceFile := [], line := l.number
      fields := [], methods := [] }
  pure { r with classes := c :: r.classes }

def addField (r : Reader) (l : Line) (rest : String) : Noting Reader := do
  let (declared, value) := match Text.cut? " = " rest with
    | some (d, v) => (d, some (Text.trim v))
    | none => (rest, none)
  let (access, nameType) := splitFlags declared
  match Text.cutAtChar? ':' nameType with
  | some (name, type) =>
    if name = "" then
      note l.number (.fieldDeclaration rest)
      pure r
    else
      let r := r.modifyClass fun c => { c with fields := c.fields ++ [⟨name, type, access, value⟩] }
      pure { r with mode := .peeking ".end field" }
  | none =>
    note l.number (.fieldDeclaration rest)
    pure r

def openMethod (r : Reader) (l : Line) (owner : Class) (rest : String) : Noting Reader := do
  let (access, signature) := splitFlags rest
  match Text.cutWhere? (· == '(') signature.toList with
  | none | some ([], _, _) =>
    note l.number (.methodSignature rest)
    pure (r.skip ".end method")
  | some (name, paren, more) =>
    let descriptor := String.ofList (paren :: more)
    match Descriptor.Signature.parse? descriptor with
    | none =>
      note l.number (.methodDescriptor descriptor)
      pure (r.skip ".end method")
    | some _ =>
      let m : Method :=
        { owner := owner.name, name := String.ofList name, descriptor, access, registers := 0
          index := owner.methods.length, line := l.number, code := [], tries := [], overlaps := [] }
      pure { r with draft := some { method := m } }

/-- A line outside of method bodies. -/
def declaration (r : Reader) (l : Line) : Noting Reader :=
  let (head, rest) := splitHead l.text
  match head with
  | ".class" => r.openClass l rest
  | ".super" => pure (r.modifyClass fun c => { c with super := rest })
  | ".implements" => pure (r.modifyClass fun c => { c with interfaces := c.interfaces ++ [rest] })
  | ".source" =>
    match readString rest with
    | .ok s => pure (r.modifyClass fun c => { c with sourceFile := s })
    | .error _ => pure r
  | ".field" =>
    match r.classes with
    | [] => do note l.number .fieldOutsideClass; pure r
    | _ :: _ => r.addField l rest
  | ".method" =>
    match r.classes with
    | [] => do note l.number .methodOutsideClass; pure (r.skip ".end method")
    | c :: _ => r.openMethod l c rest
  | ".annotation" => pure (r.skip ".end annotation")
  | ".subannotation" => pure (r.skip ".end subannotation")
  | ".end" => pure r
  | _ => do note l.number (.directive head); pure r

def closeMethod (r : Reader) (d : Draft) : Noting Reader := do
  let m ← d.finish
  let r := r.modifyClass fun c => { c with methods := c.methods ++ [m] }
  pure { r with draft := none }

/-- A line of a method body. -/
def bodyLine (r : Reader) (d : Draft) (l : Line) : Noting Reader :=
  match Text.stripStart? ":" l.text with
  | some name => pure { r with draft := some { d with waiting := d.waiting ++ [name] } }
  | none =>
    let (head, rest) := splitHead l.text
    match head with
    | ".end" => if rest = "method" then r.closeMethod d.bindLabels else pure r
    | ".registers" => do
      let n ← readCount l.number (.registerCount rest) rest
      pure { r with draft := some { d with registers := n } }
    | ".locals" => do
      let n ← readCount l.number (.localsCount rest) rest
      pure { r with draft := some { d with locals := some n } }
    | ".catch" | ".catchall" => do
      let d ← d.addCatch l.number head rest
      pure { r with draft := some d }
    | ".annotation" => pure (r.skip ".end annotation")
    | ".param" => pure { r with mode := .peeking ".end param" }
    | _ =>
      match PayloadKind.ofDirective? head with
      | some kind => do
        let p ← openPayload l.number kind rest
        pure { r with draft := some { d with waiting := [] }, mode := .payload d.waiting p }
      | none =>
        if Text.startsWith "." head then pure r
        else
          match Mnemonic.template? head with
          | none => do note l.number (.instruction head); pure r
          | some inst => pure { r with draft := some (d.place l.number inst (operands rest)) }

def plainLine (r : Reader) (l : Line) : Noting Reader :=
  match r.draft with
  | some d => r.bodyLine d l
  | none => r.declaration l

def closePayload (r : Reader) (names : List String) (p : Payload) : Reader :=
  { r with draft := r.draft.map (·.addPayload names p), mode := .plain }

def step (r : Reader) (l : Line) : Noting Reader :=
  match r.mode with
  | .plain => r.plainLine l
  | .skipping stop => pure (if l.text = stop then { r with mode := .plain } else r)
  | .peeking stop =>
    if Text.startsWith ".annotation" l.text then pure (r.skip stop)
    else plainLine { r with mode := .plain } l
  | .payload names p =>
    if l.text = ".end " ++ p.kind.name then pure (r.closePayload names p)
    else do
      let p ← p.addLine l
      pure { r with mode := .payload names p }

def steps (r : Reader) : List Line → Noting Reader
  | [] => pure r
  | l :: rest => do
    let r ← r.step l
    r.steps rest

def close (r : Reader) (lastLine : Nat) : Noting Reader := do
  let r ← match r.mode with
    | .payload names p => do
      note p.line (.payloadEnd (".end " ++ p.kind.name))
      pure (r.closePayload names p)
    | _ => pure r
  match r.draft with
  | some d => do
    note lastLine (.methodEnd d.method.name)
    r.closeMethod d
  | none => pure r

end Reader

def readClasses (source : String) : List Class × List ReadFault :=
  let ls := linesOf source
  let lastLine := (ls.getLast?.map Line.number).getD 0
  let (r, faults) := (do
    let r ← Reader.steps {} ls
    r.close lastLine : Noting Reader).run #[]
  (r.classes.reverse, faults.toList)

end RegCode.Assembly
