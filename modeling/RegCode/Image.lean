import RegCode.Assembly.Reader

/-! The set of loaded classes, in the order of loading. A class that comes again takes the place of
the earlier one. -/
namespace RegCode

structure Image where
  classes : List Class
  deriving Repr, Inhabited

namespace Image

def empty : Image := ⟨[]⟩

def add (img : Image) (c : Class) : Image :=
  if img.classes.any (·.name == c.name) then
    ⟨img.classes.map fun old => if old.name == c.name then c else old⟩
  else ⟨img.classes ++ [c]⟩

def get? (img : Image) (name : String) : Option Class := img.classes.find? (·.name == name)

def sortByName (cs : List Class) : List Class := cs.mergeSort fun a b => decide (a.name ≤ b.name)

def matchesPattern (pattern name : String) : Bool :=
  pattern == "" || pattern == "*" || Text.hasInfix pattern name ||
  Text.hasInfix pattern (Descriptor.className name)

def find (img : Image) (pattern : String) : List Class :=
  sortByName (img.classes.filter fun c => matchesPattern pattern c.name)

def load (img : Image) (source file : String) : Image × List String :=
  let (classes, faults) := Assembly.readClasses source
  (classes.foldl add img, faults.map (·.message file))

end Image

/-- A reference without a target, with the names of the members of its kind that there are. -/
structure DeadReference where
  text : String
  name : String
  candidates : List String
  deriving DecidableEq, Repr, Inhabited

namespace References

def rootMethods : List String :=
  ["<init>", "clone", "equals", "finalize", "getClass", "hashCode", "notify", "notifyAll",
    "toString", "wait"]

def hasMember (img : Image) (declares : Class → Bool) (inRoot : Bool) : Nat → String → Bool
  | 0, _ => false
  | fuel + 1, name =>
    match img.get? name with
    | none => false
    | some c =>
      if declares c then true
      else if c.super = "" then false
      else if (img.get? c.super).isNone then c.super != "Ljava/lang/Object;" || inRoot
      else hasMember img declares inRoot fuel c.super

def hasMethod (img : Image) (r : MethodRef) : Bool :=
  hasMember img (fun c => c.methods.any fun m => m.name == r.name && m.descriptor == r.descriptor)
    (rootMethods.contains r.name) (img.classes.length + 1) r.owner

def hasField (img : Image) (r : FieldRef) : Bool :=
  hasMember img (fun c => c.fields.any (·.name == r.name)) false (img.classes.length + 1) r.owner

def referenceOf (img : Image) (i : Instruction) : Option (DeadReference × Bool) :=
  match i.method, i.field with
  | some r, _ =>
    (img.get? r.owner).map fun c =>
      (⟨r.text, r.name, c.methods.map (·.name)⟩, hasMethod img r)
  | none, some r =>
    (img.get? r.owner).map fun c =>
      (⟨r.text, r.name, c.fields.map (·.name)⟩, hasField img r)
  | none, none => none

def dead (img : Image) (m : Method) : List DeadReference :=
  let all := m.code.filterMap (referenceOf img)
  ((all.filter fun r => !r.2).map Prod.fst).foldl (fun out r =>
    if out.any (·.text == r.text) then out else out ++ [r]) []

end References

end RegCode
