import RegCode.Text.Cut

/-! Type and method descriptors: the letters of the primitive types, class names between `L` and
`;`, arrays, and parameter lists in parentheses. -/
namespace RegCode

def sumOf {α : Type} (f : α → Nat) : List α → Nat
  | [] => 0
  | x :: xs => f x + sumOf f xs

namespace Descriptor

def primitiveName? : Char → Option String
  | 'V' => some "void"
  | 'Z' => some "boolean"
  | 'B' => some "byte"
  | 'S' => some "short"
  | 'C' => some "char"
  | 'I' => some "int"
  | 'J' => some "long"
  | 'F' => some "float"
  | 'D' => some "double"
  | _ => none

def size (t : String) : Nat := if t = "J" ∨ t = "D" then 2 else 1

def isPrimitive (t : String) : Bool :=
  match t.toList with
  | [c] => (primitiveName? c).isSome
  | _ => false

def isReference (t : String) : Bool := Text.startsWith "L" t || Text.startsWith "[" t

def className (t : String) : String :=
  let inner := (Text.stripStart? "L" t >>= Text.stripEnd? ";").getD t
  Text.replaceChar '/' '.' inner

def simpleName (t : String) : String :=
  let name := className t
  let name := ((Text.cutAtLast? '.' name).map Prod.snd).getD name
  ((Text.cutAtLast? '$' name).map Prod.snd).getD name

def packageName (t : String) : String :=
  ((Text.cutAtLast? '.' (className t)).map Prod.fst).getD ""

def elementName (t : String) : String :=
  match t.toList with
  | [c] => (primitiveName? c).getD t
  | _ =>
    if (Text.stripStart? "L" t >>= Text.stripEnd? ";").isSome then
      let name := className t
      match Text.stripStart? "java.lang." name with
      | some short => if short.toList.contains '.' then name else short
      | none => name
    else t

def sourceName (t : String) : String :=
  if t = "" then "?"
  else
    let cs := t.toList
    let base := cs.dropWhile (· == '[')
    let dims := (cs.takeWhile (· == '[')).length
    elementName (String.ofList base) ++ Text.copies dims "[]"

def isParameterLetter (c : Char) : Bool := (primitiveName? c).isSome && c != 'V'

def headType? : List Char → Option (List Char × List Char)
  | [] => none
  | c :: cs =>
    if c = '[' then (headType? cs).map fun (t, rest) => (c :: t, rest)
    else if c = 'L' then
      (Text.cutWhere? (· == ';') cs).map fun (name, semi, rest) => (c :: name ++ [semi], rest)
    else if isParameterLetter c then some ([c], cs)
    else none

theorem cutWhere?_eq {p : Char → Bool} {cs a b : List Char} {c : Char}
    (h : Text.cutWhere? p cs = some (a, c, b)) : cs = a ++ c :: b := by
  induction cs generalizing a with
  | nil => simp [Text.cutWhere?] at h
  | cons x xs ih =>
    unfold Text.cutWhere? at h
    split at h
    · simp only [Option.some.injEq, Prod.mk.injEq] at h
      obtain ⟨rfl, rfl, rfl⟩ := h
      rfl
    · simp only [Option.map_eq_some_iff, Prod.exists] at h
      obtain ⟨a', c', b', h', e⟩ := h
      simp only [Prod.mk.injEq] at e
      obtain ⟨rfl, rfl, rfl⟩ := e
      simp [ih h']

theorem headType?_append {cs t rest : List Char} (h : headType? cs = some (t, rest)) :
    cs = t ++ rest := by
  induction cs generalizing t with
  | nil => simp [headType?] at h
  | cons c cs ih =>
    unfold headType? at h
    split at h
    · simp only [Option.map_eq_some_iff, Prod.exists] at h
      obtain ⟨t', r', h', e⟩ := h
      simp only [Prod.mk.injEq] at e
      obtain ⟨rfl, rfl⟩ := e
      simp [ih h']
    · split at h
      · simp only [Option.map_eq_some_iff, Prod.exists] at h
        obtain ⟨a, s, b, h', e⟩ := h
        simp only [Prod.mk.injEq] at e
        obtain ⟨rfl, rfl⟩ := e
        simp [cutWhere?_eq h']
      · split at h
        · simp only [Option.some.injEq, Prod.mk.injEq] at h
          obtain ⟨rfl, rfl⟩ := h
          rfl
        · contradiction

theorem headType?_ne_nil {cs t rest : List Char} (h : headType? cs = some (t, rest)) : t ≠ [] := by
  unfold headType? at h
  split at h
  · contradiction
  · split at h
    · simp only [Option.map_eq_some_iff, Prod.exists, Prod.mk.injEq] at h
      obtain ⟨_, _, _, rfl, _⟩ := h
      simp
    · split at h
      · simp only [Option.map_eq_some_iff, Prod.exists, Prod.mk.injEq] at h
        obtain ⟨_, _, _, _, rfl, _⟩ := h
        simp
      · split at h
        · simp only [Option.some.injEq, Prod.mk.injEq] at h
          obtain ⟨rfl, _⟩ := h
          simp
        · contradiction

theorem headType?_length {cs t rest : List Char} (h : headType? cs = some (t, rest)) :
    rest.length < cs.length := by
  have e := headType?_append h
  have n := List.length_pos_iff.mpr (headType?_ne_nil h)
  simp only [e, List.length_append]
  omega

def splitTypes? (cs : List Char) : Option (List (List Char)) :=
  match cs with
  | [] => some []
  | c :: rest =>
    match _h : headType? (c :: rest) with
    | none => none
    | some (t, more) => (splitTypes? more).map (t :: ·)
termination_by cs.length
decreasing_by exact headType?_length _h

def splitParams? (s : String) : Option (List String) :=
  (splitTypes? s.toList).map (·.map String.ofList)

/-- Parameter types and result type of a method. -/
structure Signature where
  params : List String
  result : String
  deriving DecidableEq, Repr

namespace Signature

def parse? (s : String) : Option Signature :=
  match s.toList with
  | '(' :: cs => do
    let (ps, _, result) ← Text.cutWhere? (· == ')') cs
    if result = [] then none
    else
      let params ← splitTypes? ps
      some ⟨params.map String.ofList, String.ofList result⟩
  | _ => none

def text (s : Signature) : String := "(" ++ String.join s.params ++ ")" ++ s.result

end Signature

def outerName (name : String) : String :=
  match Text.cutAtLast? '$' (Text.stripEnd ";" name) with
  | some (outer, _) => if outer = "" then "" else outer ++ ";"
  | none => ""

end Descriptor

end RegCode
