import RegCode.Text.Cut

/-! Lines of assembly text: comments and blank lines are dropped, the first word is told from the
rest, and operands are parted at commas. -/
namespace RegCode.Assembly

/-- A line that holds something, with its number from one on. -/
structure Line where
  number : Nat
  text : String
  deriving DecidableEq, Repr, Inhabited

def stripComment : Bool → List Char → List Char
  | _, [] => []
  | true, '\\' :: c :: cs => '\\' :: c :: stripComment true cs
  | quoted, '"' :: cs => '"' :: stripComment (!quoted) cs
  | false, '#' :: _ => []
  | quoted, c :: cs => c :: stripComment quoted cs

def numberLines : Nat → List String → List Line
  | _, [] => []
  | n, s :: rest =>
    let text := String.ofList (Text.trimChars (stripComment false s.toList))
    if text = "" then numberLines (n + 1) rest else ⟨n, text⟩ :: numberLines (n + 1) rest

def linesOf (source : String) : List Line := numberLines 1 (Text.pieces '\n' source)

def splitHead (s : String) : String × String :=
  match Text.cutWhere? (fun c => c == ' ' || c == '\t') s.toList with
  | some (head, _, rest) => (String.ofList head, String.ofList (Text.trimChars rest))
  | none => (s, "")

def operandPieces (depth : Int) (quoted : Bool) : List Char → List Char → List (List Char)
  | acc, [] => [acc.reverse]
  | acc, c :: cs =>
    if quoted then
      match c, cs with
      | '\\', d :: rest => operandPieces depth true (d :: '\\' :: acc) rest
      | '"', rest => operandPieces depth false ('"' :: acc) rest
      | c, rest => operandPieces depth true (c :: acc) rest
    else if c = '"' then operandPieces depth true (c :: acc) cs
    else if c = '\x7b' then operandPieces (depth + 1) false (c :: acc) cs
    else if c = '\x7d' then operandPieces (depth - 1) false (c :: acc) cs
    else if c = ',' ∧ depth = 0 then acc.reverse :: operandPieces depth false [] cs
    else operandPieces depth false (c :: acc) cs

def operands (s : String) : List String :=
  let parts := (operandPieces 0 false [] s.toList).map fun p => String.ofList (Text.trimChars p)
  match parts.reverse with
  | "" :: rest => rest.reverse
  | _ => parts

end RegCode.Assembly
