import RegCode.Text.Cut
import RegCode.Toml

/-! Strings, keys, numbers, dates and times at the start of a document. A document is read byte by
byte, each byte as the character of that number. Each reader answers the value and the rest. -/
namespace RegCode.Toml

def isBlank (c : Char) : Bool := c == ' ' || c == '\t'

def skipBlanks (cs : List Char) : List Char := cs.dropWhile isBlank

def isAllowed (c : Char) : Bool :=
  let n := c.toNat
  n == 9 || n == 10 || n == 13 || (32 ≤ n && n != 127)

def expect (c : Char) : List Char → Except Fault (List Char)
  | [] => .error (.endsBefore c)
  | d :: cs => if d = c then .ok cs else .error (.expected c)

def skipComment : List Char → Except Fault (List Char)
  | [] => .ok []
  | '\n' :: cs => .ok ('\n' :: cs)
  | '\r' :: '\n' :: cs => .ok ('\n' :: cs)
  | c :: cs => if c ≠ '\r' ∧ isAllowed c then skipComment cs else .error .commentCharacter

def newline : List Char → Except Fault (List Char)
  | '\n' :: cs => .ok cs
  | '\r' :: '\n' :: cs => .ok cs
  | '\r' :: [] => .error .newlineCut
  | '\r' :: _ => .error .newlineBroken
  | c :: _ => .error (.expectedNewline c)
  | [] => .ok []

def basicBody : List Char → Except Fault (List Char × List Char)
  | [] => .error .basicOpen
  | '"' :: cs => .ok ([], cs)
  | '\n' :: _ => .error .basicNewline
  | '\r' :: _ => .error .basicNewline
  | '\\' :: [] => .error .loneBackslash
  | '\\' :: c :: cs => (basicBody cs).map fun (b, r) => ('\\' :: c :: b, r)
  | c :: cs => (basicBody cs).map fun (b, r) => (c :: b, r)

def closing (q : Char) (fault : Fault) : List Char → Except Fault (List Char × List Char)
  | a :: b :: c :: cs =>
    if a ≠ q then .ok ([], a :: b :: c :: cs)
    else if b ≠ q then .ok ([q], b :: c :: cs)
    else if c ≠ q then .ok ([q, q], c :: cs)
    else .error fault
  | [a, b] => .ok (if a ≠ q then ([], [a, b]) else if b ≠ q then ([q], [b]) else ([q, q], []))
  | [a] => .ok (if a ≠ q then ([], [a]) else ([q], []))
  | [] => .ok ([], [])

def multiBasicBody : List Char → Except Fault (List Char × List Char)
  | [] => .error .multiBasicOpen
  | '"' :: '"' :: '"' :: cs => closing '"' .multiBasicQuotes cs
  | '\\' :: [] => .error .loneBackslash
  | '\\' :: c :: cs => (multiBasicBody cs).map fun (b, r) => ('\\' :: c :: b, r)
  | '\r' :: '\n' :: cs => (multiBasicBody cs).map fun (b, r) => ('\r' :: '\n' :: b, r)
  | '\r' :: _ => .error .loneReturn
  | c :: cs => (multiBasicBody cs).map fun (b, r) => (c :: b, r)

def literalBody : List Char → Except Fault (List Char × List Char)
  | [] => .error .literalOpen
  | '\'' :: cs => .ok ([], cs)
  | '\n' :: _ => .error .literalNewline
  | '\r' :: _ => .error .literalNewline
  | c :: cs =>
    if isAllowed c then (literalBody cs).map fun (b, r) => (c :: b, r)
    else .error .literalCharacter

def multiLiteralBody : List Char → Except Fault (List Char × List Char)
  | [] => .error .multiLiteralOpen
  | '\'' :: '\'' :: '\'' :: cs => closing '\'' .multiLiteralQuotes cs
  | '\r' :: '\n' :: cs => (multiLiteralBody cs).map fun (b, r) => ('\r' :: '\n' :: b, r)
  | '\r' :: _ => .error .loneReturn
  | c :: cs =>
    if isAllowed c then (multiLiteralBody cs).map fun (b, r) => (c :: b, r)
    else .error .literalCharacter

def dropFirstBreak : List Char → List Char
  | '\n' :: cs => cs
  | '\r' :: '\n' :: cs => cs
  | cs => cs

def codePoint (needed : Nat) (digits : List Char) : Except Fault Char :=
  if digits.length < needed then .error (.shortCodePoint needed digits.length)
  else
    match Text.readDigits? 16 (digits.take needed) with
    | none => .error .codePointDigit
    | some n => if h : n.isValidChar then .ok (Char.ofNatAux n h) else .error .codePointRange

def simpleEscape? (c : Char) : Option Char :=
  match c with
  | '"' => some '"' | '\\' => some '\\' | 'n' => some '\n' | 'r' => some '\r' | 't' => some '\t'
  | 'b' => some '\x08' | 'f' => some '\x0c' | 'e' => some '\x1b'
  | _ => none

def lineEnds (cs : List Char) : Bool :=
  match skipBlanks cs with
  | '\n' :: _ => true
  | '\r' :: '\n' :: _ => true
  | _ => false

/-- Resolves escapes. In a string of several lines a backslash at the end of a line takes all blanks
and line breaks that follow with it; `trim` says that such a backslash has just been read. The digits
of a code point are looked for up to the end of the closing quotes of such a string, and up to the
closing quote of any other. -/
def unescape (multi trim : Bool) : List Char → Except Fault (List Char)
  | [] => .ok []
  | '\\' :: c :: cs =>
    if multi && lineEnds (c :: cs) then unescape multi true cs
    else
      match c, cs with
      | 'u', a :: b :: c :: d :: cs => do
        let x ← codePoint 4 [a, b, c, d]
        return (Text.charBytes x).map Text.byteChar ++ (← unescape multi false cs)
      | 'U', a :: b :: c :: d :: e :: f :: g :: h :: cs => do
        let x ← codePoint 8 [a, b, c, d, e, f, g, h]
        return (Text.charBytes x).map Text.byteChar ++ (← unescape multi false cs)
      | c, cs =>
        let digits := if multi then cs ++ ['"', '"', '"'] else cs
        if c = 'u' then do let _ ← codePoint 4 digits; return []
        else if c = 'U' then do let _ ← codePoint 8 digits; return []
        else
          match simpleEscape? c with
          | some e => do return e :: (← unescape multi false cs)
          | none => .error (.unknownEscape c)
  | c :: cs =>
    if trim ∧ (isBlank c ∨ c = '\n' ∨ c = '\r') then unescape multi true cs
    else if isAllowed c then do return c :: (← unescape multi false cs)
    else .error (.escapedCharacter c)

def resolve (multi : Bool) (body : List Char) : Except Fault String :=
  if body.contains '\\' then (unescape multi false body).map Text.ofByteChars
  else if body.all isAllowed then .ok (Text.ofByteChars body)
  else .error .stringCharacter

def basicString (cs : List Char) : Except Fault (String × List Char) := do
  let (body, rest) ← basicBody cs
  return (← resolve false body, rest)

def multiBasicString (cs : List Char) : Except Fault (String × List Char) := do
  let (body, rest) ← multiBasicBody cs
  return (← resolve true (dropFirstBreak body), rest)

def literalString (cs : List Char) : Except Fault (String × List Char) :=
  (literalBody cs).map fun (b, r) => (Text.ofByteChars b, r)

def multiLiteralString (cs : List Char) : Except Fault (String × List Char) :=
  (multiLiteralBody cs).map fun (b, r) => (Text.ofByteChars (dropFirstBreak b), r)

def isKeyChar (c : Char) : Bool := c.isAlphanum || c == '-' || c == '_'

def keyPart : List Char → Except Fault (String × List Char)
  | [] => .error .noKey
  | '\'' :: cs => literalString cs
  | '"' :: cs => basicString cs
  | c :: cs =>
    if isKeyChar c then
      .ok (String.ofList ((c :: cs).takeWhile isKeyChar), (c :: cs).dropWhile isKeyChar)
    else .error (.keyStart c)

def keyParts : Nat → List Char → Except Fault (List String × List Char)
  | 0, cs => .ok ([], cs)
  | fuel + 1, cs => do
    let (part, rest) ← keyPart cs
    match skipBlanks rest with
    | '.' :: rest =>
      let (parts, rest) ← keyParts fuel (skipBlanks rest)
      return (part :: parts, rest)
    | rest => return ([part], rest)

def key (cs : List Char) : Except Fault (List String × List Char) := keyParts (cs.length + 1) cs

def markedNumeral (mark : Char) (cs : List Char) : String × List Char :=
  let digits := (match mark with
    | 'x' => some 16 | 'o' => some 8 | 'b' => some 2 | _ => none : Option Nat)
  match digits with
  | none => ("0", mark :: cs)
  | some base =>
    let fits (c : Char) : Bool := c == '_' || (Text.digitValue? c).any (· < base)
    (String.ofList ('0' :: mark :: cs.takeWhile fits), cs.dropWhile fits)

/-- The longest run of characters of a number; `inf` and `nan` end it. -/
def numeralRun : List Char → Except Fault (List Char × List Char)
  | [] => .ok ([], [])
  | c :: cs =>
    if Text.isDecimalDigit c ∨ c = '+' ∨ c = '-' ∨ c = '_' ∨ c = '.' ∨ c = 'e' ∨ c = 'E' then
      (numeralRun cs).map fun (d, r) => (c :: d, r)
    else if c = 'i' then
      match cs with
      | 'n' :: 'f' :: rest => .ok (['i', 'n', 'f'], rest)
      | _ => .error (.numberLetter c)
    else if c = 'n' then
      match cs with
      | 'a' :: 'n' :: rest => .ok (['n', 'a', 'n'], rest)
      | _ => .error (.numberLetter c)
    else .ok ([], c :: cs)

def unmarkedNumber (cs : List Char) : Except Fault (Value × List Char) := do
  let (run, rest) ← numeralRun cs
  if run.isEmpty then throw .noNumber
  let text := String.ofList run
  let isFloat := run.any fun c => c == '.' || c == 'e' || c == 'E' || c == 'n'
  return (if isFloat then .float text else .integer text, rest)

def number : List Char → Except Fault (Value × List Char)
  | '0' :: mark :: c :: cs =>
    if mark = '.' ∨ mark = 'e' ∨ mark = 'E' then unmarkedNumber ('0' :: mark :: c :: cs)
    else
      let (text, rest) := markedNumeral mark (c :: cs)
      .ok (.integer text, rest)
  | cs => unmarkedNumber cs

/-- What the marks of a date or time have told so far. -/
structure MomentMarks where
  date : Bool := false
  time : Bool := false
  zone : Bool := false
  spaced : Bool := false
  deriving DecidableEq, Repr

namespace MomentMarks

def see? (m : MomentMarks) (position : Nat) (c : Char) : Option MomentMarks :=
  if Text.isDecimalDigit c then some m
  else if c = '-' then some { m with date := true, zone := m.zone || decide (8 ≤ position) }
  else if c = 'T' ∨ c = 't' ∨ c = ':' ∨ c = '.' then some { m with time := true }
  else if c = '+' ∨ c = 'Z' ∨ c = 'z' then some { m with zone := true }
  else none

def kind (m : MomentMarks) : MomentKind :=
  if m.time then
    if m.date then if m.zone then .offsetDateTime else .localDateTime else .localTime
  else .localDate

end MomentMarks

/-- Characters of a date or time. One blank may stand in it before a digit; what follows that digit
belongs to it, whatever it is. -/
def momentRun (m : MomentMarks) (position : Nat) : List Char → MomentMarks × List Char × List Char
  | [] => (m, [], [])
  | ' ' :: c :: cs =>
    if !m.spaced && Text.isDecimalDigit c then
      let m := { m with spaced := true, time := true }
      match cs with
      | [] => (m, [' ', c], [])
      | d :: cs =>
        let (m, run, rest) := momentRun m (position + 3) cs
        (m, ' ' :: c :: d :: run, rest)
    else (m, [], ' ' :: c :: cs)
  | c :: cs =>
    match m.see? position c with
    | none => (m, [], c :: cs)
    | some m =>
      let (m, run, rest) := momentRun m (position + 1) cs
      (m, c :: run, rest)

def startsMoment : List Char → Bool
  | a :: b :: c :: rest =>
    Text.isDecimalDigit a && Text.isDecimalDigit b &&
      (c == ':' || (Text.isDecimalDigit c &&
        match rest with
        | d :: '-' :: _ => Text.isDecimalDigit d
        | _ => false))
  | _ => false

/-- What starts with neither a quote nor a bracket nor a truth value. -/
def quantity : List Char → Except Fault (Value × List Char)
  | 'i' :: cs =>
    match cs with
    | 'n' :: 'f' :: rest => .ok (.float "inf", rest)
    | _ => .error (.expectedWord "inf")
  | 'n' :: cs =>
    match cs with
    | 'a' :: 'n' :: rest => .ok (.float "nan", rest)
    | _ => .error (.expectedWord "nan")
  | cs =>
    if startsMoment cs then
      let (m, run, rest) := momentRun {} 0 cs
      .ok (.moment m.kind run, rest)
    else number cs

end RegCode.Toml
