import RegCode.Text.Cut
import RegCode.Text.Numeral

/-! Colours of a terminal, and source text in them: literals, comments, numbers, keywords and names
of types. -/
namespace RegCode.Terminal

inductive Colour where
  | reset | red | green | yellow | blue | magenta | cyan | white | boldRed | boldYellow | boldWhite
  deriving DecidableEq, Repr, Inhabited

namespace Colour

def all : List Colour :=
  [reset, red, green, yellow, blue, magenta, cyan, white, boldRed, boldYellow, boldWhite]

def number : Colour → String
  | reset => "0" | red => "31" | green => "32" | yellow => "33" | blue => "34" | magenta => "35"
  | cyan => "36" | white => "37" | boldRed => "1;31" | boldYellow => "1;33" | boldWhite => "1;37"

def code (c : Colour) : String := "\x1b[" ++ c.number ++ "m"

def paint (enabled : Bool) (c : Colour) (s : String) : String :=
  if enabled then c.code ++ s ++ reset.code else s

end Colour

def strip (s : String) : String := Colour.all.foldl (fun s c => Text.replace c.code "" s) s

def keywords : List String :=
  ["if", "else", "while", "do", "for", "switch", "case", "default", "break", "continue", "return",
    "class", "interface", "extends", "implements", "package", "public", "private", "protected",
    "static", "final", "abstract", "synchronized", "native", "transient", "volatile", "strictfp",
    "new", "try", "catch", "finally", "throw", "goto", "instanceof", "true", "false", "null", "this",
    "super"]

def typeWords : List String :=
  ["int", "long", "short", "byte", "char", "float", "double", "boolean", "void"]

def isLetter (c : Char) : Bool :=
  ('a' ≤ c && c ≤ 'z') || ('A' ≤ c && c ≤ 'Z') || c == '_'

def isWordChar (c : Char) : Bool := isLetter c || Text.isDecimalDigit c

def takeLiteral (quote : Char) : List Char → List Char × List Char
  | [] => ([], [])
  | '\\' :: c :: rest =>
    let (a, b) := takeLiteral quote rest
    ('\\' :: c :: a, b)
  | c :: rest =>
    if c = quote then ([c], rest)
    else
      let (a, b) := takeLiteral quote rest
      (c :: a, b)

def wordText (w : String) : String :=
  if keywords.contains w then Colour.yellow.paint true w
  else if typeWords.contains w then Colour.blue.paint true w
  else w

/-- Colours one line; the bound counts its characters. -/
def colourLine : Nat → List Char → String
  | 0, _ => ""
  | _, [] => ""
  | fuel + 1, c :: rest =>
    if c = '"' ∨ c = '\'' then
      let (body, rest) := takeLiteral c rest
      Colour.green.paint true (String.ofList (c :: body)) ++ colourLine fuel rest
    else if c = '/' ∧ rest.head? = some '/' then Colour.white.paint true (String.ofList (c :: rest))
    else if Text.isDecimalDigit c then
      let inNumber (d : Char) : Bool := isWordChar d || d == '.'
      Colour.magenta.paint true (String.ofList (c :: rest.takeWhile inNumber)) ++
        colourLine fuel (rest.dropWhile inNumber)
    else if isLetter c then
      let inWord (d : Char) : Bool := isWordChar d || d == '$'
      wordText (String.ofList (c :: rest.takeWhile inWord)) ++ colourLine fuel (rest.dropWhile inWord)
    else c.toString ++ colourLine fuel rest

def highlightLine (enabled : Bool) (line : String) : String :=
  if enabled then colourLine (line.length + 1) line.toList else line

def highlight (enabled : Bool) (source : String) : String :=
  if enabled then "\n".intercalate ((Text.pieces '\n' source).map (highlightLine true)) else source

end RegCode.Terminal
