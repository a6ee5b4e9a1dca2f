import RegCode.Text.Numeral

/-! JSON documents with their members in order, and their indented text. -/
namespace RegCode.Json

/-- A document; minus zero and numbers with a fraction or an exponent keep the text that they were
written as. -/
inductive Value where
  | null
  | bool (b : Bool)
  | int (n : Int)
  | real (text : String)
  | str (s : String)
  | arr (items : List Value)
  | obj (members : List (String × Value))
  deriving Repr, Inhabited, BEq

namespace Value

def nat (n : Nat) : Value := int n

def strs (ss : List String) : Value := arr (ss.map str)

def get? (key : String) : Value → Option Value
  | obj ms => ms.lookup key
  | _ => none

end Value

def textMember (key s : String) : List (String × Value) := if s = "" then [] else [(key, .str s)]

def listMember (key : String) (items : List Value) : List (String × Value) :=
  if items.isEmpty then [] else [(key, .arr items)]

def escapeChar (c : Char) : String :=
  let n := c.toNat
  if c = '"' then "\\\""
  else if c = '\\' then "\\\\"
  else if c = '\n' then "\\n"
  else if c = '\r' then "\\r"
  else if c = '\t' then "\\t"
  else if n < 0x20 ∨ c = '<' ∨ c = '>' ∨ c = '&' ∨ n = 0x2028 ∨ n = 0x2029 then
    "\\u" ++ Text.hexFilled 4 n
  else c.toString

def quote (s : String) : String := "\"" ++ String.join (s.toList.map escapeChar) ++ "\""

def wordOf (b : Bool) : String := if b then "true" else "false"

mutual

def Value.indented (step edge : String) : Value → String
  | .null => "null"
  | .bool b => wordOf b
  | .int n => Text.intText n
  | .real t => t
  | .str s => quote s
  | .arr [] => "[]"
  | .arr (v :: vs) => "[" ++ itemLines step (edge ++ step) (v :: vs) ++ edge ++ "]"
  | .obj [] => "\x7b\x7d"
  | .obj (m :: ms) => "\x7b" ++ memberLines step (edge ++ step) (m :: ms) ++ edge ++ "\x7d"

def itemLines (step edge : String) : List Value → String
  | [] => ""
  | [v] => edge ++ v.indented step edge
  | v :: vs => edge ++ v.indented step edge ++ "," ++ itemLines step edge vs

def memberLines (step edge : String) : List (String × Value) → String
  | [] => ""
  | [(k, v)] => edge ++ quote k ++ ": " ++ v.indented step edge
  | (k, v) :: ms => edge ++ quote k ++ ": " ++ v.indented step edge ++ "," ++ memberLines step edge ms

end

mutual

def Value.compact : Value → String
  | .null => "null"
  | .bool b => wordOf b
  | .int n => Text.intText n
  | .real t => t
  | .str s => quote s
  | .arr vs => "[" ++ compactItems vs ++ "]"
  | .obj ms => "\x7b" ++ compactMembers ms ++ "\x7d"

def compactItems : List Value → String
  | [] => ""
  | [v] => v.compact
  | v :: vs => v.compact ++ "," ++ compactItems vs

def compactMembers : List (String × Value) → String
  | [] => ""
  | [(k, v)] => quote k ++ ":" ++ v.compact
  | (k, v) :: ms => quote k ++ ":" ++ v.compact ++ "," ++ compactMembers ms

end

def Value.pretty (step : String) (v : Value) : String := v.indented step "\n"

end RegCode.Json
