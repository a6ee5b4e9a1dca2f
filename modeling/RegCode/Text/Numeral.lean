/-! Whole numbers as text: digits in a base, signed and zero-filled forms, and reading with a
range that does not fit reported apart from a malformed numeral. -/
namespace RegCode.Text

def wrap64 (x : Int) : Int := Int.bmod x 18446744073709551616

def maxInt64 : Int := 9223372036854775807

def minInt64 : Int := -9223372036854775808

def digitChar (d : Nat) : Char :=
  if d < 10 then Char.ofNat (48 + d) else Char.ofNat (87 + d)

def digitValue? (c : Char) : Option Nat :=
  let n := c.toNat
  if 48 ≤ n ∧ n ≤ 57 then some (n - 48)
  else if 97 ≤ n ∧ n ≤ 122 then some (n - 87)
  else if 65 ≤ n ∧ n ≤ 90 then some (n - 55)
  else none

def isDecimalDigit (c : Char) : Bool := 48 ≤ c.toNat && c.toNat ≤ 57

def digitsOnto (base : Nat) (fuel n : Nat) (acc : List Char) : List Char :=
  match fuel with
  | 0 => acc
  | fuel + 1 =>
    let acc := digitChar (n % base) :: acc
    if n / base = 0 then acc else digitsOnto base fuel (n / base) acc

def natDigits (base n : Nat) : List Char := digitsOnto base (n + 1).log2.succ n []

def natText (n : Nat) : String := String.ofList (natDigits 10 n)

def intText (x : Int) : String :=
  if x < 0 then "-" ++ natText x.natAbs else natText x.natAbs

def hexText (n : Nat) : String := String.ofList (natDigits 16 n)

def hexFilled (width n : Nat) : String :=
  let ds := natDigits 16 n
  String.ofList (List.replicate (width - ds.length) '0' ++ ds)

def offsetText (x : Int) : String :=
  if x < 0 then "-" ++ hexFilled 3 x.natAbs else hexFilled 4 x.natAbs

def literalText (x : Int) : String :=
  if x < 0 then "-0x" ++ hexText x.natAbs else "0x" ++ hexText x.natAbs

def readDigits? (base : Nat) (cs : List Char) : Option Nat :=
  match cs with
  | [] => none
  | _ :: _ => cs.foldlM (fun acc c => do
      let d ← digitValue? c
      if d < base then some (acc * base + d) else none) 0

/-- Outcome of reading a numeral into a bounded range. -/
inductive Reading where
  | value (n : Int)
  | beyond (bound : Int)
  | malformed
  deriving DecidableEq, Repr

def Reading.ok? : Reading → Option Int
  | .value n => some n
  | _ => none

def Reading.orBound : Reading → Int
  | .value n => n
  | .beyond b => b
  | .malformed => 0

def readUnsignedAfter (base acc : Nat) : List Char → Reading
  | [] => .value acc
  | c :: cs =>
    match digitValue? c with
    | none => .malformed
    | some d =>
      if base ≤ d then .malformed
      else if acc * base + d < 18446744073709551616 then
        readUnsignedAfter base (acc * base + d) cs
      else .beyond 18446744073709551615

def readUnsigned (base : Nat) : List Char → Reading
  | [] => .malformed
  | cs => readUnsignedAfter base 0 cs

def clampSigned (negative : Bool) (n : Nat) : Reading :=
  if negative then
    if n ≤ 9223372036854775808 then .value (-(n : Int)) else .beyond minInt64
  else if n < 9223372036854775808 then .value n else .beyond maxInt64

def Reading.signed (negative : Bool) : Reading → Reading
  | .value n => clampSigned negative n.toNat
  | .beyond b => clampSigned negative b.toNat
  | .malformed => .malformed

def splitSign : List Char → Bool × List Char
  | '-' :: cs => (true, cs)
  | '+' :: cs => (false, cs)
  | cs => (false, cs)

def readSignedIn (base : Nat) (s : String) : Reading :=
  let (negative, cs) := splitSign s.toList
  (readUnsigned base cs).signed negative

def readSigned (s : String) : Reading := readSignedIn 10 s

def underscoresFit (isDigit : Char → Bool) : Bool → List Char → Bool
  | _, [] => true
  | afterDigit, '_' :: c :: cs => afterDigit && isDigit c && underscoresFit isDigit true cs
  | _, '_' :: [] => false
  | _, c :: cs => underscoresFit isDigit (isDigit c) cs

def splitBase : List Char → Nat × Bool × List Char
  | '0' :: x :: c :: cs =>
    if x = 'x' ∨ x = 'X' then (16, true, c :: cs)
    else if x = 'b' ∨ x = 'B' then (2, true, c :: cs)
    else if x = 'o' ∨ x = 'O' then (8, true, c :: cs)
    else (8, true, x :: c :: cs)
  | '0' :: c :: [] => (8, true, [c])
  | cs => (10, false, cs)

def readAnyBase (s : String) : Reading :=
  let (negative, cs) := splitSign s.toList
  let (base, marked, ds) := splitBase cs
  let isDigit c := (digitValue? c).any fun d => decide (d < if base = 16 then 16 else 10)
  match readUnsigned base (ds.filter (· != '_')) with
  | .value n =>
    if ds.contains '_' && !underscoresFit isDigit marked ds then .malformed
    else clampSigned negative n.toNat
  | r => r.signed negative

end RegCode.Text
