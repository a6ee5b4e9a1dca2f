import RegCode.Text.Numeral

/-! Binary floating-point formats: a bit pattern as sign, whole number and power of two, and the
nearest pattern to a positive fraction. -/
namespace RegCode.Decimal

/-- A format with `precision` significant bits, least exponent `least` and `width` bits in all. -/
structure Format where
  precision : Nat
  least : Int
  width : Nat
  deriving DecidableEq, Repr

def single : Format := ⟨24, -149, 32⟩

def double : Format := ⟨53, -1074, 64⟩

/-- What a bit pattern denotes; `finite` is `significand · 2 ^ exponent`, negated on demand. -/
inductive Real where
  | nan
  | infinite (negative : Bool)
  | finite (negative : Bool) (significand : Nat) (exponent : Int)
  deriving DecidableEq, Repr

namespace Format

def fractionBits (f : Format) : Nat := f.precision - 1

def exponentBits (f : Format) : Nat := f.width - f.precision

def infinityBits (f : Format) : Nat := (Nat.pow 2 f.exponentBits - 1) * Nat.pow 2 f.fractionBits

def signBit (f : Format) : Nat := Nat.pow 2 (f.width - 1)

def decode (f : Format) (bits : Nat) : Real :=
  let negative := bits / f.signBit % 2 == 1
  let fraction := bits % Nat.pow 2 f.fractionBits
  let biased := bits / Nat.pow 2 f.fractionBits % Nat.pow 2 f.exponentBits
  if biased = Nat.pow 2 f.exponentBits - 1 then
    if fraction = 0 then .infinite negative else .nan
  else if biased = 0 then .finite negative fraction f.least
  else .finite negative (Nat.pow 2 f.fractionBits + fraction) (f.least + biased - 1)

def roundHalfEven (num den : Nat) : Nat :=
  let q := num / den
  let r := num % den
  if 2 * r < den then q
  else if 2 * r > den then q + 1
  else if q % 2 = 0 then q else q + 1

def scaleDown (num den : Nat) (e : Int) : Nat × Nat :=
  if 0 ≤ e then (num, den * Nat.pow 2 e.toNat) else (num * Nat.pow 2 (-e).toNat, den)

def nearest? (f : Format) (num den : Nat) : Option Nat :=
  if num = 0 then some 0
  else
    let guess : Int := (num.log2 : Int) - (den.log2 : Int) - f.precision
    let (a, b) := scaleDown num den guess
    let e := if a / b < Nat.pow 2 f.precision then guess else guess + 1
    let e := max e f.least
    let (a, b) := scaleDown num den e
    let m := roundHalfEven a b
    let bits := if m < Nat.pow 2 f.fractionBits then m
      else ((e - f.least).toNat + 1) * Nat.pow 2 f.fractionBits + (m - Nat.pow 2 f.fractionBits)
    if bits < f.infinityBits then some bits else none

end Format

/-- `digits · 10 ^ scale`. -/
structure Digits where
  digits : Nat
  scale : Int
  deriving DecidableEq, Repr

/-- The reals that round to `m · 2 ^ q`, in quarters of its unit: the value is `4 m`, the upper end
`4 m + 2`, the lower end half as far when the unit below is smaller. -/
structure Interval where
  lower : Nat
  value : Nat
  upper : Nat
  closed : Bool
  exponent : Int
  deriving DecidableEq, Repr

def intervalOf (f : Format) (m : Nat) (q : Int) : Interval :=
  let narrow := m = Nat.pow 2 f.fractionBits ∧ f.least < q
  { lower := if narrow then 4 * m - 1 else 4 * m - 2
    value := 4 * m
    upper := 4 * m + 2
    closed := m % 2 == 0
    exponent := q - 2 }

namespace Interval

def unitOver (i : Interval) (k : Int) : Nat × Nat :=
  let num := Nat.pow 2 i.exponent.toNat * Nat.pow 10 (-k).toNat
  let den := Nat.pow 2 (-i.exponent).toNat * Nat.pow 10 k.toNat
  (num, den)

def contains (i : Interval) (num den d : Nat) : Bool :=
  if i.closed then i.lower * num ≤ d * den && d * den ≤ i.upper * num
  else i.lower * num < d * den && d * den < i.upper * num

/-- The point of the grid `10 ^ k` inside the interval that is nearest to the value; of two equally
near the even one. -/
def onGrid? (i : Interval) (k : Int) : Option Nat :=
  let (num, den) := i.unitOver k
  let x := i.value * num
  let below := x / den
  let above := below + 1
  match i.contains num den below, i.contains num den above with
  | true, true =>
    let down := x - below * den
    let up := above * den - x
    if down < up then some below
    else if up < down then some above
    else if below % 2 = 0 then some below else some above
  | true, false => some below
  | false, true => some above
  | false, false => none

def leading (i : Interval) : Int :=
  let (num, den) := i.unitOver (-400)
  (Text.natDigits 10 (i.value * num / den)).length - 401

def search (i : Interval) : Nat → Int → Digits
  | 0, k => ⟨(i.onGrid? k).getD 0, k⟩
  | fuel + 1, k =>
    match i.onGrid? k with
    | some d => ⟨d, k⟩
    | none => search i fuel (k - 1)

end Interval

def shortest (f : Format) (m : Nat) (q : Int) : Digits :=
  let i := intervalOf f m q
  i.search 20 i.leading

/-- Where positional notation is used: from ten to the `least` up to below ten to the `bound`. -/
structure Layout where
  least : Int
  bound : Int
  deriving DecidableEq, Repr

def dropTrailingZeros (cs : List Char) : List Char := (cs.reverse.dropWhile (· == '0')).reverse

namespace Layout

def exponential (ds : List Char) (exp : Int) : String :=
  let head := match ds with
    | [] => "0"
    | [d] => String.ofList [d]
    | d :: rest => String.ofList (d :: '.' :: rest)
  let e := Text.natText exp.natAbs
  head ++ (if exp < 0 then "e-" else "e+") ++ (if e.length < 2 then "0" ++ e else e)

def positional (ds : List Char) (point : Int) : String :=
  if point ≤ 0 then
    String.ofList ("0.".toList ++ List.replicate (-point).toNat '0' ++ ds)
  else
    let n := point.toNat
    let whole := ds.take n ++ List.replicate (n - ds.length) '0'
    let fraction := ds.drop n
    String.ofList (if fraction = [] then whole else whole ++ '.' :: fraction)

def render (l : Layout) (x : Digits) : String :=
  let all := Text.natDigits 10 x.digits
  let ds := dropTrailingZeros all
  let point : Int := all.length + x.scale
  let exp := point - 1
  if exp < l.least || l.bound ≤ exp then exponential ds exp else positional ds point

end Layout

def text (l : Layout) (f : Format) (bits : Nat) : String :=
  match f.decode bits with
  | .nan => "NaN"
  | .infinite negative => if negative then "-Inf" else "+Inf"
  | .finite negative m q =>
    (if negative then "-" else "") ++ if m = 0 then "0" else l.render (shortest f m q)

open Text (digitValue? isDecimalDigit splitSign)

/-- A written number: `digits · base ^ -places`, moved by the exponent. -/
structure Written where
  hexadecimal : Bool
  digits : Nat
  places : Nat
  exponent : Int
  deriving DecidableEq, Repr

def lowerAscii (c : Char) : Char :=
  if 65 ≤ c.toNat ∧ c.toNat ≤ 90 then Char.ofNat (c.toNat + 32) else c

/-- Digits before an exponent, as value, digits after the point, and whether there was any. -/
structure Mantissa where
  value : Nat
  places : Nat
  point : Bool
  any : Bool
  deriving DecidableEq, Repr

def scanMantissa (base : Nat) : Mantissa → List Char → Mantissa × List Char
  | m, [] => (m, [])
  | m, c :: cs =>
    if c = '_' then scanMantissa base m cs
    else if c = '.' then
      if m.point then (m, c :: cs) else scanMantissa base { m with point := true } cs
    else
      match digitValue? c with
      | some d =>
        if d < base then
          scanMantissa base
            { m with value := m.value * base + d, any := true
                     places := if m.point then m.places + 1 else m.places } cs
        else (m, c :: cs)
      | none => (m, c :: cs)

def scanExponent : Nat → List Char → Nat × List Char
  | e, [] => (e, [])
  | e, c :: cs =>
    if c = '_' then scanExponent e cs
    else if isDecimalDigit c then
      scanExponent (if e < 10000 then e * 10 + (c.toNat - 48) else e) cs
    else (e, c :: cs)

def readExponent? (cs : List Char) : Option Int :=
  let (negative, ds) := splitSign cs
  match ds with
  | [] => none
  | d :: _ =>
    if isDecimalDigit d then
      match scanExponent 0 ds with
      | (e, []) => some (if negative then -(e : Int) else e)
      | _ => none
    else none

def underscoresFit (hex : Bool) (cs : List Char) : Bool :=
  let isDigit c := (digitValue? c).any fun d => decide (d < if hex then 16 else 10)
  Text.underscoresFit isDigit hex cs

def readWritten? (cs : List Char) : Option Written :=
  let (hex, body) := match cs with
    | '0' :: x :: c :: rest => if lowerAscii x = 'x' then (true, c :: rest) else (false, cs)
    | _ => (false, cs)
  let (m, rest) := scanMantissa (if hex then 16 else 10) ⟨0, 0, false, false⟩ body
  if !m.any || (cs.contains '_' && !underscoresFit hex body) then none
  else
    match rest with
    | [] => if hex then none else some ⟨false, m.value, m.places, 0⟩
    | c :: more =>
      if lowerAscii c = (if hex then 'p' else 'e') then
        (readExponent? more).map fun e => ⟨hex, m.value, m.places, e⟩
      else none

def Written.nearest? (f : Format) (w : Written) : Option Nat :=
  if w.digits = 0 then some 0
  else if w.hexadecimal then
    let e := w.exponent - 4 * w.places
    if 5000 < e then none
    else if e + w.digits.log2 < -5000 then some 0
    else f.nearest? (w.digits * Nat.pow 2 e.toNat) (Nat.pow 2 (-e).toNat)
  else
    let e := w.exponent - w.places
    let size : Int := (Text.natDigits 10 w.digits).length + e
    if 400 < size then none
    else if size < -400 then some 0
    else f.nearest? (w.digits * Nat.pow 10 e.toNat) (Nat.pow 10 (-e).toNat)

def nanBits (f : Format) : Nat :=
  if f.width = 64 then f.infinityBits + Nat.pow 2 (f.fractionBits - 1) + 1
  else f.infinityBits + Nat.pow 2 (f.fractionBits - 1)

/-- Why a text gives no value. -/
inductive ReadFault where
  | malformed
  | beyond
  deriving DecidableEq, Repr

def read (f : Format) (s : String) : Except ReadFault Nat :=
  let (negative, cs) := splitSign s.toList
  let signed (bits : Nat) := if negative then f.signBit + bits else bits
  let word := String.ofList (cs.map lowerAscii)
  if word = "inf" ∨ word = "infinity" then .ok (signed f.infinityBits)
  else if s.toList.map lowerAscii = "nan".toList then .ok (nanBits f)
  else
    match readWritten? cs with
    | none => .error .malformed
    | some w =>
      match w.nearest? f with
      | none => .error .beyond
      | some bits => .ok (signed bits)

def read? (f : Format) (s : String) : Option Nat := (read f s).toOption

end RegCode.Decimal
