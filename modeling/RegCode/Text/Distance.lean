import RegCode.Text.Lowercase
import RegCode.Text.Numeral
import RegCode.Text.Utf8

/-! Edit distance of texts, byte by byte and without regard to case, and the nearest of some
candidates. -/
namespace RegCode.Text

def extendRow (c : UInt8) (left : Nat) : Bytes → List Nat → List Nat
  | b :: bs, d :: u :: above =>
    let x := min (min (u + 1) (left + 1)) (d + if b = c then 0 else 1)
    x :: extendRow c x bs (u :: above)
  | _, _ => []

def nextRow (t : Bytes) (row : List Nat) (c : UInt8) : List Nat :=
  match row with
  | [] => []
  | d :: above => (d + 1) :: extendRow c (d + 1) t (d :: above)

def byteDistance (s t : Bytes) : Nat :=
  (s.foldl (nextRow t) (List.range (t.length + 1))).getLast?.getD 0

def lowerBytes (bs : Bytes) : Bytes := bytesOf (lower (ofBytes bs))

def distance (s t : Bytes) : Nat := byteDistance (lowerBytes s) (lowerBytes t)

def nearer (name : Bytes) (limit : Int) (best : Option (Nat × Bytes)) (candidate : Bytes) :
    Option (Nat × Bytes) :=
  let d := distance name candidate
  let bound : Int := match best with
    | some (b, _) => (b : Int)
    | none => wrap64 (limit + 1)
  if candidate ≠ name ∧ (d : Int) < bound then some (d, candidate) else best

def nearest (name : Bytes) (limit : Int) (candidates : List Bytes) : Bytes :=
  ((candidates.foldl (nearer name limit) none).map Prod.snd).getD []

def nearest? (name : String) (limit : Int) (candidates : List String) : Option String :=
  let found := nearest (bytesOf name) limit (candidates.map bytesOf)
  if found = [] then none else some (ofBytes found)

end RegCode.Text
