/-! Bytes that need not be a well-formed text, read as characters and stray bytes. -/
namespace RegCode.Text

abbrev Bytes := List UInt8

/-- One unit of a byte sequence: a whole character, or a byte that belongs to none. -/
inductive Unit8 where
  | char (c : Char)
  | stray (b : UInt8)
  deriving DecidableEq, Repr

def charBytes (c : Char) : Bytes :=
  let n := c.toNat
  if n < 0x80 then [n.toUInt8]
  else if n < 0x800 then [(0xC0 + n / 64).toUInt8, (0x80 + n % 64).toUInt8]
  else if n < 0x10000 then
    [(0xE0 + n / 4096).toUInt8, (0x80 + n / 64 % 64).toUInt8, (0x80 + n % 64).toUInt8]
  else
    [(0xF0 + n / 262144).toUInt8, (0x80 + n / 4096 % 64).toUInt8,
     (0x80 + n / 64 % 64).toUInt8, (0x80 + n % 64).toUInt8]

def bytesOf (s : String) : Bytes := s.toList.flatMap charBytes

def continuation? (b : UInt8) : Option Nat :=
  if 0x80 ≤ b ∧ b < 0xC0 then some (b.toNat - 0x80) else none

def scalar? (least n : Nat) : Option Char :=
  if least ≤ n ∧ n.isValidChar then some (Char.ofNat n) else none

/-- The character at the head, with the number of bytes after the first that it takes. -/
def headChar? : Bytes → Option (Char × Nat)
  | [] => none
  | a :: rest =>
    if a < 0x80 then some (Char.ofNat a.toNat, 0)
    else if 0xC0 ≤ a ∧ a < 0xE0 then do
      let b ← rest[0]? >>= continuation?
      let c ← scalar? 0x80 ((a.toNat - 0xC0) * 64 + b)
      some (c, 1)
    else if 0xE0 ≤ a ∧ a < 0xF0 then do
      let b ← rest[0]? >>= continuation?
      let c ← rest[1]? >>= continuation?
      let d ← scalar? 0x800 ((a.toNat - 0xE0) * 4096 + b * 64 + c)
      some (d, 2)
    else if 0xF0 ≤ a ∧ a < 0xF8 then do
      let b ← rest[0]? >>= continuation?
      let c ← rest[1]? >>= continuation?
      let d ← rest[2]? >>= continuation?
      let e ← scalar? 0x10000 ((a.toNat - 0xF0) * 262144 + b * 4096 + c * 64 + d)
      some (e, 3)
    else none

def unitsAfter : Nat → Bytes → List Unit8
  | _, [] => []
  | skip + 1, _ :: rest => unitsAfter skip rest
  | 0, a :: rest =>
    match headChar? (a :: rest) with
    | some (c, more) => .char c :: unitsAfter more rest
    | none => .stray a :: unitsAfter 0 rest

def units (bs : Bytes) : List Unit8 := unitsAfter 0 bs

def Unit8.char? : Unit8 → Option Char
  | .char c => some c
  | .stray _ => none

def ofBytes? (bs : Bytes) : Option String := ((units bs).mapM Unit8.char?).map String.ofList

def ofBytes (bs : Bytes) : String :=
  String.ofList ((units bs).map fun u => u.char?.getD '\uFFFD')

def byteChar (b : UInt8) : Char := Char.ofNat b.toNat

def byteChars (s : String) : List Char := (bytesOf s).map byteChar

def ofByteChars (cs : List Char) : String := ofBytes (cs.map fun c => c.toNat.toUInt8)

end RegCode.Text
