import RegCode.Text.Numeral
import RegCode.Text.Printable
import RegCode.Text.Utf8

/-! String literals. Writing keeps printable characters and escapes the rest; reading accepts
literals in double quotes, single quotes around one character, and raw literals. -/
namespace RegCode.Text.Quoted

def shortEscape? (c : Char) : Option Char :=
  match c.toNat with
  | 7 => some 'a'
  | 8 => some 'b'
  | 12 => some 'f'
  | 10 => some 'n'
  | 13 => some 'r'
  | 9 => some 't'
  | 11 => some 'v'
  | _ => none

def escapeChar (quote c : Char) : List Char :=
  if c = quote ∨ c = '\\' then ['\\', c]
  else if isPrintable c then [c]
  else
    match shortEscape? c with
    | some l => ['\\', l]
    | none =>
      if c.toNat < 0x20 ∨ c.toNat = 0x7f then '\\' :: 'x' :: (hexFilled 2 c.toNat).toList
      else if c.toNat < 0x10000 then '\\' :: 'u' :: (hexFilled 4 c.toNat).toList
      else '\\' :: 'U' :: (hexFilled 8 c.toNat).toList

def escapeUnit (quote : Char) : Unit8 → List Char
  | .char c => escapeChar quote c
  | .stray b => '\\' :: 'x' :: (hexFilled 2 b.toNat).toList

def ofBytes (bs : Bytes) : String :=
  String.ofList ('"' :: (units bs).flatMap (escapeUnit '"') ++ ['"'])

def encode (s : String) : String :=
  String.ofList ('"' :: s.toList.flatMap (escapeChar '"') ++ ['"'])

def encodeChar (c : Char) : String :=
  String.ofList ('\'' :: escapeChar '\'' c ++ ['\''])

def takeHex? (n : Nat) (cs : List Char) : Option (Nat × List Char) :=
  if cs.length < n then none
  else (readDigits? 16 (cs.take n)).map (·, cs.drop n)

def octal? (a b c : Char) : Option UInt8 := do
  let n ← readDigits? 8 [a, b, c]
  if n < 256 then some n.toUInt8 else none

/-- Bytes of the escape after a backslash, and what follows it. -/
def escape? (quote : Char) : List Char → Option (Bytes × List Char)
  | 'a' :: cs => some ([7], cs)
  | 'b' :: cs => some ([8], cs)
  | 'f' :: cs => some ([12], cs)
  | 'n' :: cs => some ([10], cs)
  | 'r' :: cs => some ([13], cs)
  | 't' :: cs => some ([9], cs)
  | 'v' :: cs => some ([11], cs)
  | '\\' :: cs => some ([92], cs)
  | 'x' :: cs => (takeHex? 2 cs).map fun (n, r) => ([n.toUInt8], r)
  | 'u' :: cs => do
    let (n, r) ← takeHex? 4 cs
    if n.isValidChar then some (charBytes (Char.ofNat n), r) else none
  | 'U' :: cs => do
    let (n, r) ← takeHex? 8 cs
    if n.isValidChar then some (charBytes (Char.ofNat n), r) else none
  | c :: cs =>
    if c = '\'' ∨ c = '"' then
      if c = quote then some (charBytes c, cs) else none
    else
      match cs with
      | d :: e :: r => (octal? c d e).map fun b => ([b], r)
      | _ => none
  | [] => none

theorem takeHex?_length {n : Nat} {cs r : List Char} {v : Nat}
    (h : takeHex? n cs = some (v, r)) : r.length ≤ cs.length := by
  unfold takeHex? at h
  split at h
  · contradiction
  · simp only [Option.map_eq_some_iff, Prod.mk.injEq] at h
    obtain ⟨_, _, _, rfl⟩ := h
    simp

theorem escape?_length {q : Char} {cs r : List Char} {bs : Bytes}
    (h : escape? q cs = some (bs, r)) : r.length < cs.length := by
  unfold escape? at h
  split at h
  all_goals first
    | (simp only [Option.some.injEq, Prod.mk.injEq] at h; obtain ⟨_, rfl⟩ := h; simp)
    | skip
  case h_9 =>
    simp only [Option.map_eq_some_iff, Prod.mk.injEq, Prod.exists] at h
    obtain ⟨_, _, ht, _, rfl⟩ := h
    have := takeHex?_length ht
    simp; omega
  case h_10 =>
    simp only [bind, Option.bind_eq_some_iff, Prod.exists] at h
    obtain ⟨_, _, ht, h⟩ := h
    split at h
    · simp only [Option.some.injEq, Prod.mk.injEq] at h
      obtain ⟨_, rfl⟩ := h
      have := takeHex?_length ht
      simp; omega
    · contradiction
  case h_11 =>
    simp only [bind, Option.bind_eq_some_iff, Prod.exists] at h
    obtain ⟨_, _, ht, h⟩ := h
    split at h
    · simp only [Option.some.injEq, Prod.mk.injEq] at h
      obtain ⟨_, rfl⟩ := h
      have := takeHex?_length ht
      simp; omega
    · contradiction
  case h_12 =>
    split at h
    · split at h
      · simp only [Option.some.injEq, Prod.mk.injEq] at h
        obtain ⟨_, rfl⟩ := h
        simp
      · contradiction
    · split at h
      · simp only [Option.map_eq_some_iff, Prod.mk.injEq] at h
        obtain ⟨_, _, _, rfl⟩ := h
        simp only [List.length_cons]; omega
      · contradiction
  case h_13 => contradiction

def body? (quote : Char) (cs : List Char) : Option (Bytes × List Char) :=
  match cs with
  | [] => none
  | c :: rest =>
    if c = quote then some ([], rest)
    else if c = '\n' then none
    else if c = '\\' then
      match _h : escape? quote rest with
      | none => none
      | some (bs, r) => (body? quote r).map fun (more, tail) => (bs ++ more, tail)
    else (body? quote rest).map fun (more, tail) => (charBytes c ++ more, tail)
termination_by cs.length
decreasing_by
  · have := escape?_length _h
    simp only [List.length_cons]; omega
  · simp

def single? : List Char → Option Bytes
  | ['\''] => some []
  | '\\' :: rest => do
    let (bs, r) ← escape? '\'' rest
    if r = ['\''] then some bs else none
  | [c, '\''] => if c = '\'' ∨ c = '\n' then none else some (charBytes c)
  | _ => none

def raw? (cs : List Char) : Option Bytes :=
  match cs.reverse with
  | '\x60' :: inner =>
    if inner.contains '\x60' then none
    else some ((inner.reverse.filter (· != '\r')).flatMap charBytes)
  | _ => none

def decode? (s : String) : Option Bytes :=
  match s.toList with
  | '"' :: cs =>
    match body? '"' cs with
    | some (bs, []) => some bs
    | _ => none
  | '\'' :: cs => single? cs
  | '\x60' :: cs => raw? cs
  | _ => none

end RegCode.Text.Quoted
