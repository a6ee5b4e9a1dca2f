/-! Cutting a text at a given piece: stripping an end, the part before and after an occurrence,
and splitting at every occurrence of a character or at white space. -/
namespace RegCode.Text

def stripStartChars? : List Char → List Char → Option (List Char)
  | [], cs => some cs
  | _ :: _, [] => none
  | p :: ps, c :: cs => if p = c then stripStartChars? ps cs else none

def stripStart? (p s : String) : Option String :=
  (stripStartChars? p.toList s.toList).map String.ofList

def stripEnd? (p s : String) : Option String :=
  (stripStartChars? p.toList.reverse s.toList.reverse).map fun cs => String.ofList cs.reverse

def stripStart (p s : String) : String := (stripStart? p s).getD s

def stripEnd (p s : String) : String := (stripEnd? p s).getD s

def startsWith (p s : String) : Bool := (stripStartChars? p.toList s.toList).isSome

def endsWith (p s : String) : Bool := (stripEnd? p s).isSome

def cutChars? (p : List Char) : List Char → Option (List Char × List Char)
  | [] => if p = [] then some ([], []) else none
  | c :: cs =>
    match stripStartChars? p (c :: cs) with
    | some rest => some ([], rest)
    | none => (cutChars? p cs).map fun (a, b) => (c :: a, b)

def cut? (p s : String) : Option (String × String) :=
  (cutChars? p.toList s.toList).map fun (a, b) => (String.ofList a, String.ofList b)

def hasInfix (p s : String) : Bool := (cutChars? p.toList s.toList).isSome

def cutWhere? (p : Char → Bool) : List Char → Option (List Char × Char × List Char)
  | [] => none
  | c :: cs =>
    if p c then some ([], c, cs)
    else (cutWhere? p cs).map fun (a, d, b) => (c :: a, d, b)

def cutAtChar? (c : Char) (s : String) : Option (String × String) :=
  (cutWhere? (· == c) s.toList).map fun (a, _, b) => (String.ofList a, String.ofList b)

def cutAtLast? (c : Char) (s : String) : Option (String × String) :=
  (cutWhere? (· == c) s.toList.reverse).map fun (a, _, b) =>
    (String.ofList b.reverse, String.ofList a.reverse)

def piecesAt (sep : Char → Bool) : List Char → List (List Char)
  | [] => [[]]
  | c :: cs =>
    match piecesAt sep cs with
    | [] => [[c]]
    | p :: ps => if sep c then [] :: p :: ps else (c :: p) :: ps

def pieces (c : Char) (s : String) : List String :=
  (piecesAt (· == c) s.toList).map String.ofList

def lines (s : String) : List String :=
  match (pieces '\n' s).reverse with
  | "" :: rest => rest.reverse
  | all => all.reverse

def replaceChar (a b : Char) (s : String) : String :=
  String.ofList (s.toList.map fun c => if c = a then b else c)

def replaceChars (p q : List Char) (fuel : Nat) (cs : List Char) : List Char :=
  match fuel with
  | 0 => cs
  | fuel + 1 =>
    match cutChars? p cs with
    | none => cs
    | some (a, b) => a ++ q ++ replaceChars p q fuel b

def replace (p q s : String) : String :=
  if p.isEmpty then s
  else String.ofList (replaceChars p.toList q.toList s.length s.toList)

def copies (n : Nat) (s : String) : String := String.join (List.replicate n s)

def padLeft (width : Nat) (s : String) : String :=
  copies (width - s.length) " " ++ s

def padRight (width : Nat) (s : String) : String :=
  s ++ copies (width - s.length) " "

def isBlank (c : Char) : Bool :=
  let n := c.toNat
  (9 ≤ n && n ≤ 13) || n == 0x20 || n == 0x85 || n == 0xA0 || n == 0x1680 ||
  (0x2000 ≤ n && n ≤ 0x200A) || n == 0x2028 || n == 0x2029 || n == 0x202F ||
  n == 0x205F || n == 0x3000

def trimStartChars (cs : List Char) : List Char := cs.dropWhile isBlank

def trimEndChars (cs : List Char) : List Char := (cs.reverse.dropWhile isBlank).reverse

def trimChars (cs : List Char) : List Char := trimEndChars (trimStartChars cs)

def trim (s : String) : String := String.ofList (trimChars s.toList)

def trimEnd (s : String) : String := String.ofList (trimEndChars s.toList)

def runsOutside (sep : Char → Bool) : List Char → List Char → List (List Char)
  | [], [] => []
  | acc, [] => [acc.reverse]
  | acc, c :: rest =>
    if sep c then
      match acc with
      | [] => runsOutside sep [] rest
      | _ :: _ => acc.reverse :: runsOutside sep [] rest
    else runsOutside sep (c :: acc) rest

def words (s : String) : List String := (runsOutside isBlank [] s.toList).map String.ofList

end RegCode.Text
