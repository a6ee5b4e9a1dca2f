/-! Sorting in place by a comparison, without regard to the order of equal elements. Short ranges are
sorted by insertion; longer ones are cut at a pivot, and a range that was cut badly too often is
sorted as a heap. The order that equal elements end up in is fixed by the steps below. -/
namespace RegCode.Sorting

variable {α : Type}

def less (lt : α → α → Bool) (xs : Array α) (i j : Nat) : Bool :=
  match xs[i]?, xs[j]? with
  | some x, some y => lt x y
  | _, _ => false

def sink (lt : α → α → Bool) (lo : Nat) : Nat → Array α → Array α
  | 0, xs => xs
  | j + 1, xs =>
    if lo < j + 1 ∧ less lt xs (j + 1) j then sink lt lo j (xs.swapIfInBounds (j + 1) j) else xs

def insertion (lt : α → α → Bool) (xs : Array α) (a b : Nat) : Array α :=
  (List.range' (a + 1) (b - (a + 1))).foldl (fun xs i => sink lt a i xs) xs

def rise (lt : α → α → Bool) (b : Nat) : Nat → Nat → Array α → Array α
  | 0, _, xs => xs
  | fuel + 1, j, xs =>
    if j < b ∧ less lt xs j (j - 1) then rise lt b fuel (j + 1) (xs.swapIfInBounds j (j - 1)) else xs

def climb (test : Nat → Bool) (last : Nat) : Nat → Nat → Nat
  | 0, i => i
  | fuel + 1, i => if i ≤ last ∧ test i then climb test last fuel (i + 1) else i

def descend (test : Nat → Bool) (first : Nat) : Nat → Nat
  | 0 => 0
  | j + 1 => if first ≤ j + 1 ∧ test (j + 1) then descend test first j else j + 1

def patch (lt : α → α → Bool) (a b : Nat) : Nat → Nat → Array α → Bool × Array α
  | 0, _, xs => (false, xs)
  | steps + 1, i, xs =>
    let i := climb (fun i => !less lt xs i (i - 1)) (b - 1) (b - i) i
    if b ≤ i then (true, xs)
    else if b - a < 50 then (false, xs)
    else
      let xs := xs.swapIfInBounds i (i - 1)
      let xs := if 2 ≤ i - a then sink lt 0 (i - 1) xs else xs
      let xs := if 2 ≤ b - i then rise lt b (b - i) (i + 1) xs else xs
      patch lt a b steps i xs

def siftDown (lt : α → α → Bool) (first hi : Nat) : Nat → Nat → Array α → Array α
  | 0, _, xs => xs
  | fuel + 1, root, xs =>
    let child := 2 * root + 1
    if hi ≤ child then xs
    else
      let child :=
        if child + 1 < hi ∧ less lt xs (first + child) (first + child + 1) then child + 1 else child
      if !less lt xs (first + root) (first + child) then xs
      else siftDown lt first hi fuel child (xs.swapIfInBounds (first + root) (first + child))

def heap (lt : α → α → Bool) (xs : Array α) (a b : Nat) : Array α :=
  let n := b - a
  let xs := (List.range ((n - 1) / 2 + 1)).reverse.foldl (fun xs i => siftDown lt a n n i xs) xs
  (List.range n).reverse.foldl (fun xs i => siftDown lt a i n 0 (xs.swapIfInBounds a (a + i))) xs

def order (lt : α → α → Bool) (xs : Array α) (i j swaps : Nat) : Nat × Nat × Nat :=
  if less lt xs j i then (j, i, swaps + 1) else (i, j, swaps)

def median (lt : α → α → Bool) (xs : Array α) (i j k swaps : Nat) : Nat × Nat :=
  let (i, j, swaps) := order lt xs i j swaps
  let (j, _, swaps) := order lt xs j k swaps
  let (_, j, swaps) := order lt xs i j swaps
  (j, swaps)

/-- What the choice of a pivot tells about a range. -/
inductive Trend where
  | unknown | increasing | decreasing
  deriving DecidableEq, Repr

def choosePivot (lt : α → α → Bool) (xs : Array α) (a b : Nat) : Nat × Trend :=
  let quarter := (b - a) / 4
  let (i, j, k) := (a + quarter, a + quarter * 2, a + quarter * 3)
  let (i, j, k, swaps) :=
    if 50 ≤ b - a then
      let (i, swaps) := median lt xs (i - 1) i (i + 1) 0
      let (j, swaps) := median lt xs (j - 1) j (j + 1) swaps
      let (k, swaps) := median lt xs (k - 1) k (k + 1) swaps
      (i, j, k, swaps)
    else (i, j, k, 0)
  let (j, swaps) := median lt xs i j k swaps
  (j, if swaps = 0 then .increasing else if swaps = 12 then .decreasing else .unknown)

def reverseRange (xs : Array α) (a b : Nat) : Array α :=
  (List.range ((b - a) / 2)).foldl (fun xs i => xs.swapIfInBounds (a + i) (b - 1 - i)) xs

def scramble (r : UInt64) : UInt64 :=
  let r := r ^^^ (r <<< 13)
  let r := r ^^^ (r >>> 7)
  r ^^^ (r <<< 17)

def scatter (xs : Array α) (a b : Nat) : Array α :=
  let n := b - a
  let other (r : UInt64) : Nat :=
    let k := r.toNat % Nat.pow 2 (Nat.log2 n + 1)
    if n ≤ k then k - n else k
  let first := scramble n.toUInt64
  let second := scramble first
  let middle := a + n / 4 * 2 - 1
  let xs := xs.swapIfInBounds (middle - 1) (a + other first)
  let xs := xs.swapIfInBounds middle (a + other second)
  xs.swapIfInBounds (middle + 1) (a + other (scramble second))

def meet (left right : Array α → Nat → Bool) : Nat → Nat → Nat → Array α → Nat × Nat × Array α
  | 0, i, j, xs => (i, j, xs)
  | fuel + 1, i, j, xs =>
    let i := climb (left xs) j (j + 1 - i) i
    let j := descend (right xs) i j
    if j < i then (i, j, xs) else meet left right fuel (i + 1) (j - 1) (xs.swapIfInBounds i j)

def cut (lt : α → α → Bool) (xs : Array α) (a b pivot : Nat) : Nat × Bool × Array α :=
  let xs := xs.swapIfInBounds a pivot
  let left (xs : Array α) (i : Nat) := less lt xs i a
  let right (xs : Array α) (j : Nat) := !less lt xs j a
  let i := climb (left xs) (b - 1) (b - (a + 1)) (a + 1)
  let j := descend (right xs) i (b - 1)
  if j < i then (j, true, xs.swapIfInBounds j a)
  else
    let (_, j, xs) := meet left right (b - a) (i + 1) (j - 1) (xs.swapIfInBounds i j)
    (j, false, xs.swapIfInBounds j a)

def cutEqual (lt : α → α → Bool) (xs : Array α) (a b pivot : Nat) : Nat × Array α :=
  let xs := xs.swapIfInBounds a pivot
  let (i, _, xs) := meet (fun xs i => !less lt xs a i) (fun xs j => less lt xs a j) (b - a) (a + 1)
    (b - 1) xs
  (i, xs)

/-- Sorts the elements from `a` up to before `b`. `limit` bad cuts are allowed; `balanced` and
`settled` tell whether the last cut was good, and whether it found its elements in place. The bound
counts the elements. -/
def sortRange (lt : α → α → Bool) :
    Nat → Array α → Nat → Nat → Nat → Bool → Bool → Array α
  | 0, xs, _, _, _, _, _ => xs
  | fuel + 1, xs, a, b, limit, balanced, settled =>
    let n := b - a
    if n ≤ 12 then insertion lt xs a b
    else if limit = 0 then heap lt xs a b
    else
      let (xs, limit) := if balanced then (xs, limit) else (scatter xs a b, limit - 1)
      let (pivot, trend) := choosePivot lt xs a b
      let (xs, pivot, rising) :=
        if trend = .decreasing then (reverseRange xs a b, (b - 1) - (pivot - a), true)
        else (xs, pivot, decide (trend = .increasing))
      let (done, xs) :=
        if balanced && settled && rising then patch lt a b 5 (a + 1) xs else (false, xs)
      if done then xs
      else if 0 < a ∧ !less lt xs (a - 1) pivot then
        let (middle, xs) := cutEqual lt xs a b pivot
        sortRange lt fuel xs middle b limit balanced settled
      else
        let (middle, found, xs) := cut lt xs a b pivot
        let (left, right) := (middle - a, b - middle)
        if left < right then
          let xs := sortRange lt fuel xs a middle limit true true
          sortRange lt fuel xs (middle + 1) b limit (decide (n / 8 ≤ left)) found
        else
          let xs := sortRange lt fuel xs (middle + 1) b limit true true
          sortRange lt fuel xs a middle limit (decide (n / 8 ≤ right)) found

def sort (lt : α → α → Bool) (xs : List α) : List α :=
  (sortRange lt (xs.length + 1) xs.toArray 0 xs.length (Nat.log2 xs.length + 1) true true).toList

end RegCode.Sorting
