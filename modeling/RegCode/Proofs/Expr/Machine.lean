import RegCode.Expr.Fold
import Mathlib.Algebra.Group.Nat.Defs
import Mathlib.Algebra.Ring.Int.Defs

/-! Whole numbers as words of their width. The folder computes in 64 bits and cuts the result to the
type; words wrap around in every operation. -/
namespace RegCode

def cutTo (type : String) (n : Int) : Int :=
  match type with
  | "J" => (BitVec.ofInt 64 n).toInt
  | "B" => (BitVec.ofInt 8 n).toInt
  | "S" => (BitVec.ofInt 16 n).toInt
  | "C" => ((BitVec.ofInt 16 n).toNat : Int)
  | "Z" => if n = 0 then 0 else 1
  | _ => (BitVec.ofInt 32 n).toInt

def wordType (type : String) : String := if type = "J" ∨ type = "Z" then type else "I"

def wordWidth (type : String) : Nat := if type = "J" then 64 else 32

/-- Whether a number is one of the type. -/
def InRange (type : String) (n : Int) : Prop := cutTo type n = n

namespace Arith

def isShift (op : Arith) : Bool := op = shl || op = shr || op = ushr

def divides (op : Arith) : Bool := op = div || op = rem

def words? (op : Arith) {w : Nat} (x y : BitVec w) : Option (BitVec w) :=
  match op with
  | add => some (x + y)
  | sub => some (x - y)
  | rsub => some (y - x)
  | mul => some (x * y)
  | div => if y = 0 then none else some (x.sdiv y)
  | rem => if y = 0 then none else some (x.srem y)
  | and => some (x &&& y)
  | or => some (x ||| y)
  | xor => some (x ^^^ y)
  | shl => some (x <<< (y.toNat % w))
  | shr => some (x.sshiftRight (y.toNat % w))
  | ushr => some (x >>> (y.toNat % w))
  | neg | not => none

end Arith

theorem integralCases {type : String} (integral : isIntegral type = true) :
    type = "I" ∨ type = "J" ∨ type = "B" ∨ type = "S" ∨ type = "C" ∨ type = "Z" := by
  simpa [isIntegral,or_assoc] using integral

theorem ofIntBmod {w m : Nat} (n : Int) (divides : 2 ^ w ∣ m) : BitVec.ofInt w (n.bmod m) = BitVec.ofInt w n := by
  apply BitVec.eq_of_toInt_eq
  rw [BitVec.toInt_ofInt,BitVec.toInt_ofInt,Int.bmod_bmod_of_dvd divides]

theorem widthDvd (type : String) : 2 ^ wordWidth type ∣ 18446744073709551616 := by
  unfold wordWidth
  split <;> decide

theorem ofIntWrap (type : String) (n : Int) :
    BitVec.ofInt (wordWidth type) (Text.wrap64 n) = BitVec.ofInt (wordWidth type) n :=
  ofIntBmod n (widthDvd type)

namespace Arith

variable {op : Arith} {type : String} {a b : Int}

theorem wordsBitwise (f : {w : Nat} → BitVec w → BitVec w → BitVec w)
    (cuts : ∀ x y : BitVec 64, (f x y).setWidth (wordWidth type) = f (x.setWidth _) (y.setWidth _)) :
    BitVec.ofInt (wordWidth type) (bitwise f a b) = f (BitVec.ofInt _ a) (BitVec.ofInt _ b) := by
  have le : wordWidth type ≤ 64 := by unfold wordWidth; split <;> decide
  have cut : ∀ x : BitVec 64, BitVec.ofInt (wordWidth type) x.toInt = x.setWidth (wordWidth type) := fun x => by
    rw [← BitVec.signExtend_eq_setWidth_of_le _ le]
    rfl
  have same : ∀ n, (BitVec.ofInt 64 n).setWidth (wordWidth type) = BitVec.ofInt (wordWidth type) n := fun n => by
    rw [← cut,BitVec.toInt_ofInt]
    exact ofIntBmod n (widthDvd type)
  rw [bitwise,cut,cuts,same,same]

theorem powPos (w : Nat) : (0 : Int) < ((2 ^ w : Nat) : Int) := Int.natCast_pos.mpr (Nat.two_pow_pos w)

theorem countSame (type : String) (b : Int) :
    (BitVec.ofInt (wordWidth type) b).toNat % wordWidth type = shiftCount type b := by
  by_cases long : type = "J" <;> simp only [wordWidth,shiftCount,long,if_true,if_false,BitVec.toNat_ofInt] <;> omega

theorem evalBits (known : op ≠ rsub ∧ op ≠ neg ∧ op ≠ not)
    (left : type = "J" ∨ op.divides → (BitVec.ofInt (wordWidth type) a).toInt = a)
    (right : op.divides → (BitVec.ofInt (wordWidth type) b).toInt = b) :
    (op.eval? type a b).map (BitVec.ofInt (wordWidth type)) =
      op.words? (BitVec.ofInt (wordWidth type) a) (BitVec.ofInt (wordWidth type) b) := by
  have count := countSame type b
  have zero : op.divides → (b = 0 ↔ BitVec.ofInt (wordWidth type) b = 0) := fun divides => by
    rw [← BitVec.toInt_inj,right divides]
    simp
  cases op with
  | add => simp [eval?,words?,ofIntWrap,BitVec.ofInt_add]
  | sub =>
    simp only [eval?,words?,Option.map_some,ofIntWrap]
    exact congrArg some (BitVec.eq_of_toInt_eq (by simp))
  | mul => simp [eval?,words?,ofIntWrap,BitVec.ofInt_mul]
  | div =>
    simp only [eval?,words?]
    by_cases none : b = 0
    · rw [if_pos none,if_pos ((zero rfl).mp none)]
      rfl
    · rw [if_neg none,if_neg ((not_congr (zero rfl)).mp none),Option.map_some,ofIntWrap]
      refine congrArg some (BitVec.eq_of_toInt_eq ?_)
      rw [BitVec.toInt_sdiv,left (.inr rfl),right rfl,BitVec.toInt_ofInt]
  | rem =>
    simp only [eval?,words?]
    by_cases none : b = 0
    · rw [if_pos none,if_pos ((zero rfl).mp none)]
      rfl
    · rw [if_neg none,if_neg ((not_congr (zero rfl)).mp none),Option.map_some]
      have same := BitVec.toInt_srem (BitVec.ofInt (wordWidth type) a) (BitVec.ofInt (wordWidth type) b)
      rw [left (.inr rfl),right rfl] at same
      rw [← same,BitVec.ofInt_toInt]
  | and => exact congrArg some (wordsBitwise (· &&& ·) fun x y => BitVec.setWidth_and)
  | or => exact congrArg some (wordsBitwise (· ||| ·) fun x y => BitVec.setWidth_or)
  | xor => exact congrArg some (wordsBitwise (· ^^^ ·) fun x y => BitVec.setWidth_xor)
  | shl =>
    simp only [eval?,words?,Option.map_some,ofIntWrap,count]
    refine congrArg some (BitVec.eq_of_toInt_eq ?_)
    rw [BitVec.toInt_shiftLeft,BitVec.toInt_ofInt,BitVec.toNat_ofInt,Nat.shiftLeft_eq,Int.natCast_mul,
      Int.toNat_of_nonneg (Int.emod_nonneg _ (Int.ne_of_gt (powPos _))),Int.emod_mul_bmod]
    rfl
  | shr =>
    have shifted : BitVec.ofInt (wordWidth type) ((BitVec.ofInt (wordWidth type) a).toInt / shiftFactor type b) =
        (BitVec.ofInt (wordWidth type) a).sshiftRight (shiftCount type b) := by
      rw [shiftFactor,show Nat.pow 2 (shiftCount type b) = 2 ^ shiftCount type b from rfl,
        ← Int.shiftRight_eq_div_pow,← BitVec.toInt_sshiftRight,BitVec.ofInt_toInt]
    simp only [eval?,words?,count]
    by_cases long : type = "J"
    · rw [if_pos long,Option.map_some,← shifted,left (.inl long)]
    · rw [if_neg long,Option.map_some,← shifted,BitVec.toInt_ofInt]
      simp [wordWidth,long]
  | ushr =>
    have shifted : BitVec.ofInt (wordWidth type) (a % ((2 ^ wordWidth type : Nat) : Int) / shiftFactor type b) =
        BitVec.ofInt (wordWidth type) a >>> shiftCount type b := by
      refine BitVec.eq_of_toNat_eq ?_
      have whole := Int.emod_nonneg a (Int.ne_of_gt (powPos (wordWidth type)))
      have less := Int.emod_lt_of_pos a (powPos (wordWidth type))
      obtain ⟨n,same⟩ := Int.eq_ofNat_of_zero_le whole
      rw [BitVec.toNat_ofInt,BitVec.toNat_ushiftRight,BitVec.toNat_ofInt,Nat.shiftRight_eq_div_pow,same]
      rw [same] at less
      have below : n / 2 ^ shiftCount type b < 2 ^ wordWidth type :=
        Nat.lt_of_le_of_lt (Nat.div_le_self ..) (by exact_mod_cast less)
      exact_mod_cast Nat.mod_eq_of_lt below
    simp only [eval?,words?,count]
    by_cases long : type = "J"
    · rw [if_pos long,Option.map_some,ofIntWrap,← shifted]
      simp [wordWidth,long]
    · rw [if_neg long,Option.map_some,← shifted]
      simp [wordWidth,long]
  | _ => simp at known

theorem fitsWord (x : BitVec 64) : InRange "J" x.toInt := congrArg BitVec.toInt BitVec.ofInt_toInt

theorem fitsWrap (n : Int) : InRange "J" (Text.wrap64 n) := by
  have same : (BitVec.ofInt 64 n).toInt = Text.wrap64 n := BitVec.toInt_ofInt n
  exact same ▸ fitsWord _

theorem evalLong {n : Int} (left : InRange "J" a) (right : op.divides → InRange "J" b)
    (gives : op.eval? "J" a b = some n) : InRange "J" n := by
  cases op with
  | rem =>
    simp only [eval?] at gives
    split at gives
    · contradiction
    · cases gives
      have same := BitVec.toInt_srem (BitVec.ofInt 64 a) (BitVec.ofInt 64 b)
      rw [show (BitVec.ofInt 64 a).toInt = a from left,show (BitVec.ofInt 64 b).toInt = b from right rfl] at same
      rw [← same]
      exact fitsWord _
  | shr =>
    cases gives
    have same : ((BitVec.ofInt 64 a).sshiftRight (shiftCount "J" b)).toInt = a / shiftFactor "J" b := by
      rw [BitVec.toInt_sshiftRight,show (BitVec.ofInt 64 a).toInt = a from left,Int.shiftRight_eq_div_pow]
      rfl
    rw [← same]
    exact fitsWord _
  | div =>
    simp only [eval?] at gives
    split at gives
    · contradiction
    · cases gives
      exact fitsWrap _
  | and => cases gives; exact fitsWord _
  | or => cases gives; exact fitsWord _
  | xor => cases gives; exact fitsWord _
  | _ => cases gives <;> exact fitsWrap _

end Arith

theorem truncateBits {type : String} {n : Int} (integral : isIntegral type = true) (other : type ≠ "Z")
    (long : type = "J" → InRange "J" n) : truncateTo type n = cutTo type (BitVec.ofInt (wordWidth type) n).toInt := by
  have cut : ∀ {w : Nat}, w ≤ 32 → BitVec.ofInt w (BitVec.ofInt 32 n).toInt = BitVec.ofInt w n := fun le => by
    rw [BitVec.toInt_ofInt]
    exact ofIntBmod n (Nat.pow_dvd_pow 2 le)
  rcases integralCases integral with rfl | rfl | rfl | rfl | rfl | rfl
  · exact (BitVec.toInt_ofInt n).symm.trans (congrArg BitVec.toInt (cut (Nat.le_refl 32)).symm)
  · have fits : (BitVec.ofInt 64 n).toInt = n := long rfl
    exact fits.symm.trans (congrArg (fun k => (BitVec.ofInt 64 k).toInt) fits.symm)
  · exact (BitVec.toInt_ofInt n).symm.trans (congrArg BitVec.toInt (cut (w := 8) (by decide)).symm)
  · exact (BitVec.toInt_ofInt n).symm.trans (congrArg BitVec.toInt (cut (w := 16) (by decide)).symm)
  · have nat : truncateTo "C" n = ((BitVec.ofInt 16 n).toNat : Int) := by
      rw [BitVec.toNat_ofInt]
      exact (Int.toNat_of_nonneg (Int.emod_nonneg _ (by decide))).symm
    exact nat.trans (congrArg (fun x : BitVec 16 => (x.toNat : Int)) (cut (by decide)).symm)
  · contradiction

theorem wideWord {type : String} (other : type ≠ "Z") (n : Int) :
    cutTo (wordType type) n = (BitVec.ofInt (wordWidth type) n).toInt := by
  by_cases long : type = "J"
  · simp [wordType,wordWidth,cutTo,long]
  · simp [wordType,wordWidth,cutTo,long,other]

theorem fitsFlag {n : Int} (fits : InRange "Z" n) : n = 0 ∨ n = 1 := by
  by_cases zero : n = 0
  · exact .inl zero
  · have one : (1 : Int) = n := by simpa [InRange,cutTo,zero] using fits
    exact .inr one.symm

theorem Arith.evalFlags (op : Arith) {a b : Int} (known : op ≠ .rsub ∧ op ≠ .neg ∧ op ≠ .not)
    (left : InRange "Z" a) (right : InRange "Z" b) : (op.eval? "Z" a b).map (truncateTo "Z") =
      (op.words? (BitVec.ofInt 32 a) (BitVec.ofInt 32 b)).map fun x => cutTo "Z" x.toInt := by
  rcases fitsFlag left with rfl | rfl <;> rcases fitsFlag right with rfl | rfl <;>
    cases op <;> first | decide +kernel | simp at known

theorem Arith.evalWords {op : Arith} {type : String} {a b : Int} (integral : isIntegral type = true)
    (known : op ≠ .rsub ∧ op ≠ .neg ∧ op ≠ .not)
    (left : type = "J" ∨ type = "Z" ∨ op.divides → InRange (wordType type) a)
    (right : type = "Z" ∨ op.divides → InRange (wordType type) b) : (op.eval? type a b).map (truncateTo type) =
      (op.words? (BitVec.ofInt (wordWidth type) a) (BitVec.ofInt (wordWidth type) b)).map fun x =>
        cutTo type x.toInt := by
  by_cases flag : type = "Z"
  · subst flag
    exact op.evalFlags known (left (.inr (.inl rfl))) (right (.inl rfl))
  · rw [← evalBits known (fun whole => (wideWord flag a).symm.trans (left (whole.imp id .inr)))
      (fun divides => (wideWord flag b).symm.trans (right (.inr divides))),Option.map_map]
    refine Option.map_congr fun n gives => truncateBits integral flag fun long => ?_
    subst long
    exact evalLong (left (.inl rfl)) (fun divides => right (.inr divides)) gives

namespace Arith

def word (op : Arith) {w : Nat} (x : BitVec w) : BitVec w := if op = neg then -x else ~~~x

end Arith

theorem Arith.evalWord (op : Arith) {type : String} {a : Int} (integral : isIntegral type = true)
    (whole : type = "J" ∨ type = "Z" → InRange (wordType type) a) :
    truncateTo type (if op = .neg then Text.wrap64 (-a) else -a - 1) =
      cutTo type (op.word (BitVec.ofInt (wordWidth type) a)).toInt := by
  by_cases flag : type = "Z"
  · subst flag
    rcases fitsFlag (whole (.inr rfl)) with rfl | rfl <;> cases op <;> decide
  · have bits : BitVec.ofInt (wordWidth type) (if op = .neg then Text.wrap64 (-a) else -a - 1) =
        op.word (BitVec.ofInt (wordWidth type) a) := by
      unfold word
      split
      · rw [ofIntWrap,BitVec.ofInt_neg]
      · rw [BitVec.not_eq_neg_add,Int.sub_eq_add_neg,BitVec.ofInt_add,BitVec.ofInt_neg,BitVec.ofInt_neg,
          BitVec.sub_eq_add_neg]
        rfl
    rw [← bits]
    refine truncateBits integral flag fun long => ?_
    subst long
    have fits : (BitVec.ofInt 64 a).toInt = a := whole (.inl rfl)
    split
    · exact fitsWrap _
    · have less := BitVec.toInt_lt (x := BitVec.ofInt 64 a)
      have more := BitVec.le_toInt (BitVec.ofInt 64 a)
      rw [fits] at less more
      rw [InRange,cutTo,BitVec.toInt_ofInt]
      exact Int.bmod_eq_of_le (by omega) (by omega)

/-! What expressions come to. Whole numbers are computed and compared as words of their types; all
else, and what calls, allocations and reads do with the world, is left to the machine. -/

open Text (Bytes)

instance (type : String) (n : Int) : Decidable (InRange type n) := inferInstanceAs (Decidable (_ = _))

inductive Head where
  | str (text : Bytes)
  | classRef (ref : String)
  | caught (ref : String)
  | binary (op : Arith) (type : String)
  | unary (op : Arith) (type : String)
  | cast (target : String) (check : Bool)
  | instanceOf (ref : String)
  | staticField (ref : FieldRef)
  | field (ref : FieldRef)
  | element (type : String)
  | length
  | newObject (ref : String) (init : Bool)
  | newArray (ref : String)
  | filled (ref : String)
  | call (kind : InvokeKind) (method : MethodRef)
  | callOn (kind : InvokeKind) (method : MethodRef)
  deriving DecidableEq, Repr

/-- A whole number, or a reference, or a floating-point number. -/
inductive Datum (O : Type) where
  | whole (n : Int)
  | other (o : O)
  deriving DecidableEq, Repr

inductive Ending (A O W : Type) where
  | value (a : A) (w : W)
  | raised (o : O) (w : W)
  | stuck
  deriving DecidableEq, Repr

namespace Ending

variable {A B O W : Type}

def andThen (x : Ending A O W) (f : A → W → Ending B O W) : Ending B O W :=
  match x with
  | value a w => f a w
  | raised o w => raised o w
  | stuck => stuck

def ofOption (x : Option A) (w : W) : Ending A O W := x.elim stuck fun a => value a w

theorem andThenStuck {x : Ending A O W} {f : A → W → Ending B O W} (known : x.andThen f ≠ stuck) :
    x ≠ stuck := by
  rintro rfl
  exact known rfl

theorem andThenValue {x : Ending A O W} {f : A → W → Ending B O W} {a : A} {w : W} (known : x.andThen f ≠ stuck)
    (gives : x = value a w) : f a w ≠ stuck := by
  subst gives
  exact known

theorem andThenCongr {x : Ending A O W} {f g : A → W → Ending B O W}
    (same : ∀ a w, x = value a w → f a w = g a w) : x.andThen f = x.andThen g := by
  cases x with
  | value a w => exact same a w rfl
  | raised o w => rfl
  | stuck => rfl

theorem andThenAssoc {C : Type} (x : Ending A O W) (f : A → W → Ending B O W) (g : B → W → Ending C O W) :
    (x.andThen f).andThen g = x.andThen fun a w => (f a w).andThen g := by cases x <;> rfl

end Ending

structure Machine (O W : Type) where
  constant : String → Int → O
  order : Datum O → Datum O → Option Ordering
  apply : Head → List (Datum O) → W → Ending (Datum O) O W
  byZero : O

namespace Cond

def holds (op : Cond) (order : Option Ordering) : Bool :=
  match op with
  | eq => order = some .eq
  | ne => order ≠ some .eq
  | lt => order = some .lt
  | ge => order = some .gt ∨ order = some .eq
  | gt => order = some .gt
  | le => order = some .lt ∨ order = some .eq

end Cond

def signOf : Ordering → Int
  | .lt => -1
  | .eq => 0
  | .gt => 1

def Arith.rightType (op : Arith) (type : String) : String :=
  if op.isShift ∧ type ≠ "Z" then "J" else wordType type

namespace Machine

variable {O W : Type} (m : Machine O W)

def literal (type : String) (n : Int) : Datum O :=
  if isIntegral type then .whole (cutTo type n) else .other (m.constant type n)

def relate : Datum O → Datum O → Option Ordering
  | .whole a, .whole b => some (compare a b)
  | x, y => m.order x y

def binary (op : Arith) (type : String) (x y : Datum O) (w : W) : Ending (Datum O) O W :=
  if isIntegral type then
    match x, y with
    | .whole a, .whole b =>
      if (op ≠ .neg ∧ op ≠ .not) ∧ InRange (wordType type) a ∧ InRange (op.rightType type) b then
        match op.words? (BitVec.ofInt (wordWidth type) a) (BitVec.ofInt (wordWidth type) b) with
        | some z => .value (.whole (cutTo type z.toInt)) w
        | none => .raised m.byZero w
      else .stuck
    | _, _ => .stuck
  else m.apply (.binary op type) [x,y] w

def unary (op : Arith) (type : String) (x : Datum O) (w : W) : Ending (Datum O) O W :=
  if isIntegral type then
    match x with
    | .whole a =>
      if (op = .neg ∨ op = .not) ∧ InRange (wordType type) a then
        .value (.whole (cutTo type (op.word (BitVec.ofInt (wordWidth type) a)).toInt)) w
      else .stuck
    | .other _ => .stuck
  else m.apply (.unary op type) [x] w

def cast (target : String) (check : Bool) (x : Datum O) (w : W) : Ending (Datum O) O W :=
  match x with
  | .whole a =>
    if isIntegral target ∧ check = false then .value (.whole (cutTo target a)) w
    else m.apply (.cast target check) [x] w
  | .other _ => m.apply (.cast target check) [x] w

def threeWay (type bias : String) (x y : Datum O) : Option Int :=
  match m.relate x y with
  | some order => some (signOf order)
  | none => if type = "J" then none else if bias = "l" then some (-1) else if bias = "g" then some 1 else none

def tested (op : Cond) (x y : Datum O) (w : W) : Ending (Datum O) O W :=
  .value (.whole (if op.holds (m.relate x y) then 1 else 0)) w

def bare : Machine Unit Unit := ⟨fun _ _ => (),fun _ _ => none,fun _ _ _ => .stuck,()⟩

end Machine

namespace Expr

variable {O W : Type} (m : Machine O W) (ρ : VarId → Datum O)

mutual

def eval : Expr → W → Ending (Datum O) O W
  | var v, w => .value (ρ v) w
  | const type n, w => .value (m.literal type n) w
  | str text, w => m.apply (.str text) [] w
  | classRef ref, w => m.apply (.classRef ref) [] w
  | caught ref, w => m.apply (.caught ref) [] w
  | binary op l r type, w => (l.eval w).andThen fun x w => (r.eval w).andThen fun y w => m.binary op type x y w
  | unary op e type, w => (e.eval w).andThen fun x w => m.unary op type x w
  | cast target e check, w => (e.eval w).andThen fun x w => m.cast target check x w
  | compare l r type bias, w => (l.eval w).andThen fun x w => (r.eval w).andThen fun y w =>
    .ofOption ((m.threeWay type bias x y).map .whole) w
  | test op l r, w => (l.eval w).andThen fun x w => (r.eval w).andThen fun y w => m.tested op x y w
  | testZero op l, w => (l.eval w).andThen fun x w => m.tested op x (.whole 0) w
  | instanceOf e ref, w => (e.eval w).andThen fun x w => m.apply (.instanceOf ref) [x] w
  | staticField ref, w => m.apply (.staticField ref) [] w
  | field ref o, w => (o.eval w).andThen fun x w => m.apply (.field ref) [x] w
  | element a i type, w => (a.eval w).andThen fun x w => (i.eval w).andThen fun y w => m.apply (.element type) [x,y] w
  | length a, w => (a.eval w).andThen fun x w => m.apply .length [x] w
  | newObject ref args init, w => (evalAll args w).andThen fun xs w => m.apply (.newObject ref init) xs w
  | newArray ref n, w => (n.eval w).andThen fun x w => m.apply (.newArray ref) [x] w
  | filled ref es, w => (evalAll es w).andThen fun xs w => m.apply (.filled ref) xs w
  | call kind method args, w => (evalAll args w).andThen fun xs w => m.apply (.call kind method) xs w
  | callOn kind method r args, w => (r.eval w).andThen fun x w => (evalAll args w).andThen fun xs w =>
    m.apply (.callOn kind method) (x :: xs) w

def evalAll : List Expr → W → Ending (List (Datum O)) O W
  | [], w => .value [] w
  | e :: es, w => (e.eval w).andThen fun x w => (evalAll es w).andThen fun xs w => .value (x :: xs) w

end

end Expr

end RegCode
