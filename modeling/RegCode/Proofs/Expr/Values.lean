import RegCode.Proofs.Expr.Machine
import RegCode.Proofs.Expr.Refolding

/-! Three-way comparisons that are tested against zero. The folder tests the operands instead and forgets
the bias; of values without an order the two need not tell the same. -/
namespace RegCode

def Cond.Unbiased (op : Cond) (bias : String) : Prop :=
  op = .eq ∨ op = .ne ∨ (bias = "l" ∧ (op = .gt ∨ op = .ge)) ∨ (bias = "g" ∧ (op = .lt ∨ op = .le))

instance (op : Cond) (bias : String) : Decidable (op.Unbiased bias) := inferInstanceAs (Decidable (_ ∨ _))

theorem Cond.holdsLess (op : Cond) : op.holds (some .lt) = op.holds none ↔ op.Unbiased "l" := by
  cases op <;> decide

theorem Cond.holdsMore (op : Cond) : op.holds (some .gt) = op.holds none ↔ op.Unbiased "g" := by
  cases op <;> decide

theorem Cond.holdsNegate (op : Cond) (order : Option Ordering) :
    op.negate.holds order = !op.holds order ↔ order.isSome ∨ op = .eq ∨ op = .ne := by
  rcases order with _ | _ | _ | _ <;> cases op <;> decide

theorem Cond.unbiasedNegate {op : Cond} {bias : String} (biased : bias = "l" ∨ bias = "g")
    (ordering : op ≠ .eq ∧ op ≠ .ne) : op.Unbiased bias ↔ ¬op.negate.Unbiased bias := by
  rcases biased with rfl | rfl <;> cases op <;> first | decide | simp at ordering

namespace Machine

variable {O W : Type} {m : Machine O W}

theorem relateSign (order : Ordering) : m.relate (.whole (signOf order)) (.whole 0) = some order := by
  cases order <;> rfl

theorem threeWayCases {type bias : String} {x y : Datum O} {n : Int} (gives : m.threeWay type bias x y = some n) :
    ∃ order, n = signOf order ∧ (m.relate x y = some order ∨
      m.relate x y = none ∧ type ≠ "J" ∧ (bias = "l" ∧ order = .lt ∨ bias = "g" ∧ order = .gt)) := by
  unfold threeWay at gives
  split at gives
  · rename_i order related
    exact ⟨order,(Option.some.inj gives).symm,.inl related⟩
  · rename_i unordered
    split at gives
    · contradiction
    · rename_i short
      split at gives
      · rename_i less
        exact ⟨.lt,(Option.some.inj gives).symm,.inr ⟨unordered,short,.inl ⟨less,rfl⟩⟩⟩
      · split at gives
        · rename_i more
          exact ⟨.gt,(Option.some.inj gives).symm,.inr ⟨unordered,short,.inr ⟨more,rfl⟩⟩⟩
        · contradiction

theorem holdsSign {op : Cond} {type bias : String} {x y : Datum O} {n : Int}
    (gives : m.threeWay type bias x y = some n) :
    op.holds (m.relate x y) = op.holds (m.relate (.whole n) (.whole 0)) ↔
      (m.relate x y).isSome ∨ op.Unbiased bias := by
  obtain ⟨order,rfl,related | ⟨unordered,-,⟨rfl,rfl⟩ | ⟨rfl,rfl⟩⟩⟩ := threeWayCases gives
  · simp [relateSign,related]
  · rw [relateSign,unordered,eq_comm,op.holdsLess]
    simp
  · rw [relateSign,unordered,eq_comm,op.holdsMore]
    simp

theorem threeWayLong {bias : String} {x y : Datum O} {n : Int} (gives : m.threeWay "J" bias x y = some n) :
    (m.relate x y).isSome := by
  obtain ⟨order,-,related | ⟨-,short,-⟩⟩ := threeWayCases gives
  · rw [related]
    rfl
  · exact (short rfl).elim

end Machine

def truthValue {O W : Type} (b : Bool) (w : W) : Ending (Datum O) O W := .value (.whole (if b then 1 else 0)) w

theorem truthInj {O W : Type} {b c : Bool} {w : W} : truthValue (O := O) b w = truthValue c w ↔ b = c := by
  cases b <;> cases c <;> simp [truthValue]

namespace Test

variable {O W : Type} {m : Machine O W} {ρ : VarId → Datum O}

theorem evalPair {op : Cond} {a b : Expr} {x y : Datum O} {w w₁ w₂ : W} (first : a.eval m ρ w = .value x w₁)
    (second : b.eval m ρ w₁ = .value y w₂) :
    (Test.mk op a (some b)).toExpr.eval m ρ w = truthValue (op.holds (m.relate x y)) w₂ := by
  simp only [toExpr,Expr.eval,first,second,Ending.andThen]
  rfl

theorem evalCompared {op : Cond} {a b : Expr} {type bias : String} {x y : Datum O} {n : Int} {w w₁ w₂ : W}
    (first : a.eval m ρ w = .value x w₁) (second : b.eval m ρ w₁ = .value y w₂)
    (gives : m.threeWay type bias x y = some n) : (Test.mk op (.compare a b type bias) none).toExpr.eval m ρ w =
      truthValue (op.holds (m.relate (.whole n) (.whole 0))) w₂ := by
  simp only [toExpr,Expr.eval,first,second,Ending.andThen,gives]
  rfl

/-- A folded test of a comparison holds where the test held, for values with an order or where the test can do
without the bias, and only there; likewise its negation. Of values without an order one of the two goes wrong, unless
equality is tested. -/
theorem evalFoldCompared (op : Cond) {a b : Expr} {type bias : String} {x y : Datum O} {n : Int} {w w₁ w₂ : W}
    (first : a.eval m ρ w = .value x w₁) (second : b.eval m ρ w₁ = .value y w₂)
    (gives : m.threeWay type bias x y = some n) :
    let c : Test := ⟨op,.compare a b type bias,none⟩
    ∃ holds, c.toExpr.eval m ρ w = truthValue holds w₂ ∧
      (c.fold.1.toExpr.eval m ρ w = truthValue holds w₂ ↔ (m.relate x y).isSome ∨ op.Unbiased bias) ∧
      (c.fold.1.negate.toExpr.eval m ρ w = truthValue (!holds) w₂ ↔
        (m.relate x y).isSome ∨ op.negate.Unbiased bias) ∧
      (m.relate x y = none → op ≠ .eq ∧ op ≠ .ne → (op.Unbiased bias ↔ ¬op.negate.Unbiased bias)) := by
  intro c
  have folded : c.fold.1 = ⟨op,a,some b⟩ := by simp [c,Test.fold,toExpr,Expr.fold,Expr.foldTestZero,ofExpr?]
  have opposite : (!op.holds (m.relate (.whole n) (.whole 0))) = op.negate.holds (m.relate (.whole n) (.whole 0)) :=
    ((op.holdsNegate _).mpr (.inl rfl)).symm
  refine ⟨_,evalCompared first second gives,?_,?_,fun unordered => Cond.unbiasedNegate ?_⟩
  · rw [folded,evalPair first second,truthInj,Machine.holdsSign gives]
  · rw [folded,opposite]
    exact (iff_of_eq (congrArg (· = _) (evalPair first second))).trans (truthInj.trans (Machine.holdsSign gives))
  · obtain ⟨order,-,related | ⟨-,-,biased⟩⟩ := Machine.threeWayCases gives
    · rw [unordered] at related
      contradiction
    · exact biased.imp And.left And.left

/-- The branch that jumps unless one number is less, taken for numbers of which one is none. -/
theorem evalFoldComparedUnordered : let c : Test := ⟨.ge,.compare (.var 0) (.var 1) "F" "g",none⟩
    c.toExpr.eval Machine.bare (fun _ => .other ()) () = truthValue true () ∧
      c.fold.1.toExpr.eval Machine.bare (fun _ => .other ()) () ≠ truthValue true () ∧
      c.fold.1.negate.toExpr.eval Machine.bare (fun _ => .other ()) () = truthValue false () := by
  have reads (v : VarId) : (Expr.var v).eval Machine.bare (fun _ => .other ()) () = .value (.other ()) () := by
    rw [Expr.eval]
  have gives : Machine.bare.threeWay "F" "g" (.other ()) (.other ()) = some 1 := rfl
  obtain ⟨holds,before,after,negated,-⟩ := evalFoldCompared .ge (reads 0) (reads 1) gives
  obtain rfl : holds = true := truthInj.mp (before.symm.trans (evalCompared (reads 0) (reads 1) gives))
  exact ⟨before,fun same => absurd (after.mp same) (by decide),negated.mpr (by decide)⟩

end Test

end RegCode

/-! Folding and what expressions come to. The folder computes with the payloads of constants; where they are
numbers of their types, a folded expression comes to what the expression came to. -/
namespace RegCode

def Arith.lowLeft (op : Arith) (type : String) : Bool := type ≠ "J" ∧ type ≠ "Z" ∧ op.divides = false

def Arith.lowRight (op : Arith) (type : String) : Bool :=
  type ≠ "Z" ∧ op.divides = false ∧ (type ≠ "J" ∨ op.isShift)

def lowCast (type : String) : Bool := type ≠ "J" ∧ type ≠ "Z"

namespace Expr

def Held (low : Bool) : Expr → Prop
  | const type n => isIntegral type → InRange type n ∨ low ∧ type = "I"
  | _ => True

def Unbiased (op : Cond) : Expr → Prop
  | compare _ _ type bias => type = "J" ∨ op.Unbiased bias
  | _ => True

mutual

/-- Whether the constants that whole numbers are computed from have numbers of their types for payloads. -/
def Plain : Expr → Prop
  | binary op l r type => l.Plain ∧ r.Plain ∧
    (isIntegral type → l.Held (op.lowLeft type) ∧ r.Held (op.lowRight type))
  | unary _ e type => e.Plain ∧ (isIntegral type → e.Held (lowCast type))
  | cast target e check => e.Plain ∧ (isIntegral target → check = false → e.Held (lowCast target))
  | test _ l r => l.Plain ∧ r.Plain
  | testZero op l => l.Plain ∧ l.Unbiased op
  | call _ _ args => PlainAll args
  | callOn _ _ _ args => PlainAll args
  | _ => True

def PlainAll : List Expr → Prop
  | [] => True
  | e :: es => e.Plain ∧ PlainAll es

end

end Expr

theorem widthLow {type : String} (low : type ≠ "J") : wordWidth type = 32 := if_neg low

theorem heldBits {type target : String} {n : Int} {low : Bool} (held : InRange type n ∨ low ∧ type = "I")
    (half : low → target ≠ "J") :
    BitVec.ofInt (wordWidth target) (cutTo type n) = BitVec.ofInt (wordWidth target) n := by
  rcases held with fits | ⟨isLow,rfl⟩
  · rw [show cutTo type n = n from fits]
  · rw [widthLow (half isLow)]
    exact BitVec.ofInt_toInt

theorem heldFull {type : String} {n : Int} {low : Bool} (held : InRange type n ∨ low ∧ type = "I")
    (full : low = false) : cutTo type n = n := by
  rcases held with fits | ⟨isLow,-⟩
  · exact fits
  · rw [full] at isLow
    contradiction

theorem lowCastNot {type : String} (whole : type = "J" ∨ type = "Z") : lowCast type = false := by
  rcases whole with rfl | rfl <;> rfl

theorem heldCount {type target : String} {n : Int} {low : Bool} (held : InRange type n ∨ low ∧ type = "I") :
    Arith.shiftCount target (cutTo type n) = Arith.shiftCount target n := by
  rcases held with fits | ⟨-,rfl⟩
  · rw [show cutTo type n = n from fits]
  · have cut : cutTo "I" n = n.bmod 4294967296 := BitVec.toInt_ofInt (n := 32) n
    rw [cut,Arith.shiftCount,Arith.shiftCount,Int.bmod_def]
    split <;> split <;> omega

namespace Arith

variable {op : Arith} {type : String}

theorem lowLeftNot (whole : type = "J" ∨ type = "Z" ∨ op.divides) : op.lowLeft type = false := by
  rcases whole with rfl | rfl | divides <;> simp_all [lowLeft]

theorem lowRightNot (whole : type = "Z" ∨ op.divides) : op.lowRight type = false := by
  rcases whole with rfl | divides <;> simp_all [lowRight]

theorem dividesBinary (divides : op.divides = true) : op ≠ neg ∧ op ≠ not := by
  cases op <;> first | contradiction | decide

theorem wordsNone (divides : op.divides = true) {w : Nat} {x y : BitVec w} : op.words? x y = none ↔ y = 0 := by
  cases op <;> first | contradiction | simp [words?]

theorem evalNone (divides : op.divides = true) {a b : Int} : op.eval? type a b = none ↔ b = 0 := by
  cases op <;> first | contradiction | simp [eval?]

theorem rightWide (whole : type = "Z" ∨ op.divides) : op.rightType type = wordType type := by
  rcases whole with rfl | divides
  · simp [rightType]
  · cases op <;> first | contradiction | rfl

end Arith

theorem fitsNarrow {type : String} (integral : isIntegral type = true) (n : Int) : InRange type (cutTo type n) := by
  rcases integralCases integral with rfl | rfl | rfl | rfl | rfl | rfl
  · exact congrArg BitVec.toInt BitVec.ofInt_toInt
  · exact congrArg BitVec.toInt BitVec.ofInt_toInt
  · exact congrArg BitVec.toInt BitVec.ofInt_toInt
  · exact congrArg BitVec.toInt BitVec.ofInt_toInt
  · refine congrArg (fun x : BitVec 16 => (x.toNat : Int)) (BitVec.eq_of_toNat_eq ?_)
    rw [cutTo,BitVec.ofInt_natCast,BitVec.toNat_ofNat]
    exact Nat.mod_eq_of_lt (BitVec.isLt _)
  · simp only [InRange,cutTo]
    split <;> simp_all

theorem fitsBetween {n : Int} (low : -2 ^ 63 ≤ n) (high : n < 2 ^ 63) : InRange "J" n := by
  rw [InRange,cutTo,BitVec.toInt_ofInt]
  exact Int.bmod_eq_of_le (by omega) (by omega)

theorem fitsLong {type : String} (integral : isIntegral type = true) {n : Int} (fits : InRange type n) :
    InRange "J" n := by
  have signed : ∀ w : Nat, w ≤ 64 → (BitVec.ofInt w n).toInt = n → InRange "J" n := fun w le same => by
    have less := BitVec.two_mul_toInt_lt (x := BitVec.ofInt w n)
    have more := BitVec.le_two_mul_toInt (x := BitVec.ofInt w n)
    have power : (2 : Int) ^ w ≤ 2 ^ 64 := by exact_mod_cast Nat.pow_le_pow_right (by decide) le
    rw [same] at less more
    exact fitsBetween (by omega) (by omega)
  rcases integralCases integral with rfl | rfl | rfl | rfl | rfl | rfl
  · exact signed 32 (by decide) fits
  · exact fits
  · exact signed 8 (by decide) fits
  · exact signed 16 (by decide) fits
  · have same : ((BitVec.ofInt 16 n).toNat : Int) = n := fits
    have less := (BitVec.ofInt 16 n).isLt
    exact fitsBetween (by omega) (by omega)
  · rcases fitsFlag fits with rfl | rfl <;> decide

theorem truncateNarrow {type : String} (integral : isIntegral type = true) {n : Int}
    (long : type = "J" → InRange "J" n) : truncateTo type n = cutTo type n := by
  rcases integralCases integral with rfl | rfl | rfl | rfl | rfl | rfl
  · exact (BitVec.toInt_ofInt (n := 32) n).symm
  · exact (long rfl).symm
  · exact (BitVec.toInt_ofInt (n := 8) n).symm
  · exact (BitVec.toInt_ofInt (n := 16) n).symm
  · have nat := Int.toNat_of_nonneg (Int.emod_nonneg n (show (65536 : Int) ≠ 0 by decide))
    simp only [truncateTo,cutTo,BitVec.toNat_ofInt]
    exact nat.symm
  · rfl

theorem narrowInt {type : String} (integral : isIntegral type = true) (low : lowCast type) (n : Int) :
    cutTo type (cutTo "I" n) = cutTo type n := by
  have flag : type ≠ "Z" := fun same => by subst same; exact absurd low (by decide)
  have long : type ≠ "J" := fun same => by subst same; exact absurd low (by decide)
  have other : type = "J" → InRange "J" n := fun same => (long same).elim
  rw [← truncateNarrow integral fun same => (long same).elim,← truncateNarrow integral fun same => (long same).elim,
    truncateBits integral flag fun same => (long same).elim,truncateBits integral flag fun same => (long same).elim,
    widthLow long]
  exact congrArg (fun x : BitVec 32 => cutTo type x.toInt) BitVec.ofInt_toInt

theorem Arith.wordsShift {op : Arith} (shift : op.isShift = true) {w : Nat} {x y z : BitVec w}
    (same : y.toNat % w = z.toNat % w) : op.words? x y = op.words? x z := by
  cases op <;> first | contradiction | simp only [words?,same]

namespace Machine

variable {O W : Type} {m : Machine O W}

theorem literalWhole {type : String} (integral : isIntegral type = true) (n : Int) :
    m.literal type n = .whole (cutTo type n) := if_pos integral

theorem literalFits {type : String} {n : Int} (fits : InRange type n) (integral : isIntegral type = true) :
    m.literal type n = .whole n := by
  rw [literalWhole integral,show cutTo type n = n from fits]

theorem binaryParts {op : Arith} {type : String} {x y : Datum O} {w : W} (integral : isIntegral type = true)
    (known : m.binary op type x y w ≠ .stuck) : ∃ a b, x = .whole a ∧ y = .whole b ∧ (op ≠ .neg ∧ op ≠ .not) ∧
      InRange (wordType type) a ∧ InRange (op.rightType type) b := by
  unfold binary at known
  rw [if_pos integral] at known
  split at known
  · rename_i a b
    exact ⟨a,b,rfl,rfl,Decidable.not_not.mp fun none => known (if_neg none)⟩
  · contradiction

theorem unaryParts {op : Arith} {type : String} {x : Datum O} {w : W} (integral : isIntegral type = true)
    (known : m.unary op type x w ≠ .stuck) :
    ∃ a, x = .whole a ∧ (op = .neg ∨ op = .not) ∧ InRange (wordType type) a := by
  unfold unary at known
  rw [if_pos integral] at known
  split at known
  · rename_i a
    exact ⟨a,rfl,Decidable.not_not.mp fun none => known (if_neg none)⟩
  · contradiction

theorem binaryRaised {op : Arith} {type : String} {a b : Int} {w : W} (integral : isIntegral type = true)
    (binary_ : op ≠ .neg ∧ op ≠ .not) (left : InRange (wordType type) a) (right : InRange (op.rightType type) b) :
    m.binary op type (.whole a) (.whole b) w = .raised m.byZero w ↔
      op.words? (BitVec.ofInt (wordWidth type) a) (BitVec.ofInt (wordWidth type) b) = none := by
  simp only [binary,if_pos integral,if_pos (And.intro binary_ (And.intro left right))]
  split <;> simp_all

theorem literalParts {type : String} {n a : Int} (whole : m.literal type n = .whole a) :
    isIntegral type = true ∧ cutTo type n = a := by
  rw [literal] at whole
  split at whole
  · exact ⟨‹_›,Datum.whole.inj whole⟩
  · contradiction

theorem binaryLiteral {op : Arith} {type t t' : String} {a b n : Int} {w : W} (integral : isIntegral type = true)
    (left : (Expr.const t a).Held (op.lowLeft type)) (right : (Expr.const t' b).Held (op.lowRight type))
    (known : m.binary op type (m.literal t a) (m.literal t' b) w ≠ .stuck) (gives : op.eval? type a b = some n) :
    InRange type (truncateTo type n) ∧
      m.binary op type (m.literal t a) (m.literal t' b) w = .value (.whole (truncateTo type n)) w := by
  obtain ⟨a',b',first,second,binary_,fitsLeft,fitsRight⟩ := binaryParts integral known
  obtain ⟨whole,rfl⟩ := literalParts first
  obtain ⟨whole',rfl⟩ := literalParts second
  have heldLeft := left whole
  have heldRight := right whole'
  have words : op.words? (BitVec.ofInt (wordWidth type) (cutTo t a)) (BitVec.ofInt (wordWidth type) (cutTo t' b)) =
      op.words? (BitVec.ofInt (wordWidth type) a) (BitVec.ofInt (wordWidth type) b) := by
    rw [heldBits heldLeft fun low => (of_decide_eq_true low).1]
    by_cases shift : op.isShift
    · exact Arith.wordsShift shift (by rw [Arith.countSame,Arith.countSame,heldCount heldRight])
    · rw [heldBits heldRight fun low => (of_decide_eq_true low).2.2.resolve_right shift]
  have cut : (op.eval? type a b).map (truncateTo type) = (op.words? _ _).map fun x => cutTo type x.toInt :=
    Arith.evalWords integral ⟨by rintro rfl; contradiction,binary_⟩
      (fun whole => heldFull heldLeft (Arith.lowLeftNot whole) ▸ fitsLeft)
      (fun whole => heldFull heldRight (Arith.lowRightNot whole) ▸ Arith.rightWide whole ▸ fitsRight)
  rw [gives,← words,Option.map_some] at cut
  obtain ⟨z,result,same⟩ := Option.map_eq_some_iff.mp cut.symm
  refine ⟨same ▸ fitsNarrow integral _,?_⟩
  rw [first,second,Machine.binary,if_pos integral]
  simp only [if_pos (And.intro binary_ (And.intro fitsLeft fitsRight)),result,same]

theorem unaryLiteral {op : Arith} {type t : String} {a : Int} {w : W} (integral : isIntegral type = true)
    (held : (Expr.const t a).Held (lowCast type)) (known : m.unary op type (m.literal t a) w ≠ .stuck) :
    InRange type (truncateTo type (if op = .neg then Text.wrap64 (-a) else -a - 1)) ∧
      m.unary op type (m.literal t a) w =
        .value (.whole (truncateTo type (if op = .neg then Text.wrap64 (-a) else -a - 1))) w := by
  obtain ⟨a',first,unary_,fits⟩ := unaryParts integral known
  obtain ⟨whole,rfl⟩ := literalParts first
  have heldWhole := held whole
  have cut := Arith.evalWord op integral fun long => heldFull heldWhole (lowCastNot long) ▸ fits
  rw [cut,first]
  refine ⟨fitsNarrow integral _,?_⟩
  simp only [Machine.unary,if_pos integral,if_pos (And.intro unary_ fits)]
  rw [heldBits heldWhole fun low => (of_decide_eq_true low).1]

theorem castLiteral {target t : String} {n : Int} {w : W} (integral : isIntegral target = true)
    (whole : isIntegral t = true) (held : (Expr.const t n).Held (lowCast target)) :
    InRange target (truncateTo target n) ∧
      m.cast target false (m.literal t n) w = .value (.whole (truncateTo target n)) w := by
  have cut : cutTo target (cutTo t n) = truncateTo target n := by
    rcases held whole with fits | ⟨low,rfl⟩
    · rw [show cutTo t n = n from fits,truncateNarrow integral fun _ => fitsLong whole fits]
    · rw [narrowInt integral low,truncateNarrow integral fun long => absurd long (of_decide_eq_true low).1]
  rw [← cut]
  refine ⟨fitsNarrow integral _,?_⟩
  rw [literalWhole whole]
  exact if_pos ⟨integral,rfl⟩

end Machine

namespace Expr

variable {O W : Type} {m : Machine O W} {ρ : VarId → Datum O}

theorem evalLiterals (op : Arith) (type t t' : String) (a b : Int) (w : W) :
    (binary op (const t a) (const t' b) type).eval m ρ w = m.binary op type (m.literal t a) (m.literal t' b) w := by
  simp only [eval,Ending.andThen]

theorem heldOf {e : Expr} {type : String} {n : Int} (folded : e = const type n) (fits : InRange type n) (low : Bool) :
    e.Held low := by
  subst folded
  exact fun _ => .inl fits

def Agrees (m : Machine O W) (ρ : VarId → Datum O) (e f : Expr) (w : W) : Prop :=
  f.eval m ρ w = e.eval m ρ w ∧ ∀ low, e.Held low → f.Held low

theorem Agrees.binary {op : Arith} {type : String} {l r : Expr} {l' r' : Folded} {w : W}
    (held : isIntegral type → l.Held (op.lowLeft type) ∧ r.Held (op.lowRight type))
    (known : (Expr.binary op l r type).eval m ρ w ≠ .stuck) (left : Agrees m ρ l l'.expr w)
    (right : ∀ x w', l.eval m ρ w = .value x w' → Agrees m ρ r r'.expr w') :
    Agrees m ρ (.binary op l r type) (foldBinary op type l' r').expr w := by
  have kept : (Expr.binary op l'.expr r'.expr type).eval m ρ w = (Expr.binary op l r type).eval m ρ w := by
    simp only [eval]
    rw [left.1]
    refine Ending.andThenCongr fun x w' gives => ?_
    rw [(right x w' gives).1]
  rcases foldBinaryCases op type l'.expr r'.expr with same | ⟨t,a,t',b,n,first,second,integral,gives,same⟩
  · rw [show foldBinary op type l' r' = _ from same _ _]
    exact ⟨kept,fun low _ => trivial⟩
  · have constLeft : l.eval m ρ w = .value (m.literal t a) w := by rw [← left.1,first,eval]
    have agrees := right _ _ constLeft
    have result : (Expr.binary op l r type).eval m ρ w = m.binary op type (m.literal t a) (m.literal t' b) w := by
      rw [← kept,first,second,evalLiterals]
    have folded := Machine.binaryLiteral (m := m) (w := w) integral (first ▸ left.2 _ (held integral).1)
      (second ▸ agrees.2 _ (held integral).2) (result ▸ known) gives
    rw [show foldBinary op type l' r' = _ from same _ _]
    refine ⟨?_,fun low _ => heldOf rfl folded.1 low⟩
    rw [result,folded.2,eval,Machine.literalFits folded.1 integral]

theorem Agrees.unary {op : Arith} {type : String} {e : Expr} {e' : Folded} {w : W}
    (held : isIntegral type → e.Held (lowCast type)) (known : (Expr.unary op e type).eval m ρ w ≠ .stuck)
    (operand : Agrees m ρ e e'.expr w) : Agrees m ρ (.unary op e type) (foldUnary op type e').expr w := by
  have kept : (Expr.unary op e'.expr type).eval m ρ w = (Expr.unary op e type).eval m ρ w := by
    rw [eval,eval,operand.1]
  rcases foldUnaryCases op type e'.expr with same | ⟨t,a,constant,integral,same⟩
  · rw [show foldUnary op type e' = _ from same _]
    exact ⟨kept,fun low _ => trivial⟩
  · have result : (Expr.unary op e type).eval m ρ w = m.unary op type (m.literal t a) w := by
      rw [← kept,constant]
      simp only [eval,Ending.andThen]
    have folded := Machine.unaryLiteral (m := m) (w := w) integral (constant ▸ operand.2 _ (held integral))
      (result ▸ known)
    rw [show foldUnary op type e' = _ from same _]
    refine ⟨?_,fun low _ => heldOf rfl folded.1 low⟩
    rw [result,folded.2,eval,Machine.literalFits folded.1 integral]

theorem Agrees.cast {target : String} {check : Bool} {e : Expr} {e' : Folded} {w : W}
    (held : isIntegral target → check = false → e.Held (lowCast target)) (operand : Agrees m ρ e e'.expr w) :
    Agrees m ρ (.cast target e check) (foldCast target check e').expr w := by
  have kept : (Expr.cast target e'.expr check).eval m ρ w = (Expr.cast target e check).eval m ρ w := by
    rw [eval,eval,operand.1]
  rcases foldCastCases target check e'.expr with same | ⟨t,n,constant,unchecked,whole,integral,same⟩
  · rw [show foldCast target check e' = _ from same _]
    exact ⟨kept,fun low _ => trivial⟩
  · subst unchecked
    have folded := Machine.castLiteral (m := m) (w := w) integral whole (constant ▸ operand.2 _ (held integral rfl))
    rw [show foldCast target false e' = _ from same _]
    refine ⟨?_,fun low _ => heldOf rfl folded.1 low⟩
    rw [← kept,constant]
    simp only [eval,Ending.andThen,folded.2,Machine.literalFits folded.1 integral]

theorem testedSign {op : Cond} {type bias : String} {x y : Datum O} {n : Int} {w : W}
    (unbiased : type = "J" ∨ op.Unbiased bias) (gives : m.threeWay type bias x y = some n) :
    m.tested op x y w = m.tested op (.whole n) (.whole 0) w := by
  have same := (Machine.holdsSign gives).mpr (unbiased.imp_left fun long => Machine.threeWayLong (long ▸ gives))
  rw [Machine.tested,Machine.tested,same]

theorem Agrees.testZero {op : Cond} {e : Expr} {e' : Folded} {w : W} (unbiased : e.Unbiased op)
    (known : (Expr.testZero op e).eval m ρ w ≠ .stuck)
    (lifts : ∀ a b type bias, e'.expr = compare a b type bias → e = e'.expr) (operand : Agrees m ρ e e'.expr w) :
    Agrees m ρ (.testZero op e) (foldTestZero op e').expr w := by
  rcases foldTestZeroCases op e'.expr with same | ⟨a,b,type,bias,compared,same⟩
  · rw [show foldTestZero op e' = _ from same _]
    exact ⟨by rw [eval,eval,operand.1],fun low _ => trivial⟩
  · have whole := (lifts _ _ _ _ compared).trans compared
    subst whole
    rw [show foldTestZero op e' = _ from same _]
    refine ⟨?_,fun low _ => trivial⟩
    simp only [eval,Ending.andThenAssoc] at known ⊢
    refine Ending.andThenCongr fun x w₁ first => Ending.andThenCongr fun y w₂ second => ?_
    have result := Ending.andThenStuck (Ending.andThenValue (Ending.andThenValue known first) second)
    cases three : m.threeWay type bias x y with
    | none => simp [three,Ending.ofOption] at result
    | some n => exact testedSign unbiased three

mutual

theorem agreesFold : (e : Expr) → e.Plain → (w : W) → e.eval m ρ w ≠ .stuck → Agrees m ρ e e.fold.expr w
  | .binary op l r type, plain, w, known => by
    have first : l.eval m ρ w ≠ .stuck := Ending.andThenStuck (by simpa only [eval] using known)
    refine Agrees.binary plain.2.2 known (agreesFold l plain.1 w first) fun x w' gives => agreesFold r plain.2.1 w' ?_
    rw [eval] at known
    exact Ending.andThenStuck (Ending.andThenValue known gives)
  | .unary op e type, plain, w, known => by
    have operand : e.eval m ρ w ≠ .stuck := Ending.andThenStuck (by simpa only [eval] using known)
    exact Agrees.unary plain.2 known (agreesFold e plain.1 w operand)
  | .cast target e check, plain, w, known => by
    have operand : e.eval m ρ w ≠ .stuck := Ending.andThenStuck (by simpa only [eval] using known)
    exact Agrees.cast plain.2 (agreesFold e plain.1 w operand)
  | .test op l r, plain, w, known => by
    rw [eval] at known
    refine ⟨?_,fun low _ => trivial⟩
    simp only [fold,eval]
    rw [(agreesFold l plain.1 w (Ending.andThenStuck known)).1]
    refine Ending.andThenCongr fun x w' gives => ?_
    rw [(agreesFold r plain.2 w' (Ending.andThenStuck (Ending.andThenValue known gives))).1]
  | .testZero op e, plain, w, known => by
    have operand : e.eval m ρ w ≠ .stuck := Ending.andThenStuck (by simpa only [eval] using known)
    exact Agrees.testZero plain.2 known (fun _ _ _ _ compared => (foldCompare compared).trans compared.symm)
      (agreesFold e plain.1 w operand)
  | .call kind method args, plain, w, known => by
    rw [eval] at known
    refine ⟨?_,fun low _ => trivial⟩
    simp only [fold,eval]
    rw [evalFoldAll args plain w (Ending.andThenStuck known)]
  | .callOn kind method r args, plain, w, known => by
    rw [eval] at known
    refine ⟨?_,fun low _ => trivial⟩
    simp only [fold,eval]
    refine Ending.andThenCongr fun x w' gives => ?_
    rw [evalFoldAll args plain w' (Ending.andThenStuck (Ending.andThenValue known gives))]
  | .var _, _, _, _ | .const _ _, _, _, _ | .str _, _, _, _ | .classRef _, _, _, _ | .caught _, _, _, _
  | .staticField _, _, _, _ | .compare _ _ _ _, _, _, _ | .element _ _ _, _, _, _ | .instanceOf _ _, _, _, _
  | .field _ _, _, _, _ | .length _, _, _, _ | .newArray _ _, _, _, _ | .newObject _ _ _, _, _, _
  | .filled _ _, _, _, _ => by
    simp only [fold]
    exact ⟨rfl,fun _ => id⟩

theorem evalFoldAll : (es : List Expr) → PlainAll es → (w : W) → evalAll m ρ es w ≠ .stuck →
    evalAll m ρ (foldAll es).1 w = evalAll m ρ es w
  | [], _, _, _ => rfl
  | e :: es, plain, w, known => by
    rw [evalAll] at known
    simp only [foldAll,evalAll]
    rw [(agreesFold e plain.1 w (Ending.andThenStuck known)).1]
    refine Ending.andThenCongr fun x w' gives => ?_
    rw [evalFoldAll es plain.2 w' (Ending.andThenStuck (Ending.andThenValue known gives))]

end

theorem evalFoldWiden {type : String} {n : Int} (integral : isIntegral type = true) (long : InRange "J" n) (w : W) :
    (cast "J" (const type n) false).fold.expr.eval m ρ w = (cast "J" (const type n) false).eval m ρ w ↔
      InRange type n := by
  have folded : (cast "J" (const type n) false).fold.expr = const "J" n := by
    simp only [fold,foldCast,integral,truncateTo]
    rfl
  have whole : (cast "J" (const type n) false).eval m ρ w = .value (.whole (cutTo "J" (cutTo type n))) w := by
    simp only [eval,Ending.andThen,Machine.literalWhole integral]
    rfl
  rw [folded,whole,eval,Machine.literalFits long rfl,
    show cutTo "J" (cutTo type n) = cutTo type n from fitsLong integral (fitsNarrow integral n)]
  simp only [Ending.value.injEq,Datum.whole.injEq,and_true]
  exact eq_comm

theorem foldRaising {op : Arith} (divides : op.divides = true) {a k : Int} (left : InRange "I" a) (w : W) :
    (binary op (const "I" a) (const "I" k) "I").eval m ρ w = .raised m.byZero w ∧
      (binary op (const "I" a) (const "I" k) "I").fold.changed = true ↔ cutTo "I" k = 0 ∧ k ≠ 0 := by
  have integral : isIntegral "I" = true := rfl
  have int : wordType "I" = "I" := by simp [wordType]
  have fits : InRange "I" (cutTo "I" k) := fitsNarrow integral k
  have zero : BitVec.ofInt (wordWidth "I") (cutTo "I" k) = 0 ↔ cutTo "I" k = 0 := by
    have same : (BitVec.ofInt (wordWidth "I") (cutTo "I" k)).toInt = cutTo "I" k := fits
    rw [← BitVec.toInt_inj,same]
    simp
  have whole : (binary op (const "I" a) (const "I" k) "I").eval m ρ w =
      m.binary op "I" (.whole a) (.whole (cutTo "I" k)) w := by
    have first : m.literal "I" a = .whole a := Machine.literalFits left integral
    have second : m.literal "I" k = .whole (cutTo "I" k) := Machine.literalWhole integral k
    rw [evalLiterals,first,second]
  have raises : (binary op (const "I" a) (const "I" k) "I").eval m ρ w = .raised m.byZero w ↔ cutTo "I" k = 0 := by
    have right : InRange (op.rightType "I") (cutTo "I" k) := by
      rw [Arith.rightWide (.inr divides),int]
      exact fits
    have raised := Machine.binaryRaised (m := m) (w := w) integral (Arith.dividesBinary divides) (int.symm ▸ left)
      right
    rw [whole,raised,Arith.wordsNone divides,zero]
  have folds : (binary op (const "I" a) (const "I" k) "I").fold.changed = true ↔ k ≠ 0 := by
    have none : op.eval? "I" a k = none ↔ k = 0 := Arith.evalNone divides
    rw [Ne,← none]
    simp only [fold,foldBinary,isIntegral]
    cases op.eval? "I" a k <;> simp
  rw [raises,folds]

/-- Folding keeps what an expression comes to, exceptions and the world left included, where the payloads that
whole numbers are computed from are numbers of their types. A payload that is none shows in the first cast that
widens it, and as a divisor it can hide a division by zero. -/
theorem evalFold : (∀ (e : Expr) (w : W), e.Plain → e.eval m ρ w ≠ .stuck → e.fold.expr.eval m ρ w = e.eval m ρ w) ∧
    (∀ (type : String) (n : Int) (w : W), isIntegral type = true → InRange "J" n →
      ((cast "J" (const type n) false).fold.expr.eval m ρ w = (cast "J" (const type n) false).eval m ρ w ↔
        InRange type n)) ∧
    (∀ (op : Arith) (a k : Int) (w : W), op.divides = true → InRange "I" a →
      ((binary op (const "I" a) (const "I" k) "I").eval m ρ w = .raised m.byZero w ∧
        (binary op (const "I" a) (const "I" k) "I").fold.changed = true ↔ cutTo "I" k = 0 ∧ k ≠ 0)) :=
  ⟨fun e w plain known => (agreesFold e plain w known).1,fun _ _ w integral long => evalFoldWiden integral long w,
    fun _ _ _ w divides left => foldRaising divides left w⟩

theorem evalFoldOverflowing :
    (binary .add (const "I" 2147483647) (const "I" 1) "I").fold.expr.eval Machine.bare (fun _ => .whole 0) () =
        .value (.whole (-2147483648)) () ∧
      (cast "J" (const "I" 4294967295) false).fold.expr.eval Machine.bare (fun _ => .whole 0) () ≠
        (cast "J" (const "I" 4294967295) false).eval Machine.bare (fun _ => .whole 0) () ∧
      (binary .div (const "I" 1) (const "I" 4294967296) "I").eval Machine.bare (fun _ => .whole 0) () =
        .raised () () ∧
      (binary .div (const "I" 1) (const "I" 4294967296) "I").fold.expr = const "I" 0 ∧
      (binary .div (const "I" 4294967295) (const "I" 2) "I").eval Machine.bare (fun _ => .whole 0) () =
        .value (.whole 0) () ∧
      (binary .div (const "I" 4294967295) (const "I" 2) "I").fold.expr = const "I" 2147483647 := by
  obtain ⟨keeps,widens,raises⟩ := evalFold (m := Machine.bare) (ρ := fun _ => .whole 0)
  have sum : (binary .add (const "I" 2147483647) (const "I" 1) "I").eval Machine.bare (fun _ => .whole 0) () =
      .value (.whole (-2147483648)) () := by decide +kernel
  have plain : (binary .add (const "I" 2147483647) (const "I" 1) "I").Plain :=
    ⟨trivial,trivial,fun _ => ⟨fun _ => .inl (by decide +kernel),fun _ => .inl (by decide +kernel)⟩⟩
  refine ⟨?_,?_,?_,?_,?_,?_⟩
  · rw [keeps _ _ plain (by rw [sum]; nofun),sum]
  · exact fun same =>
      absurd ((widens "I" 4294967295 () (by decide +kernel) (by decide +kernel)).mp same) (by decide +kernel)
  · exact ((raises .div 1 4294967296 () (by decide +kernel) (by decide +kernel)).mpr (by decide +kernel)).1
  · rfl
  · decide +kernel
  · rfl

end Expr

end RegCode
