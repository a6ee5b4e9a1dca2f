import RegCode.Proofs.Chains.Evaluation
import RegCode.Proofs.Expr.Values
import Mathlib.Logic.Function.Basic

/-! An expression in place of a variable: what the result reads, whether it acts, raises or looks at memory,
and what it comes to. -/
namespace RegCode

namespace Head

def isQuiet : Head → Bool
  | str _ | caught _ | unary _ _ => true
  | binary _ type => !isIntegral type
  | cast _ check => !check
  | _ => false

end Head

namespace Ending

variable {A B O W : Type}

def Follows (w : W) (x : Ending A O W) (u : W) (y : Ending A O W) : Prop :=
  ∀ a w', x = .value a w' → w' = w ∧ y = .value a u

def Settled (w : W) (x : Ending A O W) : Prop := x ≠ .stuck → ∃ a, x = .value a w

variable {w u : W} {x y : Ending A O W} {f g : A → W → Ending B O W}

theorem ofOptionValue {a : Option A} {b : A} {w' : W} (gives : ofOption (O := O) a w = .value b w') :
    a = some b ∧ w' = w := by
  cases a with
  | none => contradiction
  | some a =>
    obtain ⟨rfl,rfl⟩ := Ending.value.inj gives
    exact ⟨rfl,rfl⟩

theorem Follows.value (a : A) : Follows w (.value a w) u (.value a u : Ending A O W) := fun _ _ gives => by
  obtain ⟨rfl,rfl⟩ := Ending.value.inj gives
  exact ⟨rfl,rfl⟩

theorem Follows.ofOption (a : Option A) : Follows w (.ofOption a w) u (.ofOption a u : Ending A O W) := by
  intro b w' gives
  obtain ⟨rfl,same⟩ := ofOptionValue gives
  exact ⟨same,rfl⟩

theorem Follows.andThen (first : Follows w x u y) (second : ∀ a, Follows w (f a w) u (g a u)) :
    Follows w (x.andThen f) u (y.andThen g) := by
  intro b w' gives
  cases x with
  | value a w₁ =>
    obtain ⟨rfl,rfl⟩ := first a w₁ rfl
    exact second a b w' gives
  | raised _ _ | stuck => contradiction

theorem Settled.ofOption (a : Option A) : Settled w (.ofOption a w : Ending A O W) := by
  cases a with
  | none => exact fun known => absurd rfl known
  | some a => exact fun _ => ⟨a,rfl⟩

theorem Settled.andThen (first : Settled w x) (second : ∀ a, x = .value a w → Settled w (f a w)) :
    Settled w (x.andThen f) := by
  intro known
  obtain ⟨a,gives⟩ := first (andThenStuck known)
  have later := andThenValue known gives
  rw [gives] at known ⊢
  exact second a gives later

end Ending

namespace Machine

variable {A B O W : Type} {m : Machine O W} {w u : W}

/-- What quiet operations come to in the one world they come to in the other. -/
def Alike (m : Machine O W) (w u : W) : Prop :=
  ∀ h xs a, h.isQuiet = true → m.apply h xs w = .ofOption a w → m.apply h xs u = .ofOption a u

structure Calm (m : Machine O W) : Prop where
  idle : ∀ h xs w, h.isQuiet = true → ∃ a, m.apply h xs w = .ofOption a w
  kept : ∀ h xs w y u, m.apply h xs w = .value y u → m.Alike w u

theorem Alike.refl (w : W) : m.Alike w w := fun _ _ _ _ gives => gives

theorem Alike.trans {z : W} (first : m.Alike w u) (second : m.Alike u z) : m.Alike w z :=
  fun h xs a quiet gives => second h xs a quiet (first h xs a quiet gives)

/-- The world that is left is like the one before. -/
def Keeps (m : Machine O W) (w : W) (x : Ending A O W) : Prop := ∀ a u, x = .value a u → m.Alike w u

namespace Keeps

theorem value (a : A) : m.Keeps w (.value a w) := fun _ _ gives => by
  obtain ⟨-,rfl⟩ := Ending.value.inj gives
  exact .refl _

theorem ofOption (a : Option A) : m.Keeps w (.ofOption a w) := by
  cases a with
  | none => exact nofun
  | some a => exact value a

theorem andThen {x : Ending A O W} {f : A → W → Ending B O W} (first : m.Keeps w x)
    (second : ∀ a u, m.Keeps u (f a u)) : m.Keeps w (x.andThen f) := by
  intro b z gives
  cases x with
  | value a u => exact (first a u rfl).trans (second a u b z gives)
  | raised _ _ | stuck => contradiction

end Keeps

namespace Calm

variable (calm : m.Calm)

include calm

theorem applyKeeps (h : Head) (xs : List (Datum O)) : m.Keeps w (m.apply h xs w) := fun y u => calm.kept h xs w y u

theorem applyFollows (alike : m.Alike w u) {h : Head} (quiet : h.isQuiet = true) (xs : List (Datum O)) :
    Ending.Follows w (m.apply h xs w) u (m.apply h xs u) := by
  obtain ⟨a,gives⟩ := calm.idle h xs w quiet
  rw [alike h xs a quiet gives,gives]
  exact .ofOption a

theorem applySettled {h : Head} (quiet : h.isQuiet = true) (xs : List (Datum O)) :
    Ending.Settled w (m.apply h xs w) := by
  obtain ⟨a,gives⟩ := calm.idle h xs w quiet
  exact gives ▸ .ofOption a

end Calm

inductive Own (m : Machine O W) : (W → Ending (Datum O) O W) → Prop
  | option (a : Option (Datum O)) : Own m fun w => .ofOption a w
  | quiet (h : Head) (xs : List (Datum O)) (quiet : h.isQuiet = true) : Own m fun w => m.apply h xs w

namespace Own

variable {f : W → Ending (Datum O) O W}

theorem keeps (own : m.Own f) (calm : m.Calm) : m.Keeps w (f w) := by
  cases own with
  | option a => exact .ofOption a
  | quiet h xs _ => exact calm.applyKeeps h xs

theorem follows (own : m.Own f) (calm : m.Calm) (alike : m.Alike w u) : Ending.Follows w (f w) u (f u) := by
  cases own with
  | option a => exact .ofOption a
  | quiet h xs quiet => exact calm.applyFollows alike quiet xs

theorem settled (own : m.Own f) (calm : m.Calm) : Ending.Settled w (f w) := by
  cases own with
  | option a => exact .ofOption a
  | quiet h xs quiet => exact calm.applySettled quiet xs

theorem unary (op : Arith) (type : String) (x : Datum O) : m.Own (m.unary op type x) := by
  unfold Machine.unary
  by_cases integral : isIntegral type = true
  · simp only [if_pos integral]
    cases x with
    | other _ => exact .option none
    | whole a =>
      dsimp only
      by_cases fits : (op = .neg ∨ op = .not) ∧ InRange (wordType type) a
      · simp only [if_pos fits]
        exact .option (some _)
      · simp only [if_neg fits]
        exact .option none
  · simp only [if_neg integral]
    exact .quiet (.unary op type) [x] rfl

theorem cast (target : String) (x : Datum O) : m.Own (m.cast target false x) := by
  unfold Machine.cast
  cases x with
  | other _ => exact .quiet (.cast target false) [_] rfl
  | whole a =>
    by_cases integral : isIntegral target = true
    · simp only [integral,and_self,if_true]
      exact .option (some _)
    · simp only [integral]
      exact .quiet (.cast target false) [_] rfl

end Own

theorem ownBinary (op : Arith) (type : String) (x y : Datum O) :
    m.Own (m.binary op type x y) ∨ ∀ w, m.binary op type x y w = .raised m.byZero w := by
  unfold binary
  by_cases integral : isIntegral type = true
  · simp only [if_pos integral]
    cases x with
    | other _ => exact .inl (.option none)
    | whole a =>
      cases y with
      | other _ => exact .inl (.option none)
      | whole b =>
        dsimp only
        by_cases fits : (op ≠ .neg ∧ op ≠ .not) ∧ InRange (wordType type) a ∧ InRange (op.rightType type) b
        · simp only [if_pos fits]
          cases op.words? (BitVec.ofInt (wordWidth type) a) (BitVec.ofInt (wordWidth type) b) with
          | some z => exact .inl (.option (some _))
          | none => exact .inr fun _ => rfl
        · simp only [if_neg fits]
          exact .inl (.option none)
  · simp only [if_neg integral]
    exact .inl (.quiet (.binary op type) [x,y] (by simp [Head.isQuiet,integral]))

namespace Calm

variable (calm : m.Calm) (op : Arith) (type target : String) (check : Bool) (x y : Datum O)

include calm

theorem binaryKeeps : m.Keeps w (m.binary op type x y w) := by
  rcases ownBinary op type x y with own | zero
  · exact own.keeps calm
  · exact zero w ▸ nofun

theorem binaryFollows (alike : m.Alike w u) :
    Ending.Follows w (m.binary op type x y w) u (m.binary op type x y u) := by
  rcases ownBinary op type x y with own | zero
  · exact own.follows calm alike
  · exact zero w ▸ nofun

theorem castKeeps : m.Keeps w (m.cast target check x w) := by
  cases check with
  | false => exact (Own.cast target x).keeps calm
  | true =>
    have own : m.cast target true x w = m.apply (.cast target true) [x] w := by
      cases x <;> simp [cast]
    exact own ▸ calm.applyKeeps _ _

end Calm

end Machine

namespace Expr

variable {O W : Type} {m : Machine O W} {ρ : VarId → Datum O} {v : VarId} {r : Expr}

/-! ### Values -/

mutual

theorem evalKeeps (calm : m.Calm) : (e : Expr) → (w : W) → m.Keeps w (e.eval m ρ w)
  | var _, _ | const _ _, _ => by
    rw [eval]
    exact .value _
  | str _, _ | classRef _, _ | caught _, _ | staticField _, _ => by
    rw [eval]
    exact calm.applyKeeps _ _
  | binary op l r type, w => by
    rw [eval]
    exact (evalKeeps calm l w).andThen fun x w => (evalKeeps calm r w).andThen fun y w =>
      calm.binaryKeeps op type x y
  | unary op e type, w => by
    rw [eval]
    exact (evalKeeps calm e w).andThen fun x w => (Machine.Own.unary op type x).keeps calm
  | cast target e check, w => by
    rw [eval]
    exact (evalKeeps calm e w).andThen fun x w => calm.castKeeps target check x
  | compare l r _ _, w => by
    rw [eval]
    exact (evalKeeps calm l w).andThen fun x w => (evalKeeps calm r w).andThen fun y w => .ofOption _
  | test op l r, w => by
    rw [eval]
    exact (evalKeeps calm l w).andThen fun x w => (evalKeeps calm r w).andThen fun y w => .value _
  | testZero op l, w => by
    rw [eval]
    exact (evalKeeps calm l w).andThen fun x w => .value _
  | instanceOf e _, w | field _ e, w | length e, w | newArray _ e, w => by
    rw [eval]
    exact (evalKeeps calm e w).andThen fun x w => calm.applyKeeps _ _
  | element a i _, w => by
    rw [eval]
    exact (evalKeeps calm a w).andThen fun x w => (evalKeeps calm i w).andThen fun y w => calm.applyKeeps _ _
  | newObject _ es _, w | filled _ es, w | call _ _ es, w => by
    rw [eval]
    exact (evalAllKeeps calm es w).andThen fun xs w => calm.applyKeeps _ _
  | callOn _ _ e es, w => by
    rw [eval]
    exact (evalKeeps calm e w).andThen fun x w => (evalAllKeeps calm es w).andThen fun xs w => calm.applyKeeps _ _

theorem evalAllKeeps (calm : m.Calm) : (es : List Expr) → (w : W) → m.Keeps w (evalAll m ρ es w)
  | [], _ => by
    rw [evalAll]
    exact .value _
  | e :: es, w => by
    rw [evalAll]
    exact (evalKeeps calm e w).andThen fun x w => (evalAllKeeps calm es w).andThen fun xs w => .value _

end

theorem evalFollows (calm : m.Calm) {w u : W} (alike : m.Alike w u) : (e : Expr) → e.hasEffects = false →
    e.canThrow = false → Ending.Follows w (e.eval m ρ w) u (e.eval m ρ u)
  | var _, _, _ | const _ _, _, _ => by
    rw [eval,eval]
    exact .value _
  | str _, _, _ | caught _, _, _ => by
    rw [eval,eval]
    exact calm.applyFollows alike rfl []
  | binary op l r type, idle, still => by
    simp only [hasEffects,canThrow,Bool.or_eq_false_iff] at idle still
    rw [eval,eval]
    exact (evalFollows calm alike l idle.1 still.1.2).andThen fun x =>
      (evalFollows calm alike r idle.2 still.2).andThen fun y => calm.binaryFollows op type x y alike
  | unary op e type, idle, still => by
    rw [eval,eval]
    exact (evalFollows calm alike e idle still).andThen fun x => (Machine.Own.unary op type x).follows calm alike
  | cast target e check, idle, still => by
    obtain ⟨rfl,still⟩ := Bool.or_eq_false_iff.mp still
    rw [eval,eval]
    exact (evalFollows calm alike e idle still).andThen fun x => (Machine.Own.cast target x).follows calm alike
  | compare l r _ _, idle, still => by
    simp only [hasEffects,canThrow,Bool.or_eq_false_iff] at idle still
    rw [eval,eval]
    exact (evalFollows calm alike l idle.1 still.1).andThen fun x =>
      (evalFollows calm alike r idle.2 still.2).andThen fun y => .ofOption _
  | test op l r, idle, still => by
    simp only [hasEffects,canThrow,Bool.or_eq_false_iff] at idle still
    rw [eval,eval]
    exact (evalFollows calm alike l idle.1 still.1).andThen fun x =>
      (evalFollows calm alike r idle.2 still.2).andThen fun y => .value _
  | testZero op l, idle, still => by
    rw [eval,eval]
    exact (evalFollows calm alike l idle still).andThen fun x => .value _
  | classRef _, _, still | instanceOf _ _, _, still | staticField _, _, still | field _ _, _, still
  | element _ _ _, _, still | length _, _, still => Bool.noConfusion still
  | newObject _ _ _, idle, _ | newArray _ _, idle, _ | filled _ _, idle, _ | call _ _ _, idle, _
  | callOn _ _ _ _, idle, _ => Bool.noConfusion idle

def Divisor : Expr → Prop
  | const type n => isIntegral type → InRange type n
  | str _ => False
  | _ => True

def Divides : Expr → Prop
  | binary op l r type => l.Divides ∧ r.Divides ∧
    (op.divides → isIntegral type → (type = "I" ∨ type = "J") ∧ r.Divisor)
  | compare l r _ _ | test _ l r => l.Divides ∧ r.Divides
  | unary _ e _ | cast _ e _ | testZero _ e => e.Divides
  | _ => True

theorem divisionSound (calm : m.Calm) {op : Arith} {type : String} {e : Expr} {x y : Datum O} {w : W}
    (sound : op.divides → isIntegral type → (type = "I" ∨ type = "J") ∧ e.Divisor)
    (still : (op.canThrow type && (!e.isConstant || e.isZero)) = false) (gives : e.eval m ρ w = .value y w)
    (known : m.binary op type x y w ≠ .stuck) : m.binary op type x y w ≠ .raised m.byZero w := by
  intro raised
  by_cases integral : isIntegral type = true
  · obtain ⟨a,b,rfl,rfl,binary_,left,right⟩ := Machine.binaryParts integral known
    have none := (Machine.binaryRaised integral binary_ left right).mp raised
    have divides : op.divides = true := by
      cases op <;> first | rfl | contradiction
    obtain ⟨word,divisor⟩ := sound divides integral
    have throws : op.canThrow type = true := by
      rcases word with rfl | rfl <;> cases op <;> first | rfl | contradiction
    rw [throws,Bool.true_and,Bool.or_eq_false_iff,Bool.not_eq_false'] at still
    cases e with
    | const t n =>
      have nonzero : n ≠ 0 := by
        rintro rfl
        exact Bool.noConfusion still.2
      rw [eval] at gives
      obtain ⟨whole,cut⟩ := Machine.literalParts (Ending.value.inj gives).1
      rw [show cutTo t n = n from divisor whole] at cut
      have other : type ≠ "Z" := by rcases word with rfl | rfl <;> decide
      rw [Arith.wordsNone divides,← BitVec.toInt_inj,← wideWord other,← Arith.rightWide (.inr divides),
        show cutTo (op.rightType type) b = b from right] at none
      exact nonzero (cut.trans (none.trans BitVec.toInt_zero))
    | str _ => exact divisor
    | _ => exact Bool.noConfusion still.1
  · obtain ⟨a,ends⟩ := calm.idle (.binary op type) [x,y] w (by simp [Head.isQuiet,integral])
    unfold Machine.binary at raised
    rw [if_neg integral,ends] at raised
    cases a <;> contradiction

theorem evalSettled (calm : m.Calm) {w : W} : (e : Expr) → e.hasEffects = false → e.canThrow = false → e.Divides →
    Ending.Settled w (e.eval m ρ w)
  | var _, _, _, _ | const _ _, _, _, _ => by
    rw [eval]
    exact fun _ => ⟨_,rfl⟩
  | str _, _, _, _ | caught _, _, _, _ => by
    rw [eval]
    exact calm.applySettled rfl []
  | binary op l r type, idle, still, ⟨left,right,sound⟩ => by
    simp only [hasEffects,canThrow,Bool.or_eq_false_iff (x := _ || _)] at idle still
    obtain ⟨idleLeft,idleRight⟩ := Bool.or_eq_false_iff.mp idle
    obtain ⟨still,stillRight⟩ := still
    obtain ⟨own,stillLeft⟩ := Bool.or_eq_false_iff.mp still
    rw [eval]
    refine (evalSettled calm l idleLeft stillLeft left).andThen fun x _ =>
      (evalSettled calm r idleRight stillRight right).andThen fun y gives known => ?_
    rcases Machine.ownBinary op type x y with settles | zero
    · exact settles.settled calm known
    · exact absurd (zero w) (divisionSound calm sound own gives known)
  | unary op e type, idle, still, divides => by
    rw [eval]
    exact (evalSettled calm e idle still divides).andThen fun x _ => (Machine.Own.unary op type x).settled calm
  | cast target e check, idle, still, divides => by
    obtain ⟨rfl,still⟩ := Bool.or_eq_false_iff.mp still
    rw [eval]
    exact (evalSettled calm e idle still divides).andThen fun x _ => (Machine.Own.cast target x).settled calm
  | compare l r _ _, idle, still, divides => by
    simp only [hasEffects,canThrow,Bool.or_eq_false_iff] at idle still
    rw [eval]
    exact (evalSettled calm l idle.1 still.1 divides.1).andThen fun x _ =>
      (evalSettled calm r idle.2 still.2 divides.2).andThen fun y _ => .ofOption _
  | test op l r, idle, still, divides => by
    simp only [hasEffects,canThrow,Bool.or_eq_false_iff] at idle still
    rw [eval]
    exact (evalSettled calm l idle.1 still.1 divides.1).andThen fun x _ =>
      (evalSettled calm r idle.2 still.2 divides.2).andThen fun y _ _ => ⟨_,rfl⟩
  | testZero op l, idle, still, divides => by
    rw [eval]
    exact (evalSettled calm l idle still divides).andThen fun x _ _ => ⟨_,rfl⟩
  | classRef _, _, still, _ | instanceOf _ _, _, still, _ | staticField _, _, still, _ | field _ _, _, still, _
  | element _ _ _, _, still, _ | length _, _, still, _ => Bool.noConfusion still
  | newObject _ _ _, idle, _, _ | newArray _ _, idle, _, _ | filled _ _, idle, _, _ | call _ _ _, idle, _, _
  | callOn _ _ _ _, idle, _, _ => Bool.noConfusion idle

section Value

variable {x : Datum O} {w : W}

mutual

theorem evalSubst (calm : m.Calm) (same : ∀ u, m.Alike w u → r.eval m ρ u = .value x u) : (e : Expr) → (u : W) →
    m.Alike w u → (subst v r e).eval m ρ u = e.eval m (Function.update ρ v x) u
  | var a, u, alike => by
    rw [subst]
    by_cases here : a = v
    · rw [if_pos here,same u alike,here,eval,Function.update_self]
    · rw [if_neg here,eval,eval,Function.update_of_ne here]
  | const _ _, _, _ | str _, _, _ | classRef _, _, _ | caught _, _, _ | staticField _, _, _ => by
    rw [subst,eval,eval]
  | binary _ l r' _, u, alike | compare l r' _ _, u, alike | test _ l r', u, alike | element l r' _, u, alike => by
    rw [subst,eval,eval,evalSubst calm same l u alike]
    refine Ending.andThenCongr fun y u₁ gives => ?_
    rw [evalSubst calm same r' u₁ (alike.trans (evalKeeps calm l u y u₁ gives))]
  | unary _ e _, u, alike | cast _ e _, u, alike | testZero _ e, u, alike | instanceOf e _, u, alike
  | field _ e, u, alike | length e, u, alike | newArray _ e, u, alike => by
    rw [subst,eval,eval,evalSubst calm same e u alike]
  | newObject _ es _, u, alike | filled _ es, u, alike | call _ _ es, u, alike => by
    rw [subst,eval,eval,evalAllSubst calm same es u alike]
  | callOn _ _ e es, u, alike => by
    rw [subst,eval,eval,evalSubst calm same e u alike]
    refine Ending.andThenCongr fun y u₁ gives => ?_
    rw [evalAllSubst calm same es u₁ (alike.trans (evalKeeps calm e u y u₁ gives))]

theorem evalAllSubst (calm : m.Calm) (same : ∀ u, m.Alike w u → r.eval m ρ u = .value x u) : (es : List Expr) →
    (u : W) → m.Alike w u → evalAll m ρ (substAll v r es) u = evalAll m (Function.update ρ v x) es u
  | [], _, _ => by rw [substAll,evalAll,evalAll]
  | e :: es, u, alike => by
    rw [substAll,evalAll,evalAll,evalSubst calm same e u alike]
    refine Ending.andThenCongr fun y u₁ gives => ?_
    rw [evalAllSubst calm same es u₁ (alike.trans (evalKeeps calm e u y u₁ gives))]

end

end Value

/-! ### Reads, effects, memory and exceptions -/

mutual

def Bare : Expr → Prop
  | var _ | const _ _ | str _ | classRef _ | caught _ | staticField _ => True
  | binary _ l r _ | compare l r _ _ | test _ l r | element l r _ => l.Bare ∧ r.Bare
  | unary _ e _ | cast _ e _ | testZero _ e | instanceOf e _ | field _ e | length e | newArray _ e => e.Bare
  | newObject _ args init => (init = false → args = []) ∧ BareAll args
  | filled _ es | call _ _ es => BareAll es
  | callOn _ _ e es => e.Bare ∧ BareAll es

def BareAll : List Expr → Prop
  | [] => True
  | e :: es => e.Bare ∧ BareAll es

end

theorem varsSubst (v : VarId) (r e : Expr) :
    (subst v r e).vars = e.vars.flatMap fun u => if u = v then r.vars else [u] := by
  rw [varsSteps,stepsSubst,varsSteps e,varsSteps r]
  generalize e.steps = steps
  induction steps with
  | nil => rfl
  | cons st steps ih =>
    rw [List.flatMap_cons,List.filterMap_append,ih]
    cases st with
    | read u => by_cases same : u = v <;> simp [Step.subst,Step.var?,same]
    | _ => simp [Step.subst,List.filterMap_cons,Step.var?]

theorem effectsSubst (v : VarId) (r e : Expr) :
    (subst v r e).hasEffects = true ↔ e.hasEffects = true ∨ v ∈ e.vars ∧ r.hasEffects = true := by
  rw [effectsSteps,effectsSteps e,effectsSteps r,stepsSubst,← readSteps,List.any_flatMap,List.any_eq_true,
    List.any_eq_true]
  constructor
  · rintro ⟨st,member,acts⟩
    by_cases same : st = .read v
    · rw [Step.subst,if_pos same] at acts
      exact .inr ⟨same ▸ member,acts⟩
    · rw [Step.subst,if_neg same,List.any_cons,List.any_nil,Bool.or_false] at acts
      exact .inl ⟨st,member,acts⟩
  · rintro (⟨st,member,acts⟩ | ⟨member,acts⟩)
    · have other : st ≠ .read v := by
        rintro rfl
        contradiction
      exact ⟨st,member,by rw [Step.subst,if_neg other,List.any_cons,acts,Bool.true_or]⟩
    · exact ⟨_,member,by rw [Step.subst,if_pos rfl,acts]⟩

mutual

theorem memorySubst : (e : Expr) → e.Bare →
    ((subst v r e).readsMemory = true ↔ e.readsMemory = true ∨ v ∈ e.vars ∧ r.readsMemory = true)
  | var u, _ => by
    by_cases same : u = v
    · simp [subst,readsMemory,vars,same]
    · simp [subst,readsMemory,vars,same,Ne.symm same]
  | const _ _, _ | str _, _ | classRef _, _ | caught _, _ | staticField _, _ | field _ _, _ | element _ _ _, _
  | length _, _ | call _ _ _, _ | callOn _ _ _ _, _ => by simp [subst,readsMemory,vars]
  | binary _ a b _, ⟨left,right⟩ | compare a b _ _, ⟨left,right⟩ | test _ a b, ⟨left,right⟩ => by
    rw [subst,readsMemory,readsMemory,vars,Bool.or_eq_true,Bool.or_eq_true,List.mem_append,memorySubst a left,
      memorySubst b right,or_or_or_comm,or_and_right]
  | unary _ e _, bare | cast _ e _, bare | testZero _ e, bare | instanceOf e _, bare | newArray _ e, bare => by
    rw [subst,readsMemory,readsMemory,vars,memorySubst e bare]
  | newObject _ args true, _ => by simp [subst,readsMemory]
  | newObject _ args false, ⟨free,_⟩ => by simp [subst,readsMemory,vars,free rfl,varsAll]
  | filled _ es, bare => by rw [subst,readsMemory,readsMemory,vars,memoryAllSubst es bare]

theorem memoryAllSubst : (es : List Expr) → BareAll es → (readsMemoryAny (substAll v r es) = true ↔
    readsMemoryAny es = true ∨ v ∈ varsAll es ∧ r.readsMemory = true)
  | [], _ => by simp [substAll,readsMemoryAny,varsAll]
  | e :: es, ⟨here,there⟩ => by
    rw [substAll,readsMemoryAny,readsMemoryAny,varsAll,Bool.or_eq_true,Bool.or_eq_true,List.mem_append,
      memorySubst e here,memoryAllSubst es there,or_or_or_comm,or_and_right]

end

theorem doubtSubst {e : Expr} (doubt : (subst v r e).isConstant = false ∨ (subst v r e).isZero = true) :
    e.isConstant = false ∨ e.isZero = true := by
  cases e with
  | const _ _ | str _ => exact doubt
  | _ => exact .inl rfl

theorem throwSubst : (e : Expr) → (subst v r e).canThrow = true →
    e.canThrow = true ∨ v ∈ e.vars ∧ r.canThrow = true
  | var u, throws => by
    by_cases same : u = v
    · rw [subst,if_pos same] at throws
      exact .inr ⟨by simp [vars,same],throws⟩
    · rw [subst,if_neg same] at throws
      exact .inl throws
  | const _ _, throws | str _, throws | caught _, throws => .inl throws
  | binary op a b type, throws => by
    simp only [subst,canThrow,vars,Bool.or_eq_true,Bool.and_eq_true,Bool.not_eq_true',List.mem_append] at throws ⊢
    rcases throws with (⟨op,doubt⟩ | left) | right
    · exact .inl (.inl (.inl ⟨op,doubtSubst doubt⟩))
    · exact (throwSubst a left).imp (fun left => .inl (.inr left)) (.imp_left .inl)
    · exact (throwSubst b right).imp .inr (.imp_left .inr)
  | compare a b _ _, throws | test _ a b, throws => by
    simp only [subst,canThrow,vars,Bool.or_eq_true,List.mem_append] at throws ⊢
    rcases throws with left | right
    · exact (throwSubst a left).imp .inl (.imp_left .inl)
    · exact (throwSubst b right).imp .inr (.imp_left .inr)
  | unary _ e _, throws | testZero _ e, throws => throwSubst e throws
  | cast _ e check, throws => by
    simp only [subst,canThrow,vars,Bool.or_eq_true] at throws ⊢
    rcases throws with own | operand
    · exact .inl (.inl own)
    · exact (throwSubst e operand).imp_left .inr
  | classRef _, _ | instanceOf _ _, _ | staticField _, _ | field _ _, _ | element _ _ _, _ | length _, _
  | newObject _ _ _, _ | newArray _ _, _ | filled _ _, _ | call _ _ _, _ | callOn _ _ _ _, _ => .inl rfl

/-- Substitution. The result reads the variables of the expression, and those of the other in place of the
variable. It acts or looks at memory where one of the two does, if the variable is read, and raises only where
one of the two can. Where the other neither acts nor raises, it leaves the world as it is, and with its value for
the variable the expression comes to what the result comes to; and it has a value where it has a meaning. -/
theorem substitutes (v : VarId) (r e : Expr) (bare : e.Bare) :
    (subst v r e).vars = e.vars.flatMap (fun u => if u = v then r.vars else [u]) ∧
    ((subst v r e).hasEffects = true ↔ e.hasEffects = true ∨ v ∈ e.vars ∧ r.hasEffects = true) ∧
    ((subst v r e).readsMemory = true ↔ e.readsMemory = true ∨ v ∈ e.vars ∧ r.readsMemory = true) ∧
    ((subst v r e).canThrow = true → e.canThrow = true ∨ v ∈ e.vars ∧ r.canThrow = true) ∧
    (r.hasEffects = false → r.canThrow = false → ∀ {O W : Type} (m : Machine O W), m.Calm →
      ∀ (ρ : VarId → Datum O) (w : W),
        (∀ x w', r.eval m ρ w = .value x w' →
          w' = w ∧ (subst v r e).eval m ρ w = e.eval m (Function.update ρ v x) w) ∧
        (r.Divides → r.eval m ρ w ≠ .stuck → ∃ x, r.eval m ρ w = .value x w)) := by
  refine ⟨varsSubst v r e,effectsSubst v r e,memorySubst e bare,throwSubst e,fun idle still {O W} m calm ρ w => ?_⟩
  refine ⟨fun x w' gives => ?_,evalSettled calm r idle still⟩
  have same : ∀ u, m.Alike w u → r.eval m ρ u = .value x u := fun u alike =>
    (evalFollows calm alike r idle still x w' gives).2
  exact ⟨(evalFollows calm (.refl w) r idle still x w' gives).1,evalSubst calm same e w (.refl w)⟩

end Expr

def Machine.counting : Machine Unit Nat where
  constant _ _ := ()
  order _ _ := none
  byZero := ()
  apply
    | .call _ _, .whole n :: _, w => .value (.whole (n + w)) (w + 1)
    | .str _, _, w => .value (.other ()) w
    | _, _, _ => .stuck

theorem Machine.countingCalm : counting.Calm where
  idle h xs w quiet := by
    cases h with
    | str _ => exact ⟨some _,rfl⟩
    | call _ _ => contradiction
    | _ => exact ⟨none,rfl⟩
  kept h xs w y u _ g ys a quiet gives := by
    cases g with
    | str _ => cases a with
      | none => contradiction
      | some a =>
        obtain ⟨rfl,-⟩ := Ending.value.inj gives
        rfl
    | call _ _ => contradiction
    | _ => cases a with
      | none => rfl
      | some _ => contradiction

namespace Expr

/-- In `f(v0) - v0`, `v0 + 1` for `v0`. -/
theorem substitutesCall :
    let r : Expr := .binary .add (.var 0) (.const "I" 1) "I"
    let e : Expr := .binary .sub (.call .static ⟨"LTest;","f",["I"],"I"⟩ [.var 0]) (.var 0) "I"
    e.Bare ∧ r.Divides ∧ (subst 0 r e).vars = [0,0] ∧
      (subst 0 r e).eval Machine.counting (fun _ => .whole 3) 5 = .value (.whole 5) 6 := by
  intro r e
  have bare : e.Bare := ⟨⟨trivial,trivial⟩,trivial⟩
  have divides : r.Divides := ⟨trivial,trivial,nofun⟩
  have sum : r.eval Machine.counting (fun _ => .whole 3) 5 = .value (.whole 4) 5 := by decide +kernel
  obtain ⟨vars,-,-,-,comes⟩ := substitutes 0 r e bare
  obtain ⟨evals,-⟩ := comes rfl rfl Machine.counting Machine.countingCalm (fun _ => .whole 3) 5
  refine ⟨bare,divides,vars.trans rfl,?_⟩
  rw [(evals _ _ sum).2]
  decide +kernel

end Expr

end RegCode
