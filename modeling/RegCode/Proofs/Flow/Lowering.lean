import RegCode.Lower
import Mathlib.Tactic.Common

/-! The statements of a block that ends in a test of registers end in that test, which cannot raise. -/
namespace RegCode

/-- A stateful action that can fail answers `a` in the state `s` and leaves the state `s'`. -/
def Does {σ ε α : Type} (w : StateT σ (Except ε) α) (s : σ) (a : α) (s' : σ) : Prop :=
  w.run s = .ok (a,s')

theorem okOfBind {ε α β : Type} {x : Except ε α} {k : α → Except ε β} {c : β} (ok : x >>= k = .ok c) :
    ∃ a, x = .ok a ∧ k a = .ok c := by
  cases x with
  | error fault => contradiction
  | ok a => exact ⟨a,rfl,ok⟩

theorem errorOfBind {ε α β : Type} {x : Except ε α} {k : α → Except ε β} {f : ε} (fails : x >>= k = .error f) :
    x = .error f ∨ ∃ a, x = .ok a ∧ k a = .error f := by
  cases x with
  | error g =>
    cases fails
    exact .inl rfl
  | ok a => exact .inr ⟨a,rfl,fails⟩

section
variable {σ ε α β : Type} {s s' : σ}

@[simp] theorem doesPure {a a' : α} : Does (pure a : StateT σ (Except ε) α) s a' s' ↔ a' = a ∧ s' = s := by
  constructor
  · rintro ⟨⟩
    exact ⟨rfl,rfl⟩
  · rintro ⟨rfl,rfl⟩
    rfl

@[simp] theorem doesBind {w : StateT σ (Except ε) α} {k : α → StateT σ (Except ε) β} {c : β} :
    Does (w >>= k) s c s' ↔ ∃ a s₁, Does w s a s₁ ∧ Does (k a) s₁ c s' := by
  constructor
  · intro did
    obtain ⟨⟨a,s₁⟩,first,second⟩ := okOfBind did
    exact ⟨a,s₁,first,second⟩
  · rintro ⟨a,s₁,first,second⟩
    unfold Does at first second ⊢
    rw [StateT.run_bind,first]
    exact second

@[simp] theorem doesGet {a : σ} : Does (get : StateT σ (Except ε) σ) s a s' ↔ a = s ∧ s' = s := doesPure

@[simp] theorem doesSet {t : σ} {u : Unit} :
    Does (set t : StateT σ (Except ε) PUnit) s u s' ↔ s' = t := by
  constructor
  · rintro ⟨⟩
    rfl
  · rintro rfl
    rfl

@[simp] theorem doesThrow {e : ε} {a : α} : ¬Does (throw e : StateT σ (Except ε) α) s a s' := nofun

end

namespace Action

def IsQuietTest (a : Action) : Prop := ∃ c : Test, a = .branch c ∧ c.toExpr.canThrow = false

end Action

namespace Lower

variable {m : Method} {t t' : VarTable}

def IsTest (i : Instruction) : Prop := i.family = .ifTest ∨ i.family = .ifZero

theorem didRead {r : Int} {e : Expr} (did : Does (read r) t e t') : ∃ v, e = .var v := by
  simp only [read,doesBind,doesPure] at did
  obtain ⟨v,_,-,rfl,-⟩ := did
  exact ⟨v,rfl⟩

theorem didReject {α : Type} {i : Instruction} {cause : LowerCause} {a : α} :
    ¬Does (reject i cause) t a t' := nofun

theorem didTest {i : Instruction} (test : IsTest i) {a b c : Int} {act : Action}
    (did : Does (operate m i a b c) t act t') : act.IsQuietTest := by
  rcases test with family | family
  · simp only [operate,family,doesBind,doesPure] at did
    obtain ⟨l,_,left,r,_,right,rfl,-⟩ := did
    obtain ⟨v,rfl⟩ := didRead left
    obtain ⟨w,rfl⟩ := didRead right
    exact ⟨_,rfl,rfl⟩
  · simp only [operate,family,doesBind,doesPure] at did
    obtain ⟨l,_,left,rfl,-⟩ := did
    obtain ⟨v,rfl⟩ := didRead left
    exact ⟨_,rfl,rfl⟩

theorem didSingle {i : Instruction} (test : IsTest i) {a : Option Action}
    (did : Does (single m i) t a t') : ∃ b, a = some b ∧ b.IsQuietTest := by
  have steps : ∃ b t₁ x y z, Does (operate m i x y z) t b t₁ ∧ a = some b := by
    rcases test with family | family
    all_goals
      simp only [single,family] at did
      split at did
      · exact absurd did didReject
      · simp only [doesBind,doesPure] at did
        obtain ⟨b,t₁,did,same,-⟩ := did
        exact ⟨b,t₁,_,_,_,did,same⟩
  obtain ⟨b,_,_,_,_,did,same⟩ := steps
  exact ⟨b,same,didTest test did⟩

theorem didCons {i : Instruction} {rest : List Instruction} {as : List Action}
    (did : Does (actions m (i :: rest)) t as t') :
    ∃ front tail more t₁, as = front ++ more ∧ Does (actions m tail) t₁ more t' ∧
      (tail = rest ∨ ∃ j, rest = j :: tail ∧ j.family = .moveResult) := by
  unfold actions at did
  split at did
  case h_1 | h_2 =>
    simp only [doesBind] at did
    obtain ⟨e,t₁,-,did⟩ := did
    split at did
    · split at did
      · rename_i result
        split at did
        · exact absurd did didReject
        · simp only [doesBind,doesPure] at did
          obtain ⟨v,t₂,-,more,t₃,did,rfl,rfl⟩ := did
          exact ⟨[_],_,more,t₂,rfl,did,.inr ⟨_,rfl,result⟩⟩
      · simp only [doesBind,doesPure] at did
        obtain ⟨more,t₂,did,rfl,rfl⟩ := did
        exact ⟨[_],_,more,t₁,rfl,did,.inl rfl⟩
    · obtain ⟨rfl,rfl⟩ := doesPure.mp did
      exact ⟨[_],[],[],t',rfl,doesPure.mpr ⟨rfl,rfl⟩,.inl rfl⟩
  case h_3 => exact absurd did didReject
  case h_4 =>
    simp only [doesBind,doesPure] at did
    obtain ⟨a,t₁,-,more,t₂,did,rfl,rfl⟩ := did
    exact ⟨_,_,more,t₁,rfl,did,.inl rfl⟩

theorem didAlone {i : Instruction} (test : IsTest i) {as : List Action}
    (did : Does (actions m [i]) t as t') : ∃ a, as = [a] ∧ a.IsQuietTest := by
  have only : ∃ a t₁, Does (single m i) t a t₁ ∧ as = a.toList ++ [] := by
    rcases test with family | family
    all_goals
      simp only [actions,family,doesBind,doesPure] at did
      obtain ⟨a,t₁,did,-,-,⟨rfl,-⟩,same,-⟩ := did
      exact ⟨a,t₁,did,same⟩
  obtain ⟨a,_,here,rfl⟩ := only
  obtain ⟨b,rfl,quiet⟩ := didSingle test here
  exact ⟨b,rfl,quiet⟩

theorem didActions {t t' : VarTable} {insts : List Instruction} {i : Instruction} (last : insts.getLast? = some i)
    (test : IsTest i) {as : List Action} (did : Does (actions m insts) t as t') :
    ∃ a, as.getLast? = some a ∧ a.IsQuietTest := by
  match insts with
  | [] => contradiction
  | [j] =>
    obtain rfl : j = i := Option.some.inj last
    obtain ⟨a,rfl,quiet⟩ := didAlone test did
    exact ⟨a,rfl,quiet⟩
  | j :: k :: rest =>
    obtain ⟨front,tail,more,t₁,rfl,did,parts⟩ := didCons did
    have ends : tail.getLast? = some i ∧ tail.length < (j :: k :: rest).length := by
      rcases parts with rfl | ⟨l,same,result⟩
      · exact ⟨last,Nat.lt_succ_self _⟩
      · obtain ⟨rfl,rfl⟩ := List.cons.inj same
        cases rest with
        | nil =>
          obtain rfl : k = i := Option.some.inj last
          rcases test with family | family <;> rw [family] at result <;> contradiction
        | cons => exact ⟨last,by simp⟩
    obtain ⟨ends,shorter⟩ := ends
    obtain ⟨a,found,quiet⟩ := didActions ends test did
    exact ⟨a,by rw [List.getLast?_append,found]; rfl,quiet⟩
termination_by insts.length
decreasing_by exact shorter

end Lower

namespace Stmt

theorem foldConstructorsEnd (done : List (Option Stmt)) (ss : List Stmt) {s : Stmt}
    (other : s.constructorCall? = none) :
    ∃ rest, foldConstructorsFrom done (ss ++ [s]) = some s :: rest := by
  induction ss generalizing done with
  | nil => exact ⟨done,by simp only [List.nil_append,foldConstructorsFrom,other]⟩
  | cons k ss ih =>
    rw [List.cons_append,foldConstructorsFrom]
    split
    · exact ih _
    · split <;> exact ih _

theorem lastOfFoldConstructors {ss : List Stmt} {s : Stmt} (last : ss.getLast? = some s)
    (other : s.constructorCall? = none) : (foldConstructors ss).getLast? = some s := by
  obtain ⟨front,rfl⟩ := List.getLast?_eq_some_iff.mp last
  obtain ⟨rest,folded⟩ := foldConstructorsEnd [] front other
  rw [foldConstructors,folded]
  simp

end Stmt

namespace Lower

variable {m : Method} {t t' : VarTable}

theorem didBlock {insts : List Instruction} {i : Instruction} (last : insts.getLast? = some i)
    (test : IsTest i) {ss : List Stmt} (did : Does (block m insts) t ss t') :
    ∃ s, ss.getLast? = some s ∧ s.canThrow = false := by
  simp only [block,doesBind,doesPure] at did
  obtain ⟨as,_,did,rfl,-⟩ := did
  obtain ⟨_,found,c,rfl,quiet⟩ := didActions last test did
  refine ⟨⟨0,.branch c⟩,Stmt.lastOfFoldConstructors ?_ rfl,quiet⟩
  rw [List.getLast?_map,found]
  rfl

end Lower

end RegCode

/-! Lowering makes the initial variables that it lacks and nothing else. Once they are there, it gives
the same statements again and leaves the table as it is. -/
namespace RegCode

def VarTable.Within (t u : VarTable) : Prop := ∀ r v, t.initial? r = some v → u.initial? r = some v

namespace VarTable

variable {t u w : VarTable}

theorem Within.refl (t : VarTable) : t.Within t := fun _ _ => id

theorem Within.trans (first : t.Within u) (second : u.Within w) : t.Within w :=
  fun r v found => second r v (first r v found)

theorem withinRegister (t : VarTable) (r : Int) : t.Within (t.register r).1 := by
  unfold register
  split
  · exact .refl t
  · intro q v found
    rw [initial?] at found ⊢
    rw [push,Array.findIdx?_push,found]
    rfl

theorem initialRegister (t : VarTable) (r : Int) :
    (t.register r).1.initial? r = some (t.register r).2 := by
  unfold register
  split
  · rename_i v found
    exact found
  · rename_i none
    rw [initial?] at none ⊢
    rw [push,Array.findIdx?_push,none]
    simp [size]

theorem registerOf {r : Int} {v : VarId} (found : t.initial? r = some v) : t.register r = (t,v) := by
  rw [register,found]

end VarTable

namespace Lower

/-- Work put together from variables, answers and refusals with some faults. -/
inductive Made (P : LowerFault → Prop) : {α : Type} → Lowering α → Prop where
  | pure {α : Type} (a : α) : Made P (Pure.pure a : Lowering α)
  | varOf (r : Int) : Made P (Lower.varOf r)
  | reject {α : Type} {i : Instruction} {cause : LowerCause} (allowed : P ⟨i.offset,cause⟩) :
      Made P (Lower.reject i cause : Lowering α)
  | bind {α β : Type} {w : Lowering α} {k : α → Lowering β} (first : Made P w) (second : ∀ a, Made P (k a)) :
      Made P (w >>= k)

namespace Made

variable {P Q : LowerFault → Prop} {α : Type}

theorem mono {w : Lowering α} (made : Made P w) (weaker : ∀ f, P f → Q f) : Made Q w := by
  induction made with
  | pure a => exact .pure a
  | varOf r => exact .varOf r
  | reject allowed => exact .reject (weaker _ allowed)
  | bind _ _ first second => exact .bind first second

theorem refuses {w : Lowering α} (made : Made P w) {t : VarTable} {f : LowerFault} (fails : w.run t = .error f) :
    P f := by
  induction made generalizing t with
  | pure a => exact nomatch fails
  | varOf r => exact nomatch fails
  | reject allowed =>
    cases fails
    exact allowed
  | bind _ _ first second =>
    rcases errorOfBind fails with here | ⟨parts,-,later⟩
    · exact first here
    · exact second parts.1 later

theorem read (r : Int) : Made P (Lower.read r) := bind (varOf r) fun _ => pure _

theorem readAll (rs : List Int) : Made P (Lower.readAll rs) := by
  induction rs with
  | nil => exact pure _
  | cons r rs ih => exact bind (read r) fun _ => bind ih fun _ => pure _

theorem assign (r : Int) {value : Lowering Expr} (made : Made P value) : Made P (Lower.assign r value) :=
  bind (varOf r) fun _ => bind made fun _ => pure _

def Own (i : Instruction) (f : LowerFault) : Prop := f.offset = i.offset ∧ f.cause ≠ .noResultRegister

theorem fieldOf (i : Instruction) : Made (Own i) (Lower.fieldOf i) := by
  unfold Lower.fieldOf
  split
  · exact pure _
  · exact reject ⟨rfl,nofun⟩

theorem call (i : Instruction) : Made (Own i) (Lower.call i) := by
  unfold Lower.call
  split
  · exact bind (readAll _) fun _ => pure _
  · split
    · exact reject ⟨rfl,nofun⟩
    · dsimp only
      split
      · split
        · exact reject ⟨rfl,nofun⟩
        · exact bind (readAll _) fun _ => pure _
      · split
        · exact reject ⟨rfl,nofun⟩
        · refine bind (read _) fun _ => ?_
          split
          · exact reject ⟨rfl,nofun⟩
          · exact bind (readAll _) fun _ => pure _

theorem operate (m : Method) (i : Instruction) (a b c : Int) : Made (Own i) (Lower.operate m i a b c) := by
  have one : ∀ {γ : Type} r (f : Expr → γ), Made (Own i) (do return f (← Lower.read r)) :=
    fun r f => bind (read r) fun _ => pure _
  have two : ∀ {γ : Type} q r (f : Expr → Expr → γ),
      Made (Own i) (do let l ← Lower.read q; let e ← Lower.read r; Pure.pure (f l e)) :=
    fun q r f => bind (read q) fun _ => one r _
  unfold Lower.operate
  split
  case h_1 => exact assign _ (read _)
  case h_2 | h_4 | h_5 | h_6 | h_7 | h_13 => exact assign _ (pure _)
  case h_3 | h_8 | h_9 | h_15 | h_16 | h_17 | h_18 | h_21 => exact one _ _
  case h_10 | h_11 | h_12 | h_14 | h_28 | h_29 | h_31 => exact assign _ (one _ _)
  case h_19 | h_22 => exact assign _ (two _ _ _)
  case h_20 => exact two _ _ _
  case h_23 => exact bind (read _) fun _ => two _ _ _
  case h_24 => exact bind (fieldOf i) fun _ => assign _ (one _ _)
  case h_25 => exact bind (fieldOf i) fun _ => two _ _ _
  case h_26 => exact bind (fieldOf i) fun _ => assign _ (pure _)
  case h_27 => exact bind (fieldOf i) fun _ => one _ _
  case h_30 => exact assign _ (two _ _ _)
  case h_32 => exact reject ⟨rfl,nofun⟩

theorem single (m : Method) (i : Instruction) : Made (Own i) (Lower.single m i) := by
  unfold Lower.single
  split
  · exact pure _
  · exact pure _
  · exact pure _
  · split
    · exact reject ⟨rfl,nofun⟩
    · exact bind (operate m i _ _ _) fun _ => pure _

def Within (is : List Instruction) (f : LowerFault) : Prop :=
  f.cause = .noResultRegister → ∃ before i j after, is = before ++ i :: j :: after ∧
    (i.family = .invoke ∨ i.family = .filledNewArray) ∧ j.family = .moveResult ∧ j.regs = [] ∧
    f.offset = j.offset

theorem Own.within {i : Instruction} {f : LowerFault} (own : Own i f) (is : List Instruction) : Within is f :=
  fun same => absurd same own.2

theorem Within.behind {is : List Instruction} {f : LowerFault} (within : Within is f) (front : List Instruction) :
    Within (front ++ is) f := by
  intro same
  obtain ⟨before,i,j,after,parts,rest⟩ := within same
  exact ⟨front ++ before,i,j,after,by rw [parts,List.append_assoc],rest⟩

theorem Within.ahead {is : List Instruction} {f : LowerFault} (within : Within is f) (back : List Instruction) :
    Within (is ++ back) f := by
  intro same
  obtain ⟨before,i,j,after,parts,rest⟩ := within same
  exact ⟨before,i,j,after ++ back,by simp [parts],rest⟩

theorem actions (m : Method) (is : List Instruction) : Made (Within is) (Lower.actions m is) := by
  induction is using Lower.actions.induct with
  | case1 => exact pure _
  | case2 i rest family ih | case3 i rest family ih =>
    unfold Lower.actions
    simp only [family]
    refine bind ((call i).mono fun _ own => own.within _) fun e => ?_
    cases rest with
    | nil => exact pure _
    | cons next rest =>
      dsimp only at ih ⊢
      split
      · rename_i result
        split
        · rename_i none
          exact reject fun _ => ⟨[],i,next,rest,rfl,by simp [family],result,none,rfl⟩
        · exact bind (varOf _) fun _ => bind (ih.1.mono fun _ within => within.behind [i,next]) fun _ => pure _
      · exact bind (ih.2.mono fun _ within => within.behind [i]) fun _ => pure _
  | case4 i rest family =>
    unfold Lower.actions
    simp only [family]
    exact reject nofun
  | case5 i rest notCall notArray notResult ih =>
    unfold Lower.actions
    split
    · exact absurd ‹_› notCall
    · exact absurd ‹_› notArray
    · exact absurd ‹_› notResult
    · exact bind ((single m i).mono fun _ own => own.within _) fun _ =>
        bind (ih.mono fun _ within => within.behind [i]) fun _ => pure _

theorem block (m : Method) (is : List Instruction) : Made (Within is) (Lower.block m is) :=
  bind (actions m is) fun _ => pure _

end Made

def Settles {α : Type} (w : Lowering α) : Prop :=
  ∀ t a t', Does w t a t' → t.Within t' ∧ ∀ u, t'.Within u → Does w u a u

namespace Settles

variable {α β : Type}

theorem pure (a : α) : Settles (Pure.pure a : Lowering α) := by
  intro t b t' did
  obtain ⟨rfl,rfl⟩ := doesPure.mp did
  exact ⟨.refl t',fun u _ => doesPure.mpr ⟨rfl,rfl⟩⟩

theorem bind {w : Lowering α} {k : α → Lowering β} (first : Settles w) (second : ∀ a, Settles (k a)) :
    Settles (w >>= k) := by
  intro t b t' did
  obtain ⟨a,t₁,here,rest⟩ := doesBind.mp did
  obtain ⟨grows,again⟩ := first t a t₁ here
  obtain ⟨grows',again'⟩ := second a t₁ b t' rest
  exact ⟨grows.trans grows',fun u more =>
    doesBind.mpr ⟨a,u,again u (grows'.trans more),again' u more⟩⟩

theorem varOf (r : Int) : Settles (Lower.varOf r) := by
  intro t v t' did
  obtain ⟨rfl,rfl⟩ := Prod.mk.inj (Except.ok.inj did)
  refine ⟨t.withinRegister r,fun u more => ?_⟩
  have found := more r _ (t.initialRegister r)
  have same : Lower.varOf r u = .ok ((u.register r).2,(u.register r).1) := rfl
  rw [VarTable.registerOf found] at same
  exact same

theorem ofMade {P : LowerFault → Prop} {w : Lowering α} (made : Made P w) : Settles w := by
  induction made with
  | pure a => exact pure a
  | varOf r => exact varOf r
  | reject => exact fun _ _ _ did => absurd did didReject
  | bind _ _ first second => exact bind first second

theorem block (m : Method) (is : List Instruction) : Settles (Lower.block m is) := ofMade (Made.block m is)

end Settles

end Lower

end RegCode
