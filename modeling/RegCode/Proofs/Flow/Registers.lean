import RegCode.Proofs.Flow.Lowering
import Mathlib.Data.List.Forall2

/-! What an instruction defines and reads, and what the statement does that it is lowered to. The two
tell the same: the statement defines and reads the initial variables of the registers of the instruction,
as often as the instruction does. -/
namespace RegCode

namespace VarTable

variable {t u : VarTable} {rs qs : List Int} {vs ws : List VarId}

structure Stand (t : VarTable) (rs : List Int) (vs : List VarId) : Prop where
  registers : (vs.map fun v => (t.get v).register).Perm rs
  initial : ∀ v ∈ vs, t.initial? (t.get v).register = some v

theorem initialOf {r : Int} {v : VarId} (found : t.initial? r = some v) :
    (t.get v).register = r ∧ (t.get v).version = 0 := by
  obtain ⟨inside,holds,-⟩ := Array.findIdx?_eq_some_iff_getElem.mp found
  rw [Bool.and_eq_true,beq_iff_eq,beq_iff_eq] at holds
  rw [get,Array.getElem?_eq_getElem inside]
  exact holds

namespace Stand

theorem nil : t.Stand [] [] := ⟨.refl _,nofun⟩

theorem one {r : Int} {v : VarId} (found : t.initial? r = some v) : t.Stand [r] [v] := by
  have same := (initialOf found).1
  refine ⟨by rw [List.map_singleton,same],fun w member => ?_⟩
  rw [List.mem_singleton.mp member,same,found]

theorem append (first : t.Stand rs vs) (second : t.Stand qs ws) : t.Stand (rs ++ qs) (vs ++ ws) := by
  refine ⟨by rw [List.map_append]; exact first.registers.append second.registers,fun v member => ?_⟩
  exact (List.mem_append.mp member).elim (first.initial v) (second.initial v)

theorem perm (stand : t.Stand rs vs) (order : rs.Perm qs) : t.Stand qs vs :=
  ⟨stand.registers.trans order,stand.initial⟩

theorem mono (stand : t.Stand rs vs) (more : t.Within u) : u.Stand rs vs := by
  have kept : ∀ v ∈ vs, (u.get v).register = (t.get v).register := fun v member =>
    (initialOf (more _ v (stand.initial v member))).1
  refine ⟨by rw [List.map_congr_left kept]; exact stand.registers,fun v member => ?_⟩
  rw [kept v member]
  exact more _ v (stand.initial v member)

theorem option {r : Option Int} {v : Option VarId} (stand : t.Stand r.toList v.toList) :
    Option.Rel (fun r v => t.initial? r = some v) r v := by
  have many := stand.registers.length_eq
  cases r with
  | none =>
    cases v with
    | none => exact .none
    | some v => contradiction
  | some r =>
    cases v with
    | none => contradiction
    | some v =>
      have same : (t.get v).register = r := List.singleton_perm_singleton.mp stand.registers
      exact .some (same ▸ stand.initial v (List.mem_singleton_self v))

end Stand

end VarTable

namespace Lower

variable {α β γ : Type}

def Draws (ds rs : List Int) (def' use : α → List VarId) (w : Lowering α) : Prop :=
  ∀ t a t', Does w t a t' → t.Within t' ∧ t'.Stand ds (def' a) ∧ t'.Stand rs (use a)

namespace Draws

variable {ds rs ds' rs' : List Int} {d u : α → List VarId} {d' u' : β → List VarId} {d₂ u₂ : γ → List VarId}

theorem pure {a : α} (idle : d a = []) (blind : u a = []) : Draws [] [] d u (Pure.pure a : Lowering α) := by
  intro t b t' did
  obtain ⟨rfl,rfl⟩ := doesPure.mp did
  exact ⟨.refl t',idle ▸ .nil,blind ▸ .nil⟩

theorem reject (i : Instruction) (cause : LowerCause) : Draws ds rs d u (Lower.reject i cause : Lowering α) :=
  fun _ _ _ did => absurd did didReject

theorem behind {w : Lowering α} {k : α → Lowering β} (first : Settles w) (second : ∀ a, Draws ds rs d' u' (k a)) :
    Draws ds rs d' u' (w >>= k) := by
  intro t b t' did
  obtain ⟨a,t₁,here,rest⟩ := doesBind.mp did
  obtain ⟨grown,stands⟩ := second a t₁ b t' rest
  exact ⟨(first t a t₁ here).1.trans grown,stands⟩

theorem map {w : Lowering α} {f : α → β} (draws : Draws ds rs d u w) (defs : ∀ a, d' (f a) = d a)
    (uses : ∀ a, u' (f a) = u a) : Draws ds rs d' u' (do return f (← w)) := by
  intro t b t' did
  obtain ⟨a,t₁,here,last⟩ := doesBind.mp did
  obtain ⟨rfl,rfl⟩ := doesPure.mp last
  rw [defs,uses]
  exact draws t a t' here

theorem join {w : Lowering α} {x : Lowering β} {f : α → β → γ} (first : Draws ds rs d u w)
    (second : Draws ds' rs' d' u' x) (defs : ∀ a b, d₂ (f a b) = d a ++ d' b)
    (uses : ∀ a b, u₂ (f a b) = u a ++ u' b) :
    Draws (ds ++ ds') (rs ++ rs') d₂ u₂ (w >>= fun a => x >>= fun b => Pure.pure (f a b)) := by
  intro t c t' did
  obtain ⟨a,t₁,here,rest⟩ := doesBind.mp did
  obtain ⟨b,t₂,there,last⟩ := doesBind.mp rest
  obtain ⟨rfl,rfl⟩ := doesPure.mp last
  obtain ⟨grown,defines,reads⟩ := first t a t₁ here
  obtain ⟨grown',defines',reads'⟩ := second t₁ b t' there
  rw [defs,uses]
  exact ⟨grown.trans grown',(defines.mono grown').append defines',(reads.mono grown').append reads'⟩

theorem perm {w : Lowering α} (draws : Draws ds rs d u w) (order : rs.Perm rs') : Draws ds rs' d u w :=
  fun t a t' did => (draws t a t' did).imp_right fun stands => ⟨stands.1,stands.2.perm order⟩

theorem varOf (r : Int) : Draws [r] [] (fun v => [v]) (fun _ => []) (Lower.varOf r) := by
  intro t v t' did
  obtain ⟨rfl,rfl⟩ := Prod.mk.inj (Except.ok.inj did)
  exact ⟨t.withinRegister r,.one (t.initialRegister r),.nil⟩

theorem read (r : Int) : Draws [] [r] (fun _ => []) Expr.vars (Lower.read r) := by
  intro t e t' did
  obtain ⟨v,t₁,here,last⟩ := doesBind.mp did
  obtain ⟨rfl,rfl⟩ := doesPure.mp last
  obtain ⟨grown,stands,-⟩ := varOf r t v t' here
  exact ⟨grown,.nil,stands⟩

theorem readAll (qs : List Int) : Draws [] qs (fun _ => []) Expr.varsAll (Lower.readAll qs) := by
  induction qs with
  | nil => exact pure rfl rfl
  | cons q qs ih => exact join (read q) ih (fun _ _ => rfl) fun _ _ => rfl

theorem assign (r : Int) {value : Lowering Expr} (draws : Draws [] rs (fun _ => []) Expr.vars value) :
    Draws [r] rs (·.def?.toList) Action.uses (Lower.assign r value) :=
  join (varOf r) draws (fun _ _ => rfl) fun _ e => List.append_nil e.vars

abbrev withRegs (i : Instruction) (a b c : Int) : Instruction := { i with regs := [a,b,c] }

theorem call (i : Instruction) (calls : i.family = .invoke ∨ i.family = .filledNewArray) :
    Draws [] i.usedRegisters (fun _ => []) Expr.vars (Lower.call i) := by
  unfold Lower.call
  rcases calls with family | family
  · have used : i.usedRegisters = i.argumentRegisters := by simp only [Instruction.usedRegisters,family]
    rw [if_neg (by simp [family]),used]
    split
    · exact reject i _
    · dsimp only
      split
      · split
        · exact reject i _
        · exact map (readAll _) (fun _ => rfl) fun _ => rfl
      · split
        · exact reject i _
        · rename_i r args listed
          rw [listed]
          split
          · exact behind (.ofMade (Made.read (P := fun _ => True) r)) fun _ => reject i _
          · exact join (read r) (readAll args) (fun _ _ => rfl) fun _ _ => rfl
  · have used : i.usedRegisters = i.regs := by simp only [Instruction.usedRegisters,family]
    rw [if_pos family,used]
    exact map (readAll _) (fun _ => rfl) fun _ => rfl

theorem operate (m : Method) (i : Instruction) (a b c : Int) :
    Draws (withRegs i a b c).definedRegister?.toList (withRegs i a b c).usedRegisters (·.def?.toList) Action.uses
      (Lower.operate m i a b c) := by
  -- An expression over the variable of one register or of two, and an action over one or two.
  have value : ∀ r (f : Expr → Expr), (∀ e, (f e).vars = e.vars) →
      Draws [] [r] (fun _ => []) Expr.vars (do return f (← Lower.read r)) := fun r f => map (read r) fun _ => rfl
  have values : ∀ q r (f : Expr → Expr → Expr), (∀ e e', (f e e').vars = e.vars ++ e'.vars) →
      Draws [] [q,r] (fun _ => []) Expr.vars (do let l ← Lower.read q; let e ← Lower.read r; Pure.pure (f l e)) :=
    fun q r f => join (read q) (read r) fun _ _ => rfl
  have acts : ∀ r (f : Expr → Action), (∀ e, (f e).def? = none) → (∀ e, (f e).uses = e.vars) →
      Draws [] [r] (·.def?.toList) Action.uses (do return f (← Lower.read r)) := fun r f idle =>
    map (read r) fun e => by rw [idle]; rfl
  have actsOnTwo : ∀ q r (f : Expr → Expr → Action), (∀ e e', (f e e').def? = none) →
      (∀ e e', (f e e').uses = e.vars ++ e'.vars) → Draws [] [q,r] (·.def?.toList) Action.uses
        (do let l ← Lower.read q; let e ← Lower.read r; Pure.pure (f l e)) := fun q r f idle =>
    join (read q) (read r) fun e e' => by rw [idle]; rfl
  have alone : ∀ e : Expr, Expr.varsAll [e] = e.vars := fun e => List.append_nil e.vars
  have field : Settles (fieldOf i) := .ofMade (Made.fieldOf i)
  unfold Lower.operate
  split <;> rename_i family <;>
    simp only [Instruction.definedRegister?,Instruction.usedRegisters,Instruction.regsBetween,family]
  case h_1 => exact assign a (read b)
  case h_2 | h_4 | h_5 | h_6 | h_7 | h_13 => exact assign a (pure rfl rfl)
  case h_3 | h_8 | h_9 | h_15 | h_16 | h_17 | h_18 | h_21 => exact acts a _ (fun _ => rfl) alone
  case h_10 => exact assign a (value a _ fun _ => rfl)
  case h_11 | h_12 | h_14 | h_28 | h_29 => exact assign a (value b _ fun _ => rfl)
  case h_19 | h_22 => exact assign a (values b c _ fun _ _ => rfl)
  case h_20 => exact actsOnTwo a b _ (fun _ _ => rfl) fun _ _ => alone _
  case h_23 =>
    have index : Draws [] [c,a] (fun _ => []) (fun p : Expr × Expr => p.1.vars ++ p.2.vars)
        (do let j ← Lower.read c; let e ← Lower.read a; Pure.pure (j,e)) :=
      join (read c) (read a) (fun _ _ => rfl) fun _ _ => rfl
    have all : Draws [] [b,c,a] (·.def?.toList) Action.uses
        (do let x ← Lower.read b; let p ← (do let j ← Lower.read c; let e ← Lower.read a; Pure.pure (j,e))
            Pure.pure (Action.storeElement x p.1 p.2)) :=
      join (read b) index (fun _ _ => rfl) fun x p =>
        congrArg (x.vars ++ ·) (congrArg (p.1.vars ++ ·) (alone p.2))
    simp only [bind_assoc,pure_bind] at all
    exact all
  case h_24 => exact behind field fun _ => assign a (value b _ fun _ => rfl)
  case h_25 =>
    refine perm (behind field fun f => actsOnTwo b a _ (fun _ _ => rfl) fun o e => ?_) (.swap a b [])
    exact congrArg (o.vars ++ ·) (List.append_nil e.vars)
  case h_26 => exact behind field fun _ => assign a (pure rfl rfl)
  case h_27 => exact behind field fun _ => acts a _ (fun _ => rfl) alone
  case h_30 =>
    cases i.twoAddress
    · exact assign a (values b c _ fun _ _ => rfl)
    · exact assign a (values a b _ fun _ _ => rfl)
  case h_31 =>
    refine assign a (value b _ fun e => ?_)
    split
    · rfl
    · exact List.append_nil e.vars
  case h_32 => exact reject i _

end Draws

theorem takeOwn {rs : List Int} {n : Nat} (few : n ≤ 3) (enough : n ≤ rs.length) :
    [rs[0]?.getD 0,rs[1]?.getD 0,rs[2]?.getD 0].take n = rs.take n := by
  refine List.ext_getElem? fun k => ?_
  by_cases less : k < n
  · rw [List.getElem?_take_of_lt less,List.getElem?_take_of_lt less]
    have there : rs[k]? = some rs[k] := List.getElem?_eq_getElem (Nat.lt_of_lt_of_le less enough)
    obtain rfl | rfl | rfl : k = 0 ∨ k = 1 ∨ k = 2 := by omega
    all_goals rw [there]; rfl
  · rw [List.getElem?_take_eq_none (Nat.le_of_not_lt less),List.getElem?_take_eq_none (Nat.le_of_not_lt less)]

theorem ownRegisters {i : Instruction} (enough : leastRegisters i ≤ i.regs.length)
    (single : i.family ≠ .invoke ∧ i.family ≠ .filledNewArray) :
    let j := Draws.withRegs i (i.regs[0]?.getD 0) (i.regs[1]?.getD 0) (i.regs[2]?.getD 0)
    j.definedRegister? = i.definedRegister? ∧ j.usedRegisters = i.usedRegisters := by
  intro j
  have one : 1 ≤ i.regs.length := by
    refine Nat.le_trans ?_ enough
    unfold leastRegisters
    split <;> first | decide | (split <;> decide)
  have head : j.regs.head? = i.regs.head? := by
    rw [List.head?_eq_getElem?,List.head?_eq_getElem?,List.getElem?_eq_getElem one]
    simp [j,List.getElem?_eq_getElem one]
  have own : ∀ lo hi, hi ≤ 3 → hi ≤ leastRegisters i → j.regsBetween lo hi = i.regsBetween lo hi :=
    fun lo hi few needed => congrArg (List.drop lo) (takeOwn few (Nat.le_trans needed enough))
  have same : j.family = i.family := rfl
  constructor
  · unfold Instruction.definedRegister?
    rw [same,head]
  · unfold Instruction.usedRegisters
    rw [same]
    cases family : i.family <;> simp only [leastRegisters,family] at own
    case aput => exact own 0 3 (by decide) (by decide) ▸ rfl
    case binary =>
      show (if i.twoAddress then j.regsBetween 0 2 else j.regsBetween 1 3) = _
      cases twice : i.twoAddress <;> simp only [twice] at own
      · exact own 1 3 (by decide) (by decide)
      · exact own 0 2 (by decide) (by decide)
    case invoke => exact absurd family single.1
    case filledNewArray => exact absurd family single.2
    all_goals first | rfl | exact own _ _ (by decide) (by decide)

def lowPlaces (start : Nat) : List String → List Nat
  | [] => []
  | p :: ps => start :: lowPlaces (start + Descriptor.size p) ps

def callPlaces (kind : InvokeKind) (params : List String) : List Nat :=
  if kind = .static then lowPlaces 0 params else 0 :: lowPlaces 1 params

/-- The statement of an instruction, with the result after it, defines and reads what the two do. -/
structure Tells (t : VarTable) (i : Instruction) (result : Option Instruction) (a : Action) : Prop where
  defines : Option.Rel (fun r v => t.initial? r = some v) (result.getD i).definedRegister? a.def?
  uses : (a.uses.map fun v => (t.get v).register).Perm i.usedRegisters
  initial : ∀ v ∈ a.uses, t.initial? (t.get v).register = some v
  low : i.family = .invoke → ∃ m, i.method = some m ∧
    i.usedRegisters.map some = (callPlaces i.invoke m.params).map (i.regs[·]?)

def units : List Instruction → List (Instruction × Option Instruction)
  | [] => []
  | i :: rest =>
    match i.family with
    | .nop | .goto => units rest
    | .invoke | .filledNewArray =>
      match rest with
      | next :: rest =>
        if next.family = .moveResult then (i,some next) :: units rest else (i,none) :: units (next :: rest)
      | [] => [(i,none)]
    | _ => (i,none) :: units rest

theorem unitsOther {i : Instruction} {rest : List Instruction}
    (other : i.family ≠ .invoke ∧ i.family ≠ .filledNewArray) :
    units (i :: rest) = (if i.family = .nop ∨ i.family = .goto then [] else [(i,none)]) ++ units rest := by
  conv_lhs => unfold units
  split
  · rw [if_pos (.inl ‹_›),List.nil_append]
  · rw [if_pos (.inr ‹_›),List.nil_append]
  · exact absurd ‹_› other.1
  · exact absurd ‹_› other.2
  · rename_i notNop notGoto _ _
    rw [if_neg (not_or.mpr ⟨notNop,notGoto⟩),List.singleton_append]

theorem paramNone (ps : List String) : Instruction.paramRegisters ps [] = [] := by cases ps <;> rfl

theorem paramPlaces {ps : List String} {rs : List Int} {start : Nat}
    (all : (Instruction.paramRegisters ps (rs.drop start)).length = ps.length) :
    (Instruction.paramRegisters ps (rs.drop start)).map some = (lowPlaces start ps).map (rs[·]?) := by
  induction ps generalizing start with
  | nil => rfl
  | cons p ps ih =>
    cases left : rs.drop start with
    | nil =>
      rw [left] at all
      contradiction
    | cons r rest =>
      have here : rs[start]? = some r := by rw [← List.head?_drop,left,List.head?_cons]
      have after : rest.drop (Descriptor.size p - 1) = rs.drop (start + Descriptor.size p) := by
        have wide : 1 ≤ Descriptor.size p := by unfold Descriptor.size; split <;> decide
        rw [← List.drop_drop,left,← Nat.sub_add_cancel wide,List.drop_succ_cons,Nat.add_sub_cancel]
      rw [left,Instruction.paramRegisters,after,List.length_cons,List.length_cons,Nat.succ_inj] at all
      rw [Instruction.paramRegisters,after,lowPlaces,List.map_cons,List.map_cons,here,ih all]

theorem callLow {t t' : VarTable} {i : Instruction} {e : Expr} (family : i.family = .invoke)
    (did : Does (call i) t e t') : ∃ m, i.method = some m ∧
      i.usedRegisters.map some = (callPlaces i.invoke m.params).map (i.regs[·]?) := by
  have used : i.usedRegisters = i.argumentRegisters := by simp only [Instruction.usedRegisters,family]
  rw [call,if_neg (by simp [family])] at did
  split at did
  · exact absurd did didReject
  · rename_i m method
    refine ⟨m,method,?_⟩
    rw [used,callPlaces]
    dsimp only at did
    split at did
    · rename_i static
      rw [if_pos static]
      have given : i.argumentRegisters = Instruction.paramRegisters m.params (i.regs.drop 0) := by
        rw [Instruction.argumentRegisters,method]
        exact if_pos static
      split at did
      · exact absurd did didReject
      · rename_i all
        rw [given] at all ⊢
        exact paramPlaces (Decidable.not_not.mp all)
    · rename_i dynamic
      rw [if_neg dynamic]
      have given : i.argumentRegisters = i.regs.take 1 ++ Instruction.paramRegisters m.params (i.regs.drop 1) := by
        rw [Instruction.argumentRegisters,method]
        exact if_neg dynamic
      split at did
      · exact absurd did didReject
      · rename_i r args listed
        obtain ⟨_,_,-,did⟩ := doesBind.mp did
        split at did
        · exact absurd did didReject
        · rename_i all
          rw [listed]
          rw [given] at listed
          cases regs : i.regs with
          | nil =>
            rw [regs,List.take_nil,List.drop_nil,paramNone] at listed
            contradiction
          | cons q qs =>
            rw [regs] at listed
            obtain ⟨rfl,rfl⟩ := List.cons.inj listed
            have low := @paramPlaces m.params (q :: qs) 1 (Decidable.not_not.mp all)
            exact congrArg (some q :: ·) low

theorem Draws.tells {w : Lowering Action} {i : Instruction} {result : Option Instruction} {t t' : VarTable}
    {a : Action}
    (draws : Draws (result.getD i).definedRegister?.toList i.usedRegisters (·.def?.toList) Action.uses w)
    (low : i.family = .invoke → ∃ m, i.method = some m ∧
      i.usedRegisters.map some = (callPlaces i.invoke m.params).map (i.regs[·]?))
    (did : Does w t a t') : t.Within t' ∧ Tells t' i result a := by
  obtain ⟨grown,defines,reads⟩ := draws t a t' did
  exact ⟨grown,VarTable.Stand.option defines,reads.registers,reads.initial,low⟩

theorem tellsSingle (m : Method) {i : Instruction} (other : i.family ≠ .invoke ∧ i.family ≠ .filledNewArray)
    {t t' : VarTable} {a : Option Action} (did : Does (Lower.single m i) t a t') :
    t.Within t' ∧ List.Forall₂ (fun u a => Tells t' u.1 u.2 a)
      (if i.family = .nop ∨ i.family = .goto then [] else [(i,none)]) a.toList := by
  have low : i.family = .invoke → ∃ m, i.method = some m ∧
      i.usedRegisters.map some = (callPlaces i.invoke m.params).map (i.regs[·]?) := fun family =>
    absurd family other.1
  unfold Lower.single at did
  split at did
  case h_1 | h_2 =>
    rename_i family
    obtain ⟨rfl,rfl⟩ := doesPure.mp did
    rw [if_pos (by simp [family])]
    exact ⟨.refl t',.nil⟩
  case h_3 =>
    rename_i family
    obtain ⟨rfl,rfl⟩ := doesPure.mp did
    rw [if_neg (by simp [family])]
    have none : i.definedRegister? = none := by simp only [Instruction.definedRegister?,family]
    have nothing : i.usedRegisters = [] := by simp only [Instruction.usedRegisters,family]
    refine ⟨.refl t',.cons ⟨?_,?_,nofun,low⟩ .nil⟩
    · exact none ▸ .none
    · exact nothing ▸ .refl _
  case h_4 notNop notGoto _ =>
    rw [if_neg (not_or.mpr ⟨notNop,notGoto⟩)]
    split at did
    · exact absurd did didReject
    · rename_i enough
      obtain ⟨b,t₁,here,last⟩ := doesBind.mp did
      obtain ⟨rfl,rfl⟩ := doesPure.mp last
      obtain ⟨defined,used⟩ := ownRegisters (Nat.le_of_not_lt enough) other
      have draws := Draws.operate m i (i.regs[0]?.getD 0) (i.regs[1]?.getD 0) (i.regs[2]?.getD 0)
      rw [defined,used] at draws
      obtain ⟨grown,tells⟩ := @Draws.tells _ i none _ _ _ draws low here
      exact ⟨grown,.cons tells .nil⟩

theorem Tells.mono {t u : VarTable} {i : Instruction} {result : Option Instruction} {a : Action}
    (tells : Tells t i result a) (more : t.Within u) : Tells u i result a := by
  have stand := (VarTable.Stand.mk tells.uses tells.initial).mono more
  obtain ⟨defines,-,-,low⟩ := tells
  refine ⟨?_,stand.registers,stand.initial,low⟩
  generalize (result.getD i).definedRegister? = r at defines ⊢
  generalize a.def? = v at defines ⊢
  cases defines with
  | some found => exact .some (more _ _ found)
  | none => exact .none

theorem tellsCall {t t₁ u : VarTable} {i : Instruction} {e : Expr}
    (calls : i.family = .invoke ∨ i.family = .filledNewArray) (did : Does (call i) t e t₁) (more : t₁.Within u) :
    Tells u i none (.invoke e) ∧ ∀ (next : Instruction) r rs v, next.family = .moveResult → next.regs = r :: rs →
      u.initial? r = some v → Tells u i (some next) (.assign v e false) := by
  obtain ⟨-,-,reads⟩ := Draws.call i calls t e t₁ did
  have stand := reads.mono more
  have alone : Expr.varsAll [e] = e.vars := List.append_nil e.vars
  have idle : i.definedRegister? = none := by
    rcases calls with family | family <;> simp only [Instruction.definedRegister?,family]
  have low := fun family => callLow family did
  refine ⟨⟨?_,?_,?_,low⟩,fun next r rs v family regs found => ⟨?_,?_,?_,low⟩⟩
  · exact idle ▸ .none
  · exact (congrArg (List.map _) alone) ▸ stand.registers
  · exact fun v member => stand.initial v (alone ▸ member)
  · have defined : next.definedRegister? = some r := by
      simp only [Instruction.definedRegister?,family,regs,List.head?_cons]
    exact defined ▸ .some found
  · exact (congrArg (List.map _) alone) ▸ stand.registers
  · exact fun v member => stand.initial v (alone ▸ member)

theorem tellsActions (m : Method) (is : List Instruction) {t t' : VarTable} {as : List Action}
    (did : Does (Lower.actions m is) t as t') :
    List.Forall₂ (fun u a => Tells t' u.1 u.2 a) (units is) as := by
  have grows : ∀ {is : List Instruction} {t as}, Does (Lower.actions m is) t as t' → t.Within t' := fun did =>
    (Settles.ofMade (Made.actions m _) _ _ _ did).1
  induction is using Lower.actions.induct generalizing t as with
  | case1 =>
    obtain ⟨rfl,rfl⟩ := doesPure.mp did
    exact .nil
  | case2 i rest family ih | case3 i rest family ih =>
    unfold Lower.actions at did
    unfold units
    simp only [family] at did ⊢
    obtain ⟨e,t₁,called,did⟩ := doesBind.mp did
    cases rest with
    | nil =>
      obtain ⟨rfl,rfl⟩ := doesPure.mp did
      exact .cons (tellsCall (by simp [family]) called (.refl t')).1 .nil
    | cons next rest =>
      dsimp only at did ih ⊢
      split at did
      · rename_i result
        rw [if_pos result]
        split at did
        · exact absurd did didReject
        · rename_i r rs regs
          obtain ⟨v,t₂,made,did⟩ := doesBind.mp did
          obtain ⟨more,t₃,later,last⟩ := doesBind.mp did
          obtain ⟨rfl,rfl⟩ := doesPure.mp last
          obtain ⟨rfl,rfl⟩ := Prod.mk.inj (Except.ok.inj made)
          have found := grows later r _ (t₁.initialRegister r)
          have tells := tellsCall (by simp [family]) called ((t₁.withinRegister r).trans (grows later))
          exact .cons (tells.2 next r rs _ result regs found) (ih.1 later)
      · rename_i other
        rw [if_neg other]
        obtain ⟨more,t₃,later,last⟩ := doesBind.mp did
        obtain ⟨rfl,rfl⟩ := doesPure.mp last
        exact .cons (tellsCall (by simp [family]) called (grows later)).1 (ih.2 later)
  | case4 i rest family =>
    unfold Lower.actions at did
    simp only [family] at did
    exact absurd did didReject
  | case5 i rest notCall notArray notResult ih =>
    unfold Lower.actions at did
    split at did
    · exact absurd ‹_› notCall
    · exact absurd ‹_› notArray
    · exact absurd ‹_› notResult
    · obtain ⟨a,t₁,here,did⟩ := doesBind.mp did
      obtain ⟨more,t₂,later,last⟩ := doesBind.mp did
      obtain ⟨rfl,rfl⟩ := doesPure.mp last
      obtain ⟨-,tells⟩ := tellsSingle m ⟨notCall,notArray⟩ here
      rw [unitsOther ⟨notCall,notArray⟩]
      exact List.rel_append (tells.imp fun _ _ tells => tells.mono (grows later)) (ih later)

theorem foldConstructorsOne (s : Stmt) : Stmt.foldConstructors [s] = [s] := by
  unfold Stmt.foldConstructors Stmt.foldConstructorsFrom
  split <;> rfl

/-- Lowering agrees with what the instructions of a block define and read. Each instruction but idle ones and
jumps, a call together with the result after it, leaves one statement; that defines the variable of the register
that the instruction defines, or none where it defines none, and reads the variables of exactly the registers that
the instruction reads, wide arguments by their low registers. In the end constructor calls are joined to their
allocations, which a statement alone has no part in. -/
theorem registersAgree (m : Method) (insts : List Instruction) (t : VarTable) (ss : List Stmt) (t' : VarTable)
    (lowered : (Lower.block m insts).run t = .ok (ss,t')) :
    ∃ as : List Action, List.Forall₂ (fun u a => Tells t' u.1 u.2 a) (units insts) as ∧
      ss = Stmt.foldConstructors (as.map fun a => ⟨0,a⟩) ∧ ∀ a, as = [a] → ss = [⟨0,a⟩] := by
  obtain ⟨as,t₁,did,last⟩ := doesBind.mp (show Does (Lower.block m insts) t ss t' from lowered)
  obtain ⟨rfl,rfl⟩ := doesPure.mp last
  refine ⟨as,tellsActions m insts did,rfl,?_⟩
  rintro a rfl
  exact foldConstructorsOne _

def storesLong : Method where
  owner := "LTest;"
  name := "g"
  descriptor := "()V"
  access := ⟨9⟩
  registers := 6
  index := 0
  line := 0
  code := [
    { family := .nop },
    { family := .invoke, regs := [4,2,3,1], method := some ⟨"LTest;","f",["J","I"],"I"⟩ },
    { family := .moveResult, regs := [0] },
    { family := .aput, regs := [0,5,1] }]
  tries := []
  overlaps := []

theorem registersAgreeLong : ∃ ss t', (block storesLong storesLong.code).run .empty = .ok (ss,t') ∧
    ss.map (·.uses.length) = [3,3] ∧
    ∃ as : List Action, List.Forall₂ (fun u a => Tells t' u.1 u.2 a) (units storesLong.code) as ∧
      ss = Stmt.foldConstructors (as.map fun a => ⟨0,a⟩) ∧ ∀ a, as = [a] → ss = [⟨0,a⟩] :=
  ⟨_,_,rfl,rfl,registersAgree storesLong storesLong.code .empty _ _ rfl⟩

end Lower

end RegCode
