import RegCode.Proofs.Recovery.Strokes

/-! Declarations and the scopes of their variables. A declaration is known to what comes behind it in the same
sequence, and inside of that. -/
namespace RegCode

namespace Stmt

def declared? (s : Stmt) : Option VarId :=
  match s.act with
  | .assign v _ true | .declare v => some v
  | _ => none

def needed (s : Stmt) : List VarId :=
  s.uses ++ match s.act with
    | .assign v _ false => [v]
    | _ => []

def declaredBy (ss : List Stmt) : List VarId := ss.filterMap declared?

def neededBy : List Stmt → List VarId
  | [] => []
  | s :: ss => s.needed ++ (neededBy ss).filter (s.declared? != some ·)

end Stmt

def readBy (e : Option Expr) : List VarId := (e.map Expr.vars).getD []

namespace Tree

variable {α β : Type}

def declared : Tree α → List VarId
  | stmts _ _ ss => Stmt.declaredBy ss
  | _ => []

def declaredWithin (ts : List (Tree α)) : List VarId := (partsAll ts).flatMap declared

mutual

def inScope (peeks : Bool) (known : List VarId) : Tree α → Bool
  | block _ body => inScopeAll peeks known body
  | stmts _ _ ss => (Stmt.neededBy ss).all known.contains
  | branch _ _ c a none => (readBy c.toExpr).all known.contains && inScopeAll peeks known a
  | branch _ _ c a (some b) =>
    (readBy c.toExpr).all known.contains && (inScopeAll peeks known a && inScopeAll peeks known b)
  | loop _ kind _ _ c body =>
    ((readBy (c.map Test.toExpr)).all fun v =>
      known.contains v || (peeks && kind == .posttest && (declaredWithin body).contains v)) &&
        inScopeAll peeks known body
  | switch _ _ v arms => (readBy v).all known.contains && inScopeArms peeks known arms
  | guarded _ _ body cs none => inScopeAll peeks known body && inScopeCatches peeks known cs
  | guarded _ _ body cs (some z) =>
    inScopeAll peeks known body && (inScopeCatches peeks known cs && inScopeAll peeks known z)
  | goto _ _ | breakTo _ _ | continueTo _ _ => true

def inScopeAll (peeks : Bool) (known : List VarId) : List (Tree α) → Bool
  | [] => true
  | t :: ts => inScope peeks known t && inScopeAll peeks (t.declared ++ known) ts

def inScopeArms (peeks : Bool) (known : List VarId) : List (ArmHead × List (Tree α)) → Bool
  | [] => true
  | (_,body) :: rest => inScopeAll peeks known body && inScopeArms peeks known rest

def inScopeCatches (peeks : Bool) (known : List VarId) : List (CatchHead × List (Tree α)) → Bool
  | [] => true
  | (h,body) :: rest => inScopeAll peeks (h.var.toList ++ known) body && inScopeCatches peeks known rest

end

theorem allKnown {vs known : List VarId} : vs.all known.contains = true ↔ ∀ v ∈ vs, v ∈ known := by simp

theorem knownMore {vs known more : List VarId} (holds : vs.all known.contains = true) (le : known ⊆ more) :
    vs.all more.contains = true := allKnown.mpr fun v member => le (allKnown.mp holds v member)

mutual

theorem inScopeMore {peeks : Bool} : (t : Tree α) → {known more : List VarId} → known ⊆ more →
    inScope peeks known t = true → inScope peeks more t = true
  | block _ body, _, _, le, holds => by
    rw [inScope] at holds ⊢
    exact inScopeMoreAll body le holds
  | stmts _ _ ss, _, _, le, holds => by
    rw [inScope] at holds ⊢
    exact knownMore holds le
  | branch _ _ c a none, _, _, le, holds => by
    rw [inScope,Bool.and_eq_true] at holds ⊢
    exact ⟨knownMore holds.1 le,inScopeMoreAll a le holds.2⟩
  | branch _ _ c a (some b), _, _, le, holds => by
    simp only [inScope,Bool.and_eq_true] at holds ⊢
    exact ⟨knownMore holds.1 le,inScopeMoreAll a le holds.2.1,inScopeMoreAll b le holds.2.2⟩
  | loop _ kind _ _ c body, known, more, le, holds => by
    rw [inScope,Bool.and_eq_true,List.all_eq_true] at holds ⊢
    refine ⟨fun v member => ?_,inScopeMoreAll body le holds.2⟩
    have here := holds.1 v member
    simp only [Bool.or_eq_true,List.contains_iff_mem] at here ⊢
    exact here.imp (@le v) id
  | switch _ _ v arms, _, _, le, holds => by
    rw [inScope,Bool.and_eq_true] at holds ⊢
    exact ⟨knownMore holds.1 le,inScopeMoreArms arms le holds.2⟩
  | guarded _ _ body cs none, _, _, le, holds => by
    rw [inScope,Bool.and_eq_true] at holds ⊢
    exact ⟨inScopeMoreAll body le holds.1,inScopeMoreCatches cs le holds.2⟩
  | guarded _ _ body cs (some z), _, _, le, holds => by
    simp only [inScope,Bool.and_eq_true] at holds ⊢
    exact ⟨inScopeMoreAll body le holds.1,inScopeMoreCatches cs le holds.2.1,inScopeMoreAll z le holds.2.2⟩
  | goto _ _, _, _, _, _ | breakTo _ _, _, _, _, _ | continueTo _ _, _, _, _, _ => by rw [inScope]

theorem inScopeMoreAll {peeks : Bool} : (ts : List (Tree α)) → {known more : List VarId} → known ⊆ more →
    inScopeAll peeks known ts = true → inScopeAll peeks more ts = true
  | [], _, _, _, _ => by rw [inScopeAll]
  | t :: ts, known, more, le, holds => by
    rw [inScopeAll,Bool.and_eq_true] at holds ⊢
    refine ⟨inScopeMore t le holds.1,inScopeMoreAll ts ?_ holds.2⟩
    exact List.append_subset.mpr ⟨List.subset_append_left _ _,List.Subset.trans le (List.subset_append_right _ _)⟩

theorem inScopeMoreArms {peeks : Bool} : (arms : List (ArmHead × List (Tree α))) → {known more : List VarId} →
    known ⊆ more → inScopeArms peeks known arms = true → inScopeArms peeks more arms = true
  | [], _, _, _, _ => by rw [inScopeArms]
  | (h,body) :: rest, _, _, le, holds => by
    rw [inScopeArms,Bool.and_eq_true] at holds ⊢
    exact ⟨inScopeMoreAll body le holds.1,inScopeMoreArms rest le holds.2⟩

theorem inScopeMoreCatches {peeks : Bool} : (cs : List (CatchHead × List (Tree α))) → {known more : List VarId} →
    known ⊆ more → inScopeCatches peeks known cs = true → inScopeCatches peeks more cs = true
  | [], _, _, _, _ => by rw [inScopeCatches]
  | (h,body) :: rest, known, more, le, holds => by
    rw [inScopeCatches,Bool.and_eq_true] at holds ⊢
    refine ⟨inScopeMoreAll body ?_ holds.1,inScopeMoreCatches rest le holds.2⟩
    exact List.append_subset.mpr ⟨List.subset_append_left _ _,List.Subset.trans le (List.subset_append_right _ _)⟩

end

theorem inScopeAppend {peeks : Bool} {known : List VarId} {ts us : List (Tree α)}
    (first : inScopeAll peeks known ts = true) (second : inScopeAll peeks known us = true) :
    inScopeAll peeks known (ts ++ us) = true := by
  induction ts generalizing known with
  | nil => exact second
  | cons t ts ih =>
    rw [inScopeAll,Bool.and_eq_true] at first
    rw [List.cons_append,inScopeAll,Bool.and_eq_true]
    exact ⟨first.1,ih first.2 (inScopeMoreAll us (List.subset_append_right _ _) second)⟩

theorem inScopeFront {peeks : Bool} {known : List VarId} {ts us : List (Tree α)}
    (whole : inScopeAll peeks known (ts ++ us) = true) : inScopeAll peeks known ts = true := by
  induction ts generalizing known with
  | nil => rw [inScopeAll]
  | cons t ts ih =>
    rw [List.cons_append,inScopeAll,Bool.and_eq_true] at whole
    rw [inScopeAll,Bool.and_eq_true]
    exact ⟨whole.1,ih whole.2⟩

def endsClear : Tree α → Bool
  | loop _ .posttest _ _ c body =>
    (readBy (c.map Test.toExpr)).all fun v => !(declaredWithin body).contains v
  | _ => true

mutual

theorem inScopeClear : (t : Tree α) → {known : List VarId} → (∀ u ∈ t.parts, u.endsClear = true) →
    inScope true known t = true → inScope false known t = true
  | block _ body, _, clear, holds => by
    rw [parts] at clear
    rw [inScope] at holds ⊢
    exact inScopeClearAll body (List.forall_mem_cons.mp clear).2 holds
  | stmts _ _ ss, _, clear, holds => by
    rw [inScope] at holds ⊢
    exact holds
  | branch _ _ c a none, _, clear, holds => by
    rw [parts] at clear
    rw [inScope,Bool.and_eq_true] at holds ⊢
    exact ⟨holds.1,inScopeClearAll a (List.forall_mem_cons.mp clear).2 holds.2⟩
  | branch _ _ c a (some b), _, clear, holds => by
    rw [parts] at clear
    obtain ⟨inA,inB⟩ := List.forall_mem_append.mp (List.forall_mem_cons.mp clear).2
    simp only [inScope,Bool.and_eq_true] at holds ⊢
    exact ⟨holds.1,inScopeClearAll a inA holds.2.1,inScopeClearAll b inB holds.2.2⟩
  | loop l kind n h c body, known, clear, holds => by
    rw [parts] at clear
    obtain ⟨own,inner⟩ := List.forall_mem_cons.mp clear
    rw [inScope,Bool.and_eq_true,List.all_eq_true] at holds ⊢
    refine ⟨fun v member => ?_,inScopeClearAll body inner holds.2⟩
    have here := holds.1 v member
    simp only [Bool.or_eq_true,Bool.and_eq_true,Bool.false_and,Bool.false_eq_true,or_false,true_and,
      beq_iff_eq] at here ⊢
    refine here.resolve_right fun ⟨kind,peeked⟩ => ?_
    subst kind
    rw [endsClear,List.all_eq_true] at own
    have unread := own v member
    rw [peeked] at unread
    contradiction
  | switch _ _ v arms, _, clear, holds => by
    rw [parts] at clear
    rw [inScope,Bool.and_eq_true] at holds ⊢
    exact ⟨holds.1,inScopeClearArms arms (List.forall_mem_cons.mp clear).2 holds.2⟩
  | guarded _ _ body cs none, _, clear, holds => by
    rw [parts] at clear
    obtain ⟨inBody,inCatches⟩ := List.forall_mem_append.mp (List.forall_mem_cons.mp clear).2
    rw [inScope,Bool.and_eq_true] at holds ⊢
    exact ⟨inScopeClearAll body inBody holds.1,inScopeClearCatches cs inCatches holds.2⟩
  | guarded _ _ body cs (some z), _, clear, holds => by
    rw [parts] at clear
    obtain ⟨inBody,rest⟩ := List.forall_mem_append.mp (List.forall_mem_cons.mp clear).2
    obtain ⟨inCatches,inLast⟩ := List.forall_mem_append.mp rest
    simp only [inScope,Bool.and_eq_true] at holds ⊢
    exact ⟨inScopeClearAll body inBody holds.1,inScopeClearCatches cs inCatches holds.2.1,
      inScopeClearAll z inLast holds.2.2⟩
  | goto _ _, _, _, _ | breakTo _ _, _, _, _ | continueTo _ _, _, _, _ => by rw [inScope]

theorem inScopeClearAll : (ts : List (Tree α)) → {known : List VarId} →
    (∀ u ∈ partsAll ts, u.endsClear = true) → inScopeAll true known ts = true → inScopeAll false known ts = true
  | [], _, _, _ => by rw [inScopeAll]
  | t :: ts, _, clear, holds => by
    rw [partsAll] at clear
    obtain ⟨here,later⟩ := List.forall_mem_append.mp clear
    rw [inScopeAll,Bool.and_eq_true] at holds ⊢
    exact ⟨inScopeClear t here holds.1,inScopeClearAll ts later holds.2⟩

theorem inScopeClearArms : (arms : List (ArmHead × List (Tree α))) → {known : List VarId} →
    (∀ u ∈ partsArms arms, u.endsClear = true) → inScopeArms true known arms = true →
      inScopeArms false known arms = true
  | [], _, _, _ => by rw [inScopeArms]
  | (h,body) :: rest, _, clear, holds => by
    rw [partsArms] at clear
    obtain ⟨here,later⟩ := List.forall_mem_append.mp clear
    rw [inScopeArms,Bool.and_eq_true] at holds ⊢
    exact ⟨inScopeClearAll body here holds.1,inScopeClearArms rest later holds.2⟩

theorem inScopeClearCatches : (cs : List (CatchHead × List (Tree α))) → {known : List VarId} →
    (∀ u ∈ partsCatches cs, u.endsClear = true) → inScopeCatches true known cs = true →
      inScopeCatches false known cs = true
  | [], _, _, _ => by rw [inScopeCatches]
  | (h,body) :: rest, _, clear, holds => by
    rw [partsCatches] at clear
    obtain ⟨here,later⟩ := List.forall_mem_append.mp clear
    rw [inScopeCatches,Bool.and_eq_true] at holds ⊢
    exact ⟨inScopeClearAll body here holds.1,inScopeClearCatches rest later holds.2⟩

end

section
variable (f : α → β)

theorem declaredRelabel (t : Tree α) : (t.relabel f).declared = t.declared := by
  cases t with
  | branch _ _ _ _ b => cases b <;> rfl
  | guarded _ _ _ _ z => cases z <;> rfl
  | _ => rfl

theorem declaredWithinRelabel (ts : List (Tree α)) : declaredWithin (relabelAll f ts) = declaredWithin ts := by
  rw [declaredWithin,partsRelabelAll,List.flatMap_map]
  simp only [declaredRelabel]
  rfl

mutual

theorem inScopeRelabel {peeks : Bool} : (t : Tree α) → (known : List VarId) →
    inScope peeks known (t.relabel f) = inScope peeks known t
  | block _ body, known => by rw [relabel,inScope,inScope,inScopeRelabelAll body known]
  | stmts _ _ _, _ => by rw [relabel,inScope,inScope]
  | branch _ _ _ a none, known => by rw [relabel,inScope,inScope,inScopeRelabelAll a known]
  | branch _ _ _ a (some b), known => by
    rw [relabel,inScope,inScope,inScopeRelabelAll a known,inScopeRelabelAll b known]
  | loop _ _ _ _ _ body, known => by
    rw [relabel,inScope,inScope,inScopeRelabelAll body known,declaredWithinRelabel]
  | switch _ _ _ arms, known => by rw [relabel,inScope,inScope,inScopeRelabelArms arms known]
  | guarded _ _ body cs none, known => by
    rw [relabel,inScope,inScope,inScopeRelabelAll body known,inScopeRelabelCatches cs known]
  | guarded _ _ body cs (some z), known => by
    rw [relabel,inScope,inScope,inScopeRelabelAll body known,inScopeRelabelCatches cs known,
      inScopeRelabelAll z known]
  | goto _ _, _ | breakTo _ _, _ | continueTo _ _, _ => by rw [relabel,inScope,inScope]

theorem inScopeRelabelAll {peeks : Bool} : (ts : List (Tree α)) → (known : List VarId) →
    inScopeAll peeks known (relabelAll f ts) = inScopeAll peeks known ts
  | [], _ => by rw [relabelAll,inScopeAll,inScopeAll]
  | t :: ts, known => by
    rw [relabelAll,inScopeAll,inScopeAll,inScopeRelabel t known,declaredRelabel,
      inScopeRelabelAll ts (t.declared ++ known)]

theorem inScopeRelabelArms {peeks : Bool} : (arms : List (ArmHead × List (Tree α))) → (known : List VarId) →
    inScopeArms peeks known (relabelArms f arms) = inScopeArms peeks known arms
  | [], _ => by rw [relabelArms,inScopeArms,inScopeArms]
  | (h,body) :: rest, known => by
    rw [relabelArms,inScopeArms,inScopeArms,inScopeRelabelAll body known,inScopeRelabelArms rest known]

theorem inScopeRelabelCatches {peeks : Bool} : (cs : List (CatchHead × List (Tree α))) → (known : List VarId) →
    inScopeCatches peeks known (relabelCatches f cs) = inScopeCatches peeks known cs
  | [], _ => by rw [relabelCatches,inScopeCatches,inScopeCatches]
  | (h,body) :: rest, known => by
    rw [relabelCatches,inScopeCatches,inScopeCatches,inScopeRelabelAll body (h.var.toList ++ known),
      inScopeRelabelCatches rest known]

end

end

end Tree

end RegCode
