import RegCode.Proofs.Dominance.Tree
import RegCode.Proofs.Flow.Finishing

/-! The variables of a graph as it is made from a method. Lowering only adds variables behind those that
there are, and defines none without adding it, so that the graph has all that passes over its statements ask for. -/
namespace RegCode

namespace VarTable

variable {t u w : VarTable}

def Extends (t u : VarTable) : Prop := ∃ new, u.vars = t.vars ++ new

theorem Extends.refl (t : VarTable) : t.Extends t := ⟨#[],by simp⟩

theorem Extends.trans (first : t.Extends u) (second : u.Extends w) : t.Extends w := by
  obtain ⟨new,here⟩ := first
  obtain ⟨more,there⟩ := second
  exact ⟨new ++ more,by rw [there,here,Array.append_assoc]⟩

theorem Extends.size (grown : t.Extends u) : t.size ≤ u.size := by
  obtain ⟨new,here⟩ := grown
  simp [VarTable.size,here]

theorem Extends.get (grown : t.Extends u) {v : VarId} (inside : v < t.size) : u.get v = t.get v := by
  obtain ⟨new,here⟩ := grown
  rw [VarTable.get,VarTable.get,here,Array.getElem?_append_left inside]

theorem extendsPush (t : VarTable) (x : Variable) : t.Extends (t.push x).1 := ⟨#[x],by simp [push]⟩

theorem extendsFresh (t : VarTable) (v : VarId) : t.Extends (t.fresh v).1 := t.extendsPush _

theorem extendsRegister (t : VarTable) (r : Int) :
    t.Extends (t.register r).1 ∧ (t.register r).2 < (t.register r).1.size := by
  unfold register
  split
  · rename_i v found
    exact ⟨.refl t,(Array.findIdx?_eq_some_iff_getElem.mp found).1⟩
  · exact ⟨t.extendsPush _,by simp [push,size]⟩

def Registers (t u : VarTable) : Prop := ∃ rs : List Int, u = rs.foldl (fun t r => (t.register r).1) t

theorem Registers.refl (t : VarTable) : t.Registers t := ⟨[],rfl⟩

theorem Registers.one (t : VarTable) (r : Int) : t.Registers (t.register r).1 := ⟨[r],rfl⟩

theorem Registers.trans (first : t.Registers u) (second : u.Registers w) : t.Registers w := by
  obtain ⟨rs,rfl⟩ := first
  obtain ⟨qs,rfl⟩ := second
  exact ⟨rs ++ qs,List.foldl_append.symm⟩

theorem Registers.keeps {P : VarTable → Prop} (adds : ∀ t r, P t → P (t.register r).1) (grown : t.Registers u)
    (start : P t) : P u := by
  obtain ⟨rs,rfl⟩ := grown
  exact List.foldlRecOn rs _ (motive := P) start fun t holds r _ => adds t r holds

theorem Registers.extends (grown : t.Registers u) : t.Extends u :=
  grown.keeps (fun w r more => more.trans (w.extendsRegister r).1) (.refl t)

end VarTable

/-! ### Lowering -/

namespace Stmt

variable {v : VarId} {s : Stmt}

theorem takeAllocationFrom {owner : String} {args : List Expr} {done left : List (Option Stmt)}
    (took : takeAllocation? v owner args done = some left) :
    (∃ r, some r ∈ done ∧ r.def? = some v) ∧ ∀ s, some s ∈ left → some s ∈ done := by
  induction done generalizing left with
  | nil => contradiction
  | cons p done ih =>
    have more : ∀ {left}, (takeAllocation? v owner args done).map (p :: ·) = some left →
        (∃ r, some r ∈ p :: done ∧ r.def? = some v) ∧ ∀ s, some s ∈ left → some s ∈ p :: done := by
      intro left took
      obtain ⟨rest,under,rfl⟩ := Option.map_eq_some_iff.mp took
      obtain ⟨⟨r,old,defines⟩,kept⟩ := ih under
      refine ⟨⟨r,List.mem_cons_of_mem p old,defines⟩,fun s member => ?_⟩
      rcases List.mem_cons.mp member with same | member
      · exact same ▸ List.mem_cons_self ..
      · exact List.mem_cons_of_mem p (kept s member)
    unfold takeAllocation? at took
    split at took
    · rename_i w value declares assigns
      obtain ⟨r,rfl,act⟩ := Option.map_eq_some_iff.mp assigns
      split at took
      · rename_i same
        split at took
        · cases Option.some.inj took
          refine ⟨⟨r,List.mem_cons_self ..,by rw [def?,act,Action.def?,same]⟩,fun s member => ?_⟩
          exact List.mem_cons_of_mem _ ((List.mem_cons.mp member).resolve_left (by simp))
        · contradiction
      · split at took
        · contradiction
        · exact more took
    · split at took
      · contradiction
      · exact more took

/-- A statement that is left is one of those, or the one that a constructor call has become. -/
theorem foldConstructorsMem {ss : List Stmt} (member : s ∈ foldConstructors ss) : s ∈ ss ∨
    ∃ t ∈ ss, ∃ v owner args, t.constructorCall? = some (v,owner,args) ∧
      s = ⟨0,.assign v (.newObject owner args true) false⟩ := by
  have all : ∀ (ss : List Stmt) (done : List (Option Stmt)), some s ∈ foldConstructorsFrom done ss →
      some s ∈ done ∨ s ∈ ss ∨ ∃ t ∈ ss, ∃ v owner args, t.constructorCall? = some (v,owner,args) ∧
        s = ⟨0,.assign v (.newObject owner args true) false⟩ := by
    intro ss
    induction ss with
    | nil => exact fun done member => .inl member
    | cons t ss ih =>
      intro done member
      have next : ∀ {done'}, some s ∈ foldConstructorsFrom done' ss → some s ∈ done' ∨ s ∈ t :: ss ∨
          ∃ u ∈ t :: ss, ∃ v owner args, u.constructorCall? = some (v,owner,args) ∧
            s = ⟨0,.assign v (.newObject owner args true) false⟩ := fun member =>
        (ih _ member).imp_right fun later => later.imp (List.mem_cons_of_mem t) fun ⟨u,there,call⟩ =>
          ⟨u,List.mem_cons_of_mem t there,call⟩
      have kept : some s ∈ foldConstructorsFrom (some t :: done) ss → some s ∈ done ∨ s ∈ t :: ss ∨
          ∃ u ∈ t :: ss, ∃ v owner args, u.constructorCall? = some (v,owner,args) ∧
            s = ⟨0,.assign v (.newObject owner args true) false⟩ := fun member => by
        rcases next member with here | later
        · rcases List.mem_cons.mp here with same | old
          · exact .inr (.inl (Option.some.inj same ▸ List.mem_cons_self ..))
          · exact .inl old
        · exact .inr later
      unfold foldConstructorsFrom at member
      split at member
      · exact kept member
      · rename_i v owner args call
        split at member
        · rename_i took
          rcases next member with here | later
          · rcases List.mem_cons.mp here with same | old
            · exact .inr (.inr ⟨t,List.mem_cons_self ..,v,owner,args,call,Option.some.inj same⟩)
            · exact .inl ((takeAllocationFrom took).2 s old)
          · exact .inr later
        · exact kept member
  have listed : some s ∈ foldConstructorsFrom [] ss := by simpa [foldConstructors] using member
  exact (all ss [] listed).resolve_left List.not_mem_nil

theorem foldConstructorsDef {ss : List Stmt} (member : s ∈ foldConstructors ss) (defines : s.def? = some v) :
    ∃ r ∈ ss, r.def? = some v := by
  have all : ∀ (ss : List Stmt) (done : List (Option Stmt)), some s ∈ foldConstructorsFrom done ss →
      (∃ r, some r ∈ done ∧ r.def? = some v) ∨ ∃ r ∈ ss, r.def? = some v := by
    intro ss
    induction ss with
    | nil => exact fun done member => .inl ⟨s,member,defines⟩
    | cons t ss ih =>
      intro done member
      have next : ∀ {done'}, some s ∈ foldConstructorsFrom done' ss →
          (∀ r, some r ∈ done' → r.def? = some v → (∃ r, some r ∈ done ∧ r.def? = some v) ∨ t.def? = some v) →
          (∃ r, some r ∈ done ∧ r.def? = some v) ∨ ∃ r ∈ t :: ss, r.def? = some v := by
        intro done' member back
        rcases ih done' member with ⟨r,here,own⟩ | ⟨r,later,own⟩
        · exact (back r here own).imp_right fun first => ⟨t,List.mem_cons_self ..,first⟩
        · exact .inr ⟨r,List.mem_cons_of_mem t later,own⟩
      have kept : some s ∈ foldConstructorsFrom (some t :: done) ss →
          (∃ r, some r ∈ done ∧ r.def? = some v) ∨ ∃ r ∈ t :: ss, r.def? = some v := fun member =>
        next member fun r here own => by
          rcases List.mem_cons.mp here with same | old
          · exact .inr (Option.some.inj same ▸ own)
          · exact .inl ⟨r,old,own⟩
      unfold foldConstructorsFrom at member
      split at member
      · exact kept member
      · split at member
        · rename_i w owner args call left took
          obtain ⟨assigned,old⟩ := takeAllocationFrom took
          refine next member fun r here own => .inl ?_
          rcases List.mem_cons.mp here with same | here
          · -- The constructor call assigns what the allocation has assigned.
            cases Option.some.inj same
            cases own
            exact assigned
          · exact ⟨r,old r here,own⟩
        · exact kept member
  have listed : some s ∈ foldConstructorsFrom [] ss := by simpa [foldConstructors] using member
  refine (all ss [] listed).resolve_left fun before => ?_
  obtain ⟨r,here,-⟩ := before
  exact List.not_mem_nil here

end Stmt

namespace Lower

variable {α β : Type}

def Adds (d : α → List VarId) (w : Lowering α) : Prop :=
  ∀ t a t', Does w t a t' → t.Registers t' ∧ ∀ v ∈ d a, v < t'.size

namespace Adds

variable {d : α → List VarId} {d' : β → List VarId}

theorem pure {a : α} (none : d a = []) : Adds d (Pure.pure a : Lowering α) := by
  intro t b t' did
  obtain ⟨rfl,rfl⟩ := doesPure.mp did
  exact ⟨.refl t',by simp [none]⟩

theorem bind {w : Lowering α} {k : α → Lowering β} (first : Adds d w) (second : ∀ a, Adds d' (k a)) :
    Adds d' (w >>= k) := by
  intro t b t' did
  obtain ⟨a,t₁,here,rest⟩ := doesBind.mp did
  obtain ⟨grown,known⟩ := second a t₁ b t' rest
  exact ⟨(first t a t₁ here).1.trans grown,known⟩

theorem join {γ : Type} {d₂ : γ → List VarId} {w : Lowering α} {x : Lowering β} {f : α → β → γ} (first : Adds d w)
    (second : Adds d' x) (parts : ∀ a b, ∀ v ∈ d₂ (f a b), v ∈ d a ∨ v ∈ d' b) :
    Adds d₂ (w >>= fun a => x >>= fun b => Pure.pure (f a b)) := by
  intro t c t' did
  obtain ⟨a,t₁,here,rest⟩ := doesBind.mp did
  obtain ⟨b,t₂,there,last⟩ := doesBind.mp rest
  obtain ⟨rfl,rfl⟩ := doesPure.mp last
  obtain ⟨grown,known⟩ := first t a t₁ here
  obtain ⟨grown',known'⟩ := second t₁ b t' there
  refine ⟨grown.trans grown',fun v member => ?_⟩
  rcases parts a b v member with old | new
  · exact Nat.lt_of_lt_of_le (known v old) grown'.extends.size
  · exact known' v new

theorem reject (i : Instruction) (cause : LowerCause) : Adds d (Lower.reject i cause : Lowering α) :=
  fun _ _ _ did => absurd did didReject

theorem varOf (r : Int) : Adds (fun v => [v]) (Lower.varOf r) := by
  intro t v t' did
  obtain ⟨rfl,rfl⟩ := Prod.mk.inj (Except.ok.inj did)
  obtain ⟨-,inside⟩ := t.extendsRegister r
  exact ⟨.one t r,fun v member => List.mem_singleton.mp member ▸ inside⟩

theorem read (r : Int) : Adds (fun _ => []) (Lower.read r) := bind (varOf r) fun _ => pure rfl

theorem readAll (rs : List Int) : Adds (fun _ => []) (Lower.readAll rs) := by
  induction rs with
  | nil => exact pure rfl
  | cons r rs ih => exact bind (read r) fun _ => bind ih fun _ => pure rfl

theorem assign (r : Int) {value : Lowering Expr} (adds : Adds (fun _ => []) value) :
    Adds (·.def?.toList) (Lower.assign r value) :=
  join (varOf r) adds fun v e x member => .inl (by simpa [Action.def?] using member)

theorem fieldOf (i : Instruction) : Adds (fun _ => []) (Lower.fieldOf i) := by
  unfold Lower.fieldOf
  split
  · exact pure rfl
  · exact reject i _

theorem call (i : Instruction) : Adds (fun _ => []) (Lower.call i) := by
  unfold Lower.call
  split
  · exact bind (readAll _) fun _ => pure rfl
  · split
    · exact reject i _
    · dsimp only
      split
      · split
        · exact reject i _
        · exact bind (readAll _) fun _ => pure rfl
      · split
        · exact reject i _
        · refine bind (read _) fun _ => ?_
          split
          · exact reject i _
          · exact bind (readAll _) fun _ => pure rfl

theorem operate (m : Method) (i : Instruction) (a b c : Int) : Adds (·.def?.toList) (Lower.operate m i a b c) := by
  have one : ∀ {γ : Type} {d : γ → List VarId} r (f : Expr → γ), (∀ e, d (f e) = []) →
      Adds d (do return f (← Lower.read r)) := fun r f none => bind (read r) fun e => pure (none e)
  have two : ∀ {γ : Type} {d : γ → List VarId} q r (f : Expr → Expr → γ), (∀ e e', d (f e e') = []) →
      Adds d (do let l ← Lower.read q; let e ← Lower.read r; Pure.pure (f l e)) :=
    fun q r f none => bind (read q) fun e => one r _ (none e)
  unfold Lower.operate
  split
  case h_1 => exact assign _ (read _)
  case h_2 | h_4 | h_5 | h_6 | h_7 | h_13 => exact assign _ (pure rfl)
  case h_3 | h_8 | h_9 | h_15 | h_16 | h_17 | h_18 | h_21 => exact one _ _ fun _ => rfl
  case h_10 | h_11 | h_12 | h_14 | h_28 | h_29 | h_31 => exact assign _ (one _ _ fun _ => rfl)
  case h_19 | h_22 => exact assign _ (two _ _ _ fun _ _ => rfl)
  case h_20 => exact two _ _ _ fun _ _ => rfl
  case h_23 => exact bind (read _) fun _ => two _ _ _ fun _ _ => rfl
  case h_24 => exact bind (fieldOf i) fun _ => assign _ (one _ _ fun _ => rfl)
  case h_25 => exact bind (fieldOf i) fun _ => two _ _ _ fun _ _ => rfl
  case h_26 => exact bind (fieldOf i) fun _ => assign _ (pure rfl)
  case h_27 => exact bind (fieldOf i) fun _ => one _ _ fun _ => rfl
  case h_30 => exact assign _ (two _ _ _ fun _ _ => rfl)
  case h_32 => exact reject i _

theorem single (m : Method) (i : Instruction) : Adds (fun a => (a.bind Action.def?).toList) (Lower.single m i) := by
  unfold Lower.single
  split
  · exact pure rfl
  · exact pure rfl
  · exact pure rfl
  · split
    · exact reject i _
    · intro t a t' did
      obtain ⟨x,t₁,here,last⟩ := doesBind.mp did
      obtain ⟨rfl,rfl⟩ := doesPure.mp last
      exact operate m i _ _ _ t x t' here

theorem actions (m : Method) (is : List Instruction) : Adds (·.filterMap Action.def?) (Lower.actions m is) := by
  induction is using Lower.actions.induct with
  | case1 => exact pure rfl
  | case2 i rest family ih | case3 i rest family ih =>
    unfold Lower.actions
    simp only [family]
    refine bind (call i) fun e => ?_
    cases rest with
    | nil => exact pure rfl
    | cons next rest =>
      dsimp only at ih ⊢
      split
      · split
        · exact reject next _
        · exact join (varOf _) ih.1 fun v more x member => by simpa [Action.def?] using member
      · intro t as t' did
        obtain ⟨more,t₁,here,last⟩ := doesBind.mp did
        obtain ⟨rfl,rfl⟩ := doesPure.mp last
        exact ih.2 t more t' here
  | case4 i rest family =>
    unfold Lower.actions
    simp only [family]
    exact reject i _
  | case5 i rest notCall notArray notResult ih =>
    unfold Lower.actions
    split
    · exact absurd ‹_› notCall
    · exact absurd ‹_› notArray
    · exact absurd ‹_› notResult
    · refine join (single m i) ih fun a more x member => ?_
      rw [List.filterMap_append,List.mem_append] at member
      refine member.imp_left fun first => ?_
      cases a with
      | none => contradiction
      | some a => simpa using first

theorem block (m : Method) (is : List Instruction) : Adds (·.filterMap Stmt.def?) (Lower.block m is) := by
  intro t ss t' did
  obtain ⟨as,t₁,here,last⟩ := doesBind.mp did
  obtain ⟨rfl,rfl⟩ := doesPure.mp last
  obtain ⟨grown,known⟩ := actions m is t as t' here
  refine ⟨grown,fun v member => known v ?_⟩
  obtain ⟨s,stands,defines⟩ := List.mem_filterMap.mp member
  obtain ⟨r,old,same⟩ := Stmt.foldConstructorsDef stands defines
  obtain ⟨a,listed,rfl⟩ := List.mem_map.mp old
  exact List.mem_filterMap.mpr ⟨a,listed,same⟩

end Adds

end Lower

/-! ### Building -/

namespace Flow

variable {blocks : List Block} {b b' b₁ : Builder} {α β : Type}

/-- Parameters and locations stay as they are, and the table only gets initial variables. -/
structure Keeps (b b' : Builder) : Prop where
  params : b'.graph.params = b.graph.params
  nextLoc : b'.graph.nextLoc = b.graph.nextLoc
  vars : b.graph.vars.Registers b'.graph.vars

theorem Keeps.refl (b : Builder) : Keeps b b := ⟨rfl,rfl,.refl _⟩

theorem Keeps.trans (first : Keeps b b₁) (second : Keeps b₁ b') : Keeps b b' :=
  ⟨second.params.trans first.params,second.nextLoc.trans first.nextLoc,first.vars.trans second.vars⟩

def Keeping (w : Building α) : Prop := ∀ b a b', Does w b a b' → Keeps b b'

namespace Keeping

theorem pure (a : α) : Keeping (Pure.pure a : Building α) := by
  intro b c b' did
  obtain ⟨-,rfl⟩ := doesPure.mp did
  exact .refl _

theorem bind {w : Building α} {k : α → Building β} (first : Keeping w) (second : ∀ a, Keeping (k a)) :
    Keeping (w >>= k) := by
  intro b c b' did
  obtain ⟨a,b₁,here,rest⟩ := doesBind.mp did
  exact (first b a b₁ here).trans (second a b₁ c b' rest)

theorem throw (fault : BuildFault) : Keeping (MonadExcept.throw fault : Building α) :=
  fun _ _ _ did => absurd did doesThrow

theorem edit {f : Graph → Graph} (framed : ∀ g : Graph, g.Framed (f g)) : Keeping (modifyGraph f) := by
  intro b u b' did
  obtain rfl := doesModifyGraph.mp did
  have same := (framed b.graph).rest
  refine ⟨?_,?_,?_⟩
  · exact (congrArg Graph.params same).trans rfl
  · exact (congrArg Graph.nextLoc same).trans rfl
  · show b.graph.vars.Registers (f b.graph).vars
    rw [same]
    exact .refl _

theorem visit (o : Int) : Keeping (Flow.visit blocks o) := by
  intro b t b' did
  simp only [Flow.visit,doesBind,doesGet] at did
  obtain ⟨_,_,⟨rfl,rfl⟩,did⟩ := did
  split at did
  · obtain ⟨-,rfl⟩ := doesPure.mp did
    exact .refl _
  · split at did
    · obtain ⟨-,rfl⟩ := doesPure.mp did
      exact .refl _
    · simp only [doesBind,doesSet,doesPure] at did
      obtain ⟨_,_,rfl,rfl,rfl⟩ := did
      exact ⟨rfl,rfl,.refl _⟩

theorem visitNext (k : Block) : Keeping (Flow.visitNext blocks k) := by
  unfold Flow.visitNext
  split
  · split
    · exact visit _
    · exact pure _
  · exact pure _

theorem require (o : Int) (t : Option NodeId) : Keeping (Flow.require o t) := by
  cases t with
  | none => exact throw _
  | some t => exact pure t

theorem modify (n : NodeId) (f : Node → Node) : Keeping (modifyGraph (·.modify n f)) :=
  edit fun g => g.framedModify n f

theorem addEdge (n t : NodeId) : Keeping (modifyGraph (·.addEdge n t)) := edit fun g => g.framedAddEdge n t

theorem link (n : NodeId) (t : Option NodeId) : Keeping (Flow.link n t) := by
  cases t with
  | none => exact pure _
  | some t => exact addEdge n t

theorem linkCases (n : NodeId) (keys : List (Int × Int)) (cases : List SwitchCase) :
    Keeping (Flow.linkCases blocks n keys cases) := by
  induction keys generalizing cases with
  | nil => exact pure _
  | cons k keys ih =>
    refine bind (visit _) fun t => ?_
    cases t with
    | none => exact ih cases
    | some t => exact bind (addEdge n t) fun _ => ih _

theorem linkNode (n : NodeId) (k : Block) (last : Instruction) : Keeping (Flow.linkNode blocks n k last) := by
  unfold Flow.linkNode
  split
  case h_1 | h_2 | h_3 => exact modify n _
  case h_4 => exact bind (visit _) fun t => link n t
  case h_5 | h_6 =>
    refine bind (visit _) fun t => bind (visit _) fun f => ?_
    split
    · exact bind (modify n _) fun _ => link n t
    · exact bind (require _ t) fun i => bind (require _ f) fun j =>
        bind (modify n _) fun _ => bind (addEdge n i) fun _ => addEdge n j
  case h_7 | h_8 =>
    refine bind (linkCases n _ []) fun cases => bind (modify n _) fun _ => bind (visit _) fun f => ?_
    cases f with
    | none => exact pure _
    | some f => exact bind (modify n _) fun _ => addEdge n f
  case h_9 => exact bind (visitNext k) fun t => link n t

theorem enterHandlers (hs : List Handler) : Keeping (Flow.enterHandlers blocks hs) := by
  induction hs with
  | nil => exact pure _
  | cons h hs ih =>
    exact bind (visit _) fun t => bind (require _ t) fun i => bind (modify i _) fun _ => bind ih fun _ => pure _

theorem regionOf (t : TryRange) : Keeping (Flow.regionOf blocks t) := by
  intro b r b' did
  simp only [Flow.regionOf,doesBind,doesGet] at did
  obtain ⟨_,_,⟨rfl,rfl⟩,did⟩ := did
  split at did
  · obtain ⟨-,rfl⟩ := doesPure.mp did
    exact .refl _
  · simp only [doesBind,doesSet,doesPure,doesGet] at did
    obtain ⟨cs,b₁,entered,_,_,⟨rfl,rfl⟩,_,_,rfl,rfl,rfl⟩ := did
    exact (enterHandlers _ _ _ _ entered).trans ⟨rfl,rfl,.refl _⟩

theorem protect (m : Method) (n : NodeId) (k : Block) : Keeping (Flow.protect m blocks n k) := by
  unfold Flow.protect
  split
  · exact pure _
  · exact bind (regionOf _) fun r => bind (modify n _) fun _ =>
      edit fun g => Graph.framedFold (fun g (h : CatchEntry) => g.framedAddCatchEdge n h.entry) _ g

theorem lowerBlock (m : Method) (k : Block) : Keeping (Flow.lowerBlock m k) := by
  intro b ss b' did
  obtain ⟨vars,lowered,rfl⟩ := didLowerBlock did
  exact ⟨rfl,rfl,(Lower.Adds.block m k.insts _ _ _ lowered).1⟩

theorem buildNode (m : Method) (k : Block) : Keeping (Flow.buildNode m blocks k) := by
  intro b u b' did
  unfold Flow.buildNode at did
  simp only [doesBind,doesGet] at did
  obtain ⟨_,_,⟨rfl,rfl⟩,did⟩ := did
  split at did
  · obtain ⟨-,rfl⟩ := doesPure.mp did
    exact .refl _
  · rename_i n known
    refine bind (lowerBlock m k) (fun ss => bind (modify n _) fun _ => ?_) _ _ _ did
    cases k.last? with
    | none => exact bind (throw _) fun _ => protect m n k
    | some last => exact bind (linkNode n k last) fun _ => protect m n k

theorem buildQueue (m : Method) (fuel : Nat) : Keeping (Flow.buildQueue m blocks fuel) := by
  induction fuel with
  | zero => exact pure _
  | succ fuel ih =>
    intro b u b' did
    simp only [Flow.buildQueue,doesBind,doesGet] at did
    obtain ⟨_,_,⟨rfl,rfl⟩,did⟩ := did
    split at did
    · obtain ⟨-,rfl⟩ := doesPure.mp did
      exact .refl _
    · simp only [doesBind,doesSet] at did
      obtain ⟨_,_,rfl,_,b₁,built,did⟩ := did
      have first := buildNode m _ _ _ _ built
      exact .trans ⟨first.params,first.nextLoc,first.vars⟩ (ih _ _ _ did)

end Keeping

/-! ### Parameters -/

theorem paramOf {t : VarTable} {r : Int} {type : String} {this : Bool} {v : VarId}
    (known : v < t.size ∧ (t.get v).isParam = true ∨ v = (t.param r type this).2) :
    v < (t.param r type this).1.size ∧ ((t.param r type this).1.get v).isParam = true := by
  obtain ⟨grown,inside⟩ := t.extendsRegister r
  have size : (t.param r type this).1.size = (t.register r).1.size := by
    simp [VarTable.param,VarTable.set,VarTable.size]
  by_cases same : v = (t.register r).2
  · subst same
    have there : (t.register r).2 < (t.register r).1.vars.size := inside
    refine ⟨size ▸ inside,?_⟩
    cases this <;> simp [VarTable.param,VarTable.set,VarTable.get,there,Variable.isParam]
  · obtain ⟨old,param⟩ := known.resolve_right same
    refine ⟨size ▸ Nat.lt_of_lt_of_le old grown.size,?_⟩
    have get : (t.param r type this).1.get v = (t.register r).1.get v := by
      simp [VarTable.param,VarTable.set,VarTable.get,Ne.symm same]
    rw [get,grown.get old]
    exact param

theorem seeded {t : VarTable} {r : Int} {given : List (String × Bool)} {v : VarId}
    (known : v < t.size ∧ (t.get v).isParam = true ∨ v ∈ (seedParams t r given).2) :
    v < (seedParams t r given).1.size ∧ ((seedParams t r given).1.get v).isParam = true := by
  induction given generalizing t r with
  | nil => exact known.resolve_right List.not_mem_nil
  | cons x given ih =>
    obtain ⟨type,this⟩ := x
    have one := @paramOf t r type this v
    unfold seedParams at known ⊢
    generalize t.param r type this = p at one known ⊢
    refine ih ?_
    rcases known with old | listed
    · exact .inl (one (.inl old))
    · exact (List.mem_cons.mp listed).imp_left fun same => one (.inr same)

/-! ### The graph of a method -/

theorem guardEntryRest (g : Graph) : (guardEntry g).params = g.params ∧ (guardEntry g).nextLoc = g.nextLoc := by
  unfold guardEntry
  split
  · exact ⟨rfl,rfl⟩
  · dsimp only
    split <;> exact ⟨rfl,rfl⟩

theorem ordered {g h : Graph} (coherent : g.Coherent) (entry : g.entry = some 0)
    (made : (numberStatements (linkRegions (guardEntry g))).renumber = h) :
    h.Ranked ∧ h.Edged ∧ h.params = g.params ∧
      ∀ i ∈ h.rpo, ∀ s ∈ (h.node i).stmts, g.nextLoc ≤ s.loc ∧ s.loc < h.nextLoc := by
  obtain ⟨h₁,guard⟩ : ∃ h₁, guardEntry g = h₁ := ⟨_,rfl⟩
  obtain ⟨params,nextLoc⟩ := guardEntryRest g
  obtain ⟨coherent₁,-,-,-,front⟩ := frontedGuardEntry coherent entry guard
  rw [guard] at made params nextLoc
  obtain ⟨h₂,number⟩ : ∃ h₂, numberStatements (linkRegions h₁) = h₂ := ⟨_,rfl⟩
  have located : Located (linkRegions h₁) h₂ h₁.nodes := by
    rw [← number]
    exact locatedNumberStatements (linkRegions h₁) coherent₁.once coherent₁.inStore
  have entry₂ : h₂.entry = h₁.entry := by rw [located.rest]; rfl
  have coherent₂ : h₂.Coherent :=
    coherent₁.restate entry₂ (by rw [located.rest]; rfl) located.size located.node
  obtain ⟨e,first⟩ : ∃ e, h₂.entry = some e := by
    rw [entry₂]
    rcases front with ⟨first,-⟩ | ⟨first,-⟩ <;> exact ⟨_,first⟩
  have member := coherent₂.entry e first
  rw [number] at made
  subst made
  have numbered := coherent₂.numbered first
  refine ⟨coherent₂.toNetted.ranked first member,coherent₂.toNetted.numberedEdged first member,?_,
    fun i listed s stands => ?_⟩
  · rw [numbered.rest,located.rest]
    exact params
  · rw [show h₂.renumber.rpo = h₂.renumber.nodes by rw [numbered.rest]] at listed
    obtain ⟨num,same⟩ := numbered.node i listed
    rw [same] at stands
    have old := numbered.old i listed
    rw [located.rest] at old
    obtain ⟨after,before⟩ := located.between i old s stands
    rw [show h₂.renumber.nextLoc = h₂.nextLoc by rw [numbered.rest]]
    exact ⟨nextLoc ▸ after,before⟩

theorem Drawn.origin {m : Method} {blocks met : List Block} {b : Builder}
    (drawn : Drawn m blocks met met.length b) {i : NodeId} (inside : i < b.graph.store.size) :
    ∃ k ∈ met, ∃ ss, Does (Lower.block m k.insts) b.graph.vars ss b.graph.vars ∧
      ∀ s ∈ (b.graph.node i).stmts, s ∈ ss := by
  have within : i < met.length := drawn.standing.known.size ▸ inside
  obtain ⟨last,ss,region,entries,renders⟩ := drawn.built i _ within (List.getElem?_eq_getElem within)
  obtain ⟨x,start⟩ : ∃ x : Node, x = { start := met[i].start, stmts := ss } := ⟨_,rfl⟩
  have stmts : (b.graph.node i).own.stmts = (Flow.drawn (fun o => b.known.lookup o) met[i] last x).stmts := by
    rw [renders.node _ drawn.standing.sites,start]
  refine ⟨met[i],List.getElem_mem within,ss,renders.lowered,fun s stands => ?_⟩
  have stands : s ∈ (b.graph.node i).own.stmts := stands
  rw [stmts] at stands
  have same : x.stmts = ss := by rw [start]
  rcases (drawnKept (fun o => b.known.lookup o) met[i] last x).2.2.2 with all | most
  · rwa [all,same] at stands
  · rw [most,same] at stands
    exact List.mem_of_mem_dropLast stands

theorem Drawn.defs {m : Method} {blocks met : List Block} {b : Builder} (drawn : Drawn m blocks met met.length b)
    {i : NodeId} (inside : i < b.graph.store.size) {s : Stmt} (stands : s ∈ (b.graph.node i).stmts) {v : VarId}
    (defines : s.def? = some v) : v < b.graph.vars.size := by
  obtain ⟨k,-,ss,lowered,among⟩ := drawn.origin inside
  exact (Lower.Adds.block m _ _ _ _ lowered).2 v (List.mem_filterMap.mpr ⟨s,among s stands,defines⟩)

end Flow

namespace Graph

structure Founded (g : Graph) : Prop extends g.Wired where
  ranked : g.Ranked
  distinct : g.LocsDistinct
  sourceless : g.Sourceless
  given : ∀ v ∈ g.params, (g.vars.get v).isParam = true
  between : ∀ i ∈ g.rpo, ∀ s ∈ (g.node i).stmts, 0 ≤ s.loc ∧ s.loc < g.nextLoc

variable {m : Method} {g h : Graph}

theorem Finished.origin (finished : g.Finished h) {i : NodeId} (inside : i < h.store.size) {s : Stmt}
    (stands : s ∈ (h.node i).stmts) : i < g.store.size ∧ ∃ t ∈ (g.node i).stmts, t.act = s.act := by
  by_cases old : i < g.store.size
  · have act := List.mem_map_of_mem (f := Stmt.act) stands
    rw [(finished.nodes i old).2.1] at act
    exact ⟨old,List.mem_map.mp act⟩
  · rcases finished.front with ⟨-,size⟩ | ⟨-,size,own,-⟩
    · exact absurd (size ▸ inside) old
    · obtain rfl : i = g.store.size := Nat.eq_of_lt_succ_of_not_lt (size ▸ inside) old
      have none : (h.node g.store.size).stmts = [] := congrArg Node.stmts own
      rw [none] at stands
      exact absurd stands List.not_mem_nil

open RegCode.Flow in
theorem foundedOfMethod (made : ofMethod m = .ok g) : g.Founded := by
  have empty : ∀ {vars params}, (∀ v ∈ params, v < vars.size ∧ (vars.get v).isParam = true) →
      Founded { vars, params } := fun {vars params} given =>
    { inStore := by simp, entry := by simp, empty := fun _ => rfl, succs := by simp, preds := by simp
      catchSuccs := by simp, catchPreds := by simp, defs := by simp, params := fun v member => (given v member).1
      ranked := ⟨by simp,rfl,by simp⟩, distinct := List.nodup_nil, sourceless := fun e here => by simp at here
      given := fun v member => (given v member).2, between := by simp }
  have given : ∀ v ∈ (parameters m).2, v < (parameters m).1.size ∧ ((parameters m).1.get v).isParam = true :=
    fun v member => seeded (.inr member)
  have built := builtOfMethod made
  rcases ofMethodParts made with ⟨-,rfl⟩ | ⟨-,rfl⟩ | ⟨first,rest,u,b,-,queued,made⟩
  · exact (empty (by simp) : Founded { vars := VarTable.empty, params := [] })
  · exact empty given
  · have laid := didBuildQueue queued (.start first rfl rfl rfl)
    obtain ⟨more,drawn⟩ := didBuildQueueDrawn queued (.start m (List.mem_cons_self ..) rfl rfl rfl) rfl
    have coherent := drawn.coherent laid
    have finished := Flow.finished coherent laid.entry made built.listed
    have keeps := Keeping.buildQueue m _ _ _ _ queued
    obtain ⟨ranked,edged,params,between⟩ := ordered coherent laid.entry made
    have same : g.params = (parameters m).2 := params.trans keeps.params
    have vars : g.vars = b.graph.vars := finished.vars
    refine { edged with
      ranked, distinct := finished.distinct, sourceless := finished.sourceless
      defs := fun i listed s stands v defines => ?_
      params := fun v member => ?_
      given := fun v member => ?_
      between := fun i listed s stands => ?_ }
    · obtain ⟨old,t,there,act⟩ := finished.origin (edged.inStore i listed) stands
      exact vars ▸ drawn.defs old there ((congrArg Action.def? act).trans defines)
    · obtain ⟨inside,-⟩ := given v (same ▸ member)
      exact vars ▸ Nat.lt_of_lt_of_le inside keeps.vars.extends.size
    · obtain ⟨inside,param⟩ := given v (same ▸ member)
      rw [vars,keeps.vars.extends.get inside]
      exact param
    · have start : b.graph.nextLoc = 0 := keeps.nextLoc
      exact start ▸ between i listed s stands

end Graph

end RegCode
