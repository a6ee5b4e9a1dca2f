import RegCode.Proofs.Stmt.Objects
import RegCode.Stmt.Constructor
import Mathlib.Data.List.Chain

/-! Allocations and constructor calls as one expression. -/
namespace RegCode

open Universe (Request raised?)

namespace Universe

variable {V W : Type}

section
variable (m : Universe V W)

def Constructs (ρ : VarId → V) (ref : String) (es : List Expr) (w : W) (o : V) (r : Except V V) (w' : W) : Prop :=
  ∃ xs w₁, m.Evals ρ es w (.ok xs) w₁ ∧ m.fresh w₁ o ∧ m.acts (.construct ref) (o :: xs) (m.place ref o w₁) r w'

structure Spare (vs : VarId → Prop) (s t : Scene V W) : Prop where
  env : ∀ v, ¬vs v → s.env v = t.env v
  world : Relation.ReflTransGen (fun w w' => ∃ ref o, m.fresh w o ∧ w' = m.place ref o w) t.world s.world

/-- The same runs. Those that something raised ends have bare objects to spare on the left. -/
structure Alike (vs : VarId → Prop) (ss ts : List Stmt) : Prop where
  ends : ∀ s, m.Sound s → ∀ t, m.Runs ss s none t ↔ m.Runs ts s none t
  stops : ∀ s, m.Sound s → ∀ x t, m.Runs ss s (some x) t → ∃ t', m.Runs ts s (some x) t' ∧ m.Spare vs t t'
  stopped : ∀ s, m.Sound s → ∀ x t', m.Runs ts s (some x) t' → ∃ t, m.Runs ss s (some x) t ∧ m.Spare vs t t'

end

variable {m : Universe V W} {vs vs' : VarId → Prop} {ss ts us front back between : List Stmt} {s t : Scene V W}
  {ρ : VarId → V} {es : List Expr} {e : Expr} {xs : List V} {w w' : W} {r : Except V V}
  {rs : Except V (List V)} {out : Option V} {ref : String} {o x : V} {v : VarId} {d : Bool} {f : MethodRef}

/-! ### Lists of statements that are alike -/

theorem Spare.refl (s : Scene V W) : m.Spare vs s s := ⟨fun _ _ => rfl,.refl⟩

theorem Spare.trans {u : Scene V W} (left : m.Spare vs s t) (right : m.Spare vs t u) : m.Spare vs s u :=
  ⟨fun v other => (left.env v other).trans (right.env v other),right.world.trans left.world⟩

theorem Spare.mono (spare : m.Spare vs s t) (weaker : ∀ v, vs v → vs' v) : m.Spare vs' s t :=
  ⟨fun v other => spare.env v fun here => other (weaker v here),spare.world⟩

theorem Alike.refl (ss : List Stmt) : m.Alike vs ss ss :=
  ⟨fun _ _ _ => .rfl,fun _ _ _ t runs => ⟨t,runs,.refl t⟩,fun _ _ _ t runs => ⟨t,runs,.refl t⟩⟩

theorem Alike.trans (left : m.Alike vs ss ts) (right : m.Alike vs ts us) : m.Alike vs ss us where
  ends s sound t := (left.ends s sound t).trans (right.ends s sound t)
  stops s sound x t runs := by
    obtain ⟨t',runs,spare⟩ := left.stops s sound x t runs
    obtain ⟨t'',runs,more⟩ := right.stops s sound x t' runs
    exact ⟨t'',runs,spare.trans more⟩
  stopped s sound x t runs := by
    obtain ⟨t',runs,more⟩ := right.stopped s sound x t runs
    obtain ⟨t'',runs,spare⟩ := left.stopped s sound x t' runs
    exact ⟨t'',runs,spare.trans more⟩

theorem Alike.mono (alike : m.Alike vs ss ts) (weaker : ∀ v, vs v → vs' v) : m.Alike vs' ss ts where
  ends := alike.ends
  stops s sound x t runs :=
    (alike.stops s sound x t runs).imp fun _ ⟨runs,spare⟩ => ⟨runs,spare.mono weaker⟩
  stopped s sound x t runs :=
    (alike.stopped s sound x t runs).imp fun _ ⟨runs,spare⟩ => ⟨runs,spare.mono weaker⟩

theorem Alike.within (alike : m.Alike vs ss ts) : m.Alike vs (front ++ ss ++ back) (front ++ ts ++ back) where
  ends s sound t := by
    simp only [List.append_assoc,runsAppend,reduceCtorEq,false_and,exists_false,false_or]
    refine exists_congr fun s₁ => and_congr_right fun runs => exists_congr fun s₂ => and_congr_left fun _ => ?_
    exact alike.ends s₁ (runs.known sound).1 s₂
  stops s sound x t runs := by
    simp only [List.append_assoc,runsAppend] at runs ⊢
    rcases runs with early | ⟨s₁,first,⟨y,same,runs⟩ | ⟨s₂,runs,rest⟩⟩
    · exact ⟨t,.inl early,.refl t⟩
    · obtain ⟨t',runs,spare⟩ := alike.stops s₁ (first.known sound).1 x t runs
      exact ⟨t',.inr ⟨s₁,first,.inl ⟨y,same,runs⟩⟩,spare⟩
    · exact ⟨t,.inr ⟨s₁,first,.inr ⟨s₂,(alike.ends s₁ (first.known sound).1 s₂).mp runs,rest⟩⟩,.refl t⟩
  stopped s sound x t runs := by
    simp only [List.append_assoc,runsAppend] at runs ⊢
    rcases runs with early | ⟨s₁,first,⟨y,same,runs⟩ | ⟨s₂,runs,rest⟩⟩
    · exact ⟨t,.inl early,.refl t⟩
    · obtain ⟨t',runs,spare⟩ := alike.stopped s₁ (first.known sound).1 x t runs
      exact ⟨t',.inr ⟨s₁,first,.inl ⟨y,same,runs⟩⟩,spare⟩
    · exact ⟨t,.inr ⟨s₁,first,.inr ⟨s₂,(alike.ends s₁ (first.known sound).1 s₂).mpr runs,rest⟩⟩,.refl t⟩

/-! ### Allocation and construction -/

theorem evalsOne : m.Evals ρ [e] w rs w' ↔ (∃ x, rs = .error x ∧ m.Evals ρ e.parts w (.error x) w') ∨
    ∃ xs w₁ r, m.Evals ρ e.parts w (.ok xs) w₁ ∧ m.Computes ρ e xs w₁ r w' ∧ rs = r.map ([·]) := by
  constructor
  · intro evals
    cases evals with
    | inner parts => exact .inl ⟨_,rfl,parts⟩
    | raise parts raises => exact .inr ⟨_,_,_,parts,raises,rfl⟩
    | cons parts gives rest =>
      cases rest
      exact .inr ⟨_,_,_,parts,gives,rfl⟩
  · rintro (⟨x,rfl,parts⟩ | ⟨xs,w₁,r,parts,computes,rfl⟩)
    · exact .inner parts
    · cases r with
      | ok y => exact .cons parts computes .nil
      | error y => exact .raise parts computes

theorem evalsNil : m.Evals ρ [] w rs w' ↔ rs = .ok [] ∧ w' = w := by
  constructor
  · intro evals
    cases evals
    exact ⟨rfl,rfl⟩
  · rintro ⟨rfl,rfl⟩
    exact .nil

theorem evalsVar : m.Evals ρ (.var v :: es) w rs w' ↔ ∃ r, m.Evals ρ es w r w' ∧ rs = r.map (ρ v :: ·) := by
  constructor
  · intro evals
    cases evals with
    | inner parts => simp [Expr.parts,evalsNil] at parts
    | raise parts raises =>
      cases raises with
      | act asks => cases asks
    | cons parts gives rest =>
      obtain ⟨-,rfl⟩ := evalsNil.mp parts
      cases gives with
      | var => exact ⟨_,rest,rfl⟩
      | act asks => cases asks
  · rintro ⟨r,rest,rfl⟩
    exact .cons .nil .var rest

theorem evalsBare : m.Evals ρ [.newObject ref es false] w rs w' ↔
    ∃ o, m.fresh w o ∧ rs = .ok [o] ∧ w' = m.place ref o w := by
  rw [evalsOne]
  constructor
  · rintro (⟨x,rfl,parts⟩ | ⟨xs,w₁,r,parts,computes,rfl⟩)
    · simp [Expr.parts,evalsNil] at parts
    · obtain ⟨-,rfl⟩ := evalsNil.mp parts
      cases computes with
      | allocate new => exact ⟨_,new,rfl,rfl⟩
      | act asks => cases asks
  · rintro ⟨o,new,rfl,rfl⟩
    exact .inr ⟨[],w,.ok o,.nil,.allocate new,rfl⟩

theorem evalsNew : m.Evals ρ [.newObject ref es true] w rs w' ↔
    (∃ x, rs = .error x ∧ m.Evals ρ es w (.error x) w') ∨
      ∃ o r, m.Constructs ρ ref es w o r w' ∧ rs = r.map fun _ => [o] := by
  rw [evalsOne]
  refine or_congr .rfl ⟨?_,?_⟩
  · rintro ⟨xs,w₁,r,parts,computes,rfl⟩
    cases computes with
    | @build _ _ o _ _ r _ new builds => exact ⟨o,r,⟨xs,w₁,parts,new,builds⟩,by cases r <;> rfl⟩
    | act asks => cases asks
  · rintro ⟨o,r,⟨xs,w₁,parts,new,builds⟩,rfl⟩
    exact ⟨xs,w₁,_,parts,.build new builds,by cases r <;> rfl⟩

theorem evalsCall (sound : m.Sound s) (new : m.fresh s.world o) (unread : v ∉ Expr.varsAll es)
    (constructor_ : f.name = "<init>") :
    m.Evals (m.put v f.owner o s).env [.callOn .direct f (.var v) es] (m.put v f.owner o s).world rs w' ↔
      (∃ x w, rs = .error x ∧ m.Evals s.env es s.world (.error x) w ∧ m.fresh w o ∧ w' = m.place f.owner o w) ∨
        ∃ r, m.Constructs s.env f.owner es s.world o r w' ∧ rs = r.map ([·]) := by
  have held : (m.put v f.owner o s).env v = o := Function.update_self ..
  have operands : ∀ {qs w₁}, m.Evals (m.put v f.owner o s).env (.var v :: es) (m.put v f.owner o s).world qs w₁ ↔
      ∃ r w₂, m.Evals s.env es s.world r w₂ ∧ m.fresh w₂ o ∧ w₁ = m.place f.owner o w₂ ∧ qs = r.map (o :: ·) := by
    intro qs w₁
    rw [evalsVar,held]
    constructor
    · rintro ⟨r,evals,rfl⟩
      obtain ⟨w₂,evals,still,same⟩ := (Evals.put new sound unread).mp evals
      exact ⟨r,w₂,evals,still,same,rfl⟩
    · rintro ⟨r,w₂,evals,still,rfl,rfl⟩
      exact ⟨r,(Evals.put new sound unread).mpr ⟨w₂,evals,still,rfl⟩,rfl⟩
  have asked : (Expr.callOn .direct f (.var v) es).request? = some (.construct f.owner) := by
    simp [Expr.request?,constructor_]
  rw [evalsOne]
  constructor
  · rintro (⟨x,rfl,parts⟩ | ⟨xs,w₁,r,parts,computes,rfl⟩)
    · obtain ⟨r,w₂,evals,still,rfl,same⟩ := operands.mp parts
      cases r with
      | ok ys => cases same
      | error y =>
        cases same
        exact .inl ⟨x,w₂,rfl,evals,still,rfl⟩
    · obtain ⟨r',w₂,evals,still,rfl,same⟩ := operands.mp parts
      cases r' with
      | error y => cases same
      | ok ys =>
        cases same
        cases computes with
        | act asks acts =>
          cases asked.symm.trans asks
          exact .inr ⟨r,⟨ys,w₂,evals,still,acts⟩,rfl⟩
  · rintro (⟨x,w,rfl,evals,still,rfl⟩ | ⟨r,⟨xs,w₁,evals,still,acts⟩,rfl⟩)
    · exact .inl ⟨x,rfl,operands.mpr ⟨_,w,evals,still,rfl,rfl⟩⟩
    · exact .inr ⟨_,_,r,operands.mpr ⟨_,w₁,evals,still,rfl,rfl⟩,.act asked acts,rfl⟩

theorem doesAssign {d : Bool} : m.Does (.assign v e d) s out t ↔
    (∃ x w, out = some x ∧ m.Evals s.env [e] s.world (.error x) w ∧ t = ⟨s.env,w⟩) ∨
      ∃ x w, out = none ∧ m.Evals s.env [e] s.world (.ok [x]) w ∧ t = ⟨Function.update s.env v x,w⟩ := by
  constructor
  · intro does
    cases does with
    | raise evals => exact .inl ⟨_,_,rfl,evals,rfl⟩
    | quiet asks evals =>
      rcases evalsOne.mp evals with ⟨x,wrong,-⟩ | ⟨ys,w₁,r,parts,computes,same⟩
      · cases wrong
      · cases r with
        | error y => cases same
        | ok y =>
          cases same
          exact .inr ⟨y,_,rfl,evals,rfl⟩
    | act asks => cases asks
  · rintro (⟨x,w,rfl,evals,rfl⟩ | ⟨x,w,rfl,evals,rfl⟩)
    · exact .raise evals
    · exact Does.quiet (a := .assign v e d) rfl evals

theorem doesInvoke : m.Does (.invoke e) s out t ↔
    (∃ x w, out = some x ∧ m.Evals s.env [e] s.world (.error x) w ∧ t = ⟨s.env,w⟩) ∨
      ∃ xs w, out = none ∧ m.Evals s.env [e] s.world (.ok xs) w ∧ t = ⟨s.env,w⟩ := by
  constructor
  · intro does
    cases does with
    | raise evals => exact .inl ⟨_,_,rfl,evals,rfl⟩
    | quiet asks evals => exact .inr ⟨_,_,rfl,evals,rfl⟩
    | act asks => cases asks
  · rintro (⟨x,w,rfl,evals,rfl⟩ | ⟨xs,w,rfl,evals,rfl⟩)
    · exact .raise evals
    · exact .quiet rfl evals

theorem doesBare {d : Bool} : m.Does (.assign v (.newObject ref es false) d) s out t ↔
    out = none ∧ ∃ o, m.fresh s.world o ∧ t = m.put v ref o s := by
  rw [doesAssign]
  constructor
  · rintro (⟨x,w,rfl,evals,rfl⟩ | ⟨x,w,rfl,evals,rfl⟩)
    · obtain ⟨o,-,wrong,-⟩ := evalsBare.mp evals
      cases wrong
    · obtain ⟨o,new,same,rfl⟩ := evalsBare.mp evals
      cases same
      exact ⟨rfl,x,new,rfl⟩
  · rintro ⟨rfl,o,new,rfl⟩
    exact .inr ⟨o,_,rfl,evalsBare.mpr ⟨o,new,rfl,rfl⟩,rfl⟩

theorem doesNew {d : Bool} : m.Does (.assign v (.newObject ref es true) d) s out t ↔
    (∃ x w, out = some x ∧ m.Evals s.env es s.world (.error x) w ∧ t = ⟨s.env,w⟩) ∨
      (∃ o x w, out = some x ∧ m.Constructs s.env ref es s.world o (.error x) w ∧ t = ⟨s.env,w⟩) ∨
        ∃ o x w, out = none ∧ m.Constructs s.env ref es s.world o (.ok x) w ∧ t = ⟨Function.update s.env v o,w⟩ := by
  rw [doesAssign]
  constructor
  · rintro (⟨x,w,rfl,evals,rfl⟩ | ⟨x,w,rfl,evals,rfl⟩)
    · rcases evalsNew.mp evals with ⟨y,same,evals⟩ | ⟨o,r,constructs,same⟩
      · cases same
        exact .inl ⟨x,w,rfl,evals,rfl⟩
      · cases r with
        | ok y => cases same
        | error y =>
          cases same
          exact .inr (.inl ⟨o,x,w,rfl,constructs,rfl⟩)
    · rcases evalsNew.mp evals with ⟨y,same,evals⟩ | ⟨o,r,constructs,same⟩
      · cases same
      · cases r with
        | error y => cases same
        | ok y =>
          cases same
          exact .inr (.inr ⟨x,y,w,rfl,constructs,rfl⟩)
  · rintro (⟨x,w,rfl,evals,rfl⟩ | ⟨o,x,w,rfl,constructs,rfl⟩ | ⟨o,x,w,rfl,constructs,rfl⟩)
    · exact .inl ⟨x,w,rfl,evalsNew.mpr (.inl ⟨x,rfl,evals⟩),rfl⟩
    · exact .inl ⟨x,w,rfl,evalsNew.mpr (.inr ⟨o,.error x,constructs,rfl⟩),rfl⟩
    · exact .inr ⟨o,w,rfl,evalsNew.mpr (.inr ⟨o,.ok x,constructs,rfl⟩),rfl⟩

theorem doesCall (sound : m.Sound s) (new : m.fresh s.world o) (unread : v ∉ Expr.varsAll es)
    (constructor_ : f.name = "<init>") :
    m.Does (.invoke (.callOn .direct f (.var v) es)) (m.put v f.owner o s) out t ↔
      (∃ x w, out = some x ∧ m.Evals s.env es s.world (.error x) w ∧ m.fresh w o ∧ t = m.put v f.owner o ⟨s.env,w⟩) ∨
        (∃ x w, out = some x ∧ m.Constructs s.env f.owner es s.world o (.error x) w ∧
            t = ⟨Function.update s.env v o,w⟩) ∨
          ∃ x w, out = none ∧ m.Constructs s.env f.owner es s.world o (.ok x) w ∧
            t = ⟨Function.update s.env v o,w⟩ := by
  rw [doesInvoke]
  constructor
  · rintro (⟨x,w,rfl,evals,rfl⟩ | ⟨xs,w,rfl,evals,rfl⟩)
    · rcases (evalsCall sound new unread constructor_).mp evals with ⟨y,w₁,same,evals,still,rfl⟩ | ⟨r,constructs,same⟩
      · cases same
        exact .inl ⟨x,w₁,rfl,evals,still,rfl⟩
      · cases r with
        | ok y => cases same
        | error y =>
          cases same
          exact .inr (.inl ⟨x,w,rfl,constructs,rfl⟩)
    · rcases (evalsCall sound new unread constructor_).mp evals with ⟨y,w₁,same,evals,still,rfl⟩ | ⟨r,constructs,same⟩
      · cases same
      · cases r with
        | error y => cases same
        | ok y =>
          cases same
          exact .inr (.inr ⟨y,w,rfl,constructs,rfl⟩)
  · rintro (⟨x,w,rfl,evals,still,rfl⟩ | ⟨x,w,rfl,constructs,rfl⟩ | ⟨x,w,rfl,constructs,rfl⟩)
    · exact .inl ⟨x,_,rfl,(evalsCall sound new unread constructor_).mpr (.inl ⟨x,w,rfl,evals,still,rfl⟩),rfl⟩
    · exact .inl ⟨x,w,rfl,(evalsCall sound new unread constructor_).mpr (.inr ⟨.error x,constructs,rfl⟩),rfl⟩
    · exact .inr ⟨[x],w,rfl,(evalsCall sound new unread constructor_).mpr (.inr ⟨.ok x,constructs,rfl⟩),rfl⟩

/-! ### Statements between an allocation and its constructor call -/

theorem runsOne {c : Stmt} : m.Runs [c] s out t ↔ m.Does c.act s out t := by
  constructor
  · intro runs
    cases runs with
    | stop does => exact does
    | cons does rest =>
      cases rest
      exact does
  · intro does
    cases out with
    | none => exact .cons does .nil
    | some x => exact .stop does

theorem putSpare (new : m.fresh s.world o) : m.Spare (· = v) (m.put v ref o s) s :=
  ⟨fun _ other => Function.update_of_ne other _ _,.single ⟨ref,o,new,rfl⟩⟩

structure Joint (v : VarId) (owner : String) (es : List Expr) (alloc : Stmt) (between : List Stmt) (call : Stmt) :
    Prop where
  allocates : ∃ args d, alloc.act = .assign v (.newObject owner args false) d
  calls : call.constructorCall? = some (v,owner,es)
  apart : ∀ c ∈ between, c.mentions v = false
  unread : v ∉ Expr.varsAll es

variable {alloc call : Stmt} {owner : String}

theorem Joint.runs (joint : Joint v owner es alloc between call) (sound : m.Sound s) :
    m.Runs (alloc :: between ++ [call]) s out t ↔
      (∃ x s₁ o, out = some x ∧ m.Runs between s out s₁ ∧ m.fresh s₁.world o ∧ t = m.put v owner o s₁) ∨
        ∃ s₁ o, m.Runs between s none s₁ ∧ m.fresh s₁.world o ∧ m.Does call.act (m.put v owner o s₁) out t := by
  obtain ⟨args,d,allocates⟩ := joint.allocates
  have first : m.Runs (alloc :: between ++ [call]) s out t ↔
      ∃ o, m.fresh s.world o ∧ m.Runs (between ++ [call]) (m.put v owner o s) out t := by
    constructor
    · intro runs
      cases runs with
      | stop does => cases (doesBare.mp (allocates ▸ does)).1
      | cons does rest =>
        obtain ⟨-,o,new,rfl⟩ := doesBare.mp (allocates ▸ does)
        exact ⟨o,new,rest⟩
    · rintro ⟨o,new,rest⟩
      exact .cons (allocates ▸ doesBare.mpr ⟨rfl,o,new,rfl⟩) rest
  rw [first]
  constructor
  · rintro ⟨o,new,runs⟩
    rcases runsAppend.mp runs with ⟨x,stops,runs⟩ | ⟨s₂,runs,rest⟩
    · obtain ⟨s₁,before,still,same⟩ := (Runs.put new sound joint.apart).mp runs
      exact .inl ⟨x,s₁,o,stops,before,still,same⟩
    · obtain ⟨s₁,before,still,same⟩ := (Runs.put new sound joint.apart).mp runs
      exact .inr ⟨s₁,o,before,still,runsOne.mp (same ▸ rest)⟩
  · rintro (⟨x,s₁,o,rfl,runs,still,rfl⟩ | ⟨s₁,o,runs,still,does⟩)
    · have new := (runs.known sound).2 o still
      exact ⟨o,new,runsAppend.mpr (.inl ⟨x,rfl,(Runs.put new sound joint.apart).mpr ⟨s₁,runs,still,rfl⟩⟩)⟩
    · have new := (runs.known sound).2 o still
      exact ⟨o,new,runsAppend.mpr (.inr ⟨_,(Runs.put new sound joint.apart).mpr ⟨s₁,runs,still,rfl⟩,runsOne.mpr does⟩)⟩

theorem runsJoined : m.Runs (between ++ [call]) s out t ↔
    (∃ x, out = some x ∧ m.Runs between s out t) ∨ ∃ s₁, m.Runs between s none s₁ ∧ m.Does call.act s₁ out t := by
  simp only [runsAppend,runsOne]

theorem Joint.callAct (joint : Joint v owner es alloc between call) :
    ∃ f : MethodRef, f.name = "<init>" ∧ f.owner = owner ∧ call.act = .invoke (.callOn .direct f (.var v) es) := by
  have calls := joint.calls
  unfold Stmt.constructorCall? at calls
  split at calls
  · split at calls
    · rename_i f u args act name
      cases calls
      exact ⟨f,name,rfl,act⟩
    · contradiction
  · contradiction

section
variable (joint : Joint v owner es alloc between call) (sound : m.Sound s)
include joint sound

theorem Joint.does (new : m.fresh s.world o) : m.Does call.act (m.put v owner o s) out t ↔
    (∃ x w, out = some x ∧ m.Evals s.env es s.world (.error x) w ∧ m.fresh w o ∧ t = m.put v owner o ⟨s.env,w⟩) ∨
      (∃ x w, out = some x ∧ m.Constructs s.env owner es s.world o (.error x) w ∧
          t = ⟨Function.update s.env v o,w⟩) ∨
        ∃ x w, out = none ∧ m.Constructs s.env owner es s.world o (.ok x) w ∧
          t = ⟨Function.update s.env v o,w⟩ := by
  obtain ⟨f,name,rfl,act⟩ := joint.callAct
  rw [act,doesCall sound new joint.unread name]

omit joint in
theorem Constructs.new (constructs : m.Constructs s.env owner es s.world o r w) : m.fresh s.world o := by
  obtain ⟨_,_,evals,still,-⟩ := constructs
  exact (evals.known fun u _ => sound u).2 o still

theorem Joint.goes : (∃ o, m.fresh s.world o ∧ m.Does call.act (m.put v owner o s) none t) ↔
    m.Does (.assign v (.newObject owner es true) false) s none t := by
  rw [doesNew]
  constructor
  · rintro ⟨o,new,does⟩
    rcases (joint.does sound new).mp does with ⟨x,w,wrong,-⟩ | ⟨x,w,wrong,-⟩ | ⟨x,w,-,constructs,same⟩
    · cases wrong
    · cases wrong
    · exact .inr (.inr ⟨o,x,w,rfl,constructs,same⟩)
  · rintro (⟨x,w,wrong,-⟩ | ⟨o,x,w,wrong,-⟩ | ⟨o,x,w,-,constructs,same⟩)
    · cases wrong
    · cases wrong
    · have new := constructs.new sound
      exact ⟨o,new,(joint.does sound new).mpr (.inr (.inr ⟨x,w,rfl,constructs,same⟩))⟩

theorem Joint.stops (new : m.fresh s.world o) (does : m.Does call.act (m.put v owner o s) (some x) t) :
    ∃ t', m.Does (.assign v (.newObject owner es true) false) s (some x) t' ∧ m.Spare (· = v) t t' := by
  rcases (joint.does sound new).mp does with ⟨x,w,stop,evals,still,rfl⟩ | ⟨x,w,stop,constructs,rfl⟩ | ⟨x,w,wrong,-⟩
  · exact ⟨_,doesNew.mpr (.inl ⟨x,w,stop,evals,rfl⟩),putSpare still⟩
  · exact ⟨_,doesNew.mpr (.inr (.inl ⟨o,x,w,stop,constructs,rfl⟩)),
      fun _ other => Function.update_of_ne other _ _,.refl⟩
  · cases wrong

theorem Joint.stopped (does : m.Does (.assign v (.newObject owner es true) false) s (some x) t) :
    ∃ o t', m.fresh s.world o ∧ m.Does call.act (m.put v owner o s) (some x) t' ∧ m.Spare (· = v) t' t := by
  rcases doesNew.mp does with ⟨x,w,stop,evals,rfl⟩ | ⟨o,x,w,stop,constructs,rfl⟩ | ⟨o,x,w,wrong,-⟩
  · obtain ⟨o,still⟩ := m.room w
    have new := (evals.known fun u _ => sound u).2 o still
    exact ⟨o,_,new,(joint.does sound new).mpr (.inl ⟨x,w,stop,evals,still,rfl⟩),putSpare still⟩
  · have new := constructs.new sound
    exact ⟨o,_,new,(joint.does sound new).mpr (.inr (.inl ⟨x,w,stop,constructs,rfl⟩)),
      fun _ other => Function.update_of_ne other _ _,.refl⟩
  · cases wrong

end

theorem Joint.alike (joint : Joint v owner es alloc between call) : m.Alike (· = v)
    (alloc :: between ++ [call]) (between ++ [⟨0,.assign v (.newObject owner es true) false⟩]) where
  ends s sound t := by
    rw [joint.runs sound,runsJoined]
    simp only [reduceCtorEq,false_and,exists_false,false_or,exists_and_left]
    exact exists_congr fun s₁ => and_congr_right fun runs => joint.goes (runs.known sound).1
  stops s sound x t runs := by
    rcases (joint.runs sound).mp runs with ⟨y,s₁,o,stop,first,still,rfl⟩ | ⟨s₁,o,runs,new,does⟩
    · exact ⟨s₁,runsJoined.mpr (.inl ⟨y,stop,first⟩),putSpare still⟩
    · obtain ⟨t',does,spare⟩ := joint.stops (runs.known sound).1 new does
      exact ⟨t',runsJoined.mpr (.inr ⟨s₁,runs,does⟩),spare⟩
  stopped s sound x t runs := by
    rcases runsJoined.mp runs with ⟨y,stop,runs⟩ | ⟨s₁,runs,does⟩
    · obtain ⟨o,still⟩ := m.room t.world
      exact ⟨_,(joint.runs sound).mpr (.inl ⟨y,t,o,stop,runs,still,rfl⟩),putSpare still⟩
    · obtain ⟨o,t',new,does,spare⟩ := joint.stopped (runs.known sound).1 does
      exact ⟨t',(joint.runs sound).mpr (.inr ⟨s₁,o,runs,new,does⟩),spare⟩

end Universe

namespace Stmt

variable {ss ts rest : List Stmt} {done : List (Option Stmt)} {v : VarId}

def feeds (alloc call : Stmt) : Bool :=
  match call.constructorCall?, alloc.act with
  | some (v,owner,args), .assign w value _ => w == v && isAllocation owner value && (Expr.varsAll args).contains v
  | _, _ => false

/-- One expression in the place of a constructor call, and no longer an allocation before it. -/
inductive Joins : List Stmt → List Stmt → Prop
  | join {v owner args alloc between call} (before after : List Stmt)
      (joint : Universe.Joint v owner args alloc between call) :
      Joins (before ++ (alloc :: between ++ [call]) ++ after)
        (before ++ (between ++ [⟨0,.assign v (.newObject owner args true) false⟩]) ++ after)

/-- A constructor is called on the variable. -/
def Constructed (ss : List Stmt) (v : VarId) : Prop :=
  ∃ c ∈ ss, ∃ owner args, c.constructorCall? = some (v,owner,args)

theorem Joins.constructed (joins : Joins ss ts) (there : Constructed ts v) : Constructed ss v := by
  obtain @⟨u,owner',args',_,_,_,before,after,-⟩ := joins
  obtain ⟨c,member,owner,args,calls⟩ := there
  have other : c ≠ ⟨0,.assign u (.newObject owner' args' true) false⟩ := by
    rintro rfl
    cases calls
  refine ⟨c,?_,owner,args,calls⟩
  simp only [List.mem_append,List.mem_cons,List.not_mem_nil,or_false] at member ⊢
  tauto

theorem Joins.alike {V W : Type} {m : Universe V W} (joins : Joins ss ts) : m.Alike (Constructed ss) ss ts := by
  obtain ⟨before,after,joint⟩ := joins
  exact joint.alike.within.mono fun v same => ⟨_,by simp,_,_,same ▸ joint.calls⟩

theorem isAllocationIff {owner : String} {e : Expr} :
    isAllocation owner e = true ↔ ∃ args, e = .newObject owner args false := by
  constructor
  · intro bare
    unfold isAllocation at bare
    split at bare
    · exact ⟨_,by rw [beq_iff_eq.mp bare]⟩
    · contradiction
  · rintro ⟨args,rfl⟩
    simp [isAllocation]

theorem takeAllocationParts {owner : String} {args : List Expr} {done left : List (Option Stmt)}
    (took : takeAllocation? v owner args done = some left) :
    ∃ front alloc back, done = front ++ some alloc :: back ∧ left = front ++ none :: back ∧
      (∃ es d, alloc.act = .assign v (.newObject owner es false) d) ∧
      (∀ c, some c ∈ front → c.mentions v = false) ∧ (front ≠ [] → v ∉ Expr.varsAll args) := by
  induction done generalizing left with
  | nil => contradiction
  | cons p rest ih =>
    have deeper : ∀ {left}, (takeAllocation? v owner args rest).map (p :: ·) = some left →
        (∀ c, p = some c → c.mentions v = false) → v ∉ Expr.varsAll args →
        ∃ front alloc back, p :: rest = front ++ some alloc :: back ∧ left = front ++ none :: back ∧
          (∃ es d, alloc.act = .assign v (.newObject owner es false) d) ∧
          (∀ c, some c ∈ front → c.mentions v = false) ∧ (front ≠ [] → v ∉ Expr.varsAll args) := by
      intro left more here unread
      obtain ⟨left,took,rfl⟩ := Option.map_eq_some_iff.mp more
      obtain ⟨front,alloc,back,rfl,rfl,bare,apart,-⟩ := ih took
      refine ⟨p :: front,alloc,back,rfl,rfl,bare,fun c member => ?_,fun _ => unread⟩
      exact (List.mem_cons.mp member).elim (fun same => here c same.symm) (apart c)
    unfold takeAllocation? at took
    split at took
    · rename_i w value declares act
      obtain ⟨c,rfl,action⟩ := Option.map_eq_some_iff.mp act
      split at took
      · rename_i same
        split at took
        · rename_i bare
          obtain ⟨es,rfl⟩ := isAllocationIff.mp bare
          cases took
          exact ⟨[],c,rest,rfl,rfl,⟨es,declares,same ▸ action⟩,by simp,fun full => absurd rfl full⟩
        · contradiction
      · rename_i other
        split at took
        · contradiction
        · rename_i free
          simp only [Bool.or_eq_true,List.contains_iff_mem,not_or] at free
          refine deeper took (fun _ same => ?_) free.2
          cases same
          simp [mentions,def?,uses,action,Action.def?,other,free.1]
    · rename_i act unassigned
      split at took
      · contradiction
      · rename_i free
        simp only [Bool.or_eq_true,List.contains_iff_mem,not_or] at free
        refine deeper took (fun c same => ?_) free.2
        subst same
        have undefined : c.act.def? = none := by
          cases action : c.act with
          | assign w value d => exact absurd (congrArg some action) (unassigned w value d)
          | _ => rfl
        simpa [mentions,def?,uses,undefined] using free.1

theorem feedsBare {alloc call : Stmt} (fed : feeds alloc call = true) : ∃ v owner args es d,
    alloc.act = .assign v (.newObject owner es false) d ∧ call.constructorCall? = some (v,owner,args) ∧
      v ∈ Expr.varsAll args := by
  unfold feeds at fed
  split at fed
  · rename_i v owner args w value d calls assigns
    simp only [Bool.and_eq_true,beq_iff_eq,List.contains_iff_mem] at fed
    obtain ⟨⟨rfl,bare⟩,reads⟩ := fed
    obtain ⟨es,rfl⟩ := isAllocationIff.mp bare
    exact ⟨w,owner,args,es,d,assigns,calls,reads⟩
  · contradiction

def standing (done : List (Option Stmt)) (rest : List Stmt) : List Stmt := done.reverse.filterMap id ++ rest

theorem standingCons {s : Stmt} : standing done (s :: rest) = standing (some s :: done) rest := by
  simp [standing]

/-- No call is fed by the statement before it. -/
def Unfed (ss : List Stmt) : Prop := ss.IsChain fun alloc call => feeds alloc call = false

theorem foldConstructorsJoins (chain : Unfed rest)
    (last : ∀ p ∈ done.head?.join, ∀ c ∈ rest.head?, feeds p c = false) :
    Relation.ReflTransGen Joins (standing done rest) (standing (foldConstructorsFrom done rest) []) := by
  induction rest generalizing done with
  | nil => exact .refl
  | cons c rest ih =>
    obtain ⟨next,chain⟩ := List.isChain_cons.mp chain
    have kept : Relation.ReflTransGen Joins (standing done (c :: rest))
        (standing (foldConstructorsFrom (some c :: done) rest) []) := by
      rw [standingCons]
      refine ih chain fun p same c' head => ?_
      cases same
      exact next c' head
    unfold foldConstructorsFrom
    split
    · exact kept
    · rename_i v owner args calls
      split
      · rename_i left took
        obtain ⟨front,alloc,back,rfl,rfl,⟨es,d,bare⟩,apart,unread⟩ := takeAllocationParts took
        have joint : Universe.Joint v owner args alloc (front.reverse.filterMap id) c := by
          refine ⟨⟨es,d,bare⟩,calls,fun c member => apart c (by simpa using member),fun reads => ?_⟩
          cases front with
          | nil =>
            have fed := last alloc rfl c rfl
            simp [feeds,calls,bare,isAllocation,reads] at fed
          | cons p front => exact unread (List.cons_ne_nil p front) reads
        have joined := Joins.join (back.reverse.filterMap id) rest joint
        refine .head ?_ (ih chain fun p same c' _ => ?_)
        · simpa [standing] using joined
        · cases same
          refine Bool.eq_false_iff.mpr fun fed => ?_
          obtain ⟨_,_,_,_,_,wrong,-⟩ := feedsBare fed
          cases wrong
      · exact kept

theorem joinsAlike {V W : Type} {m : Universe V W} (joins : Relation.ReflTransGen Joins ss ts) :
    m.Alike (Constructed ss) ss ts := by
  induction joins using Relation.ReflTransGen.head_induction_on with
  | refl => exact .refl _
  | head first _ ih => exact first.alike.trans (ih.mono fun v => first.constructed)

/-- Folding joins allocations and the constructor calls on their objects, where nothing in between mentions the
variable and the arguments do not, unless a call is fed by the allocation right before it. The statements run as
before. Where something raised ends the run, there may be bare objects less, and the variables that a
constructor is called on may differ. -/
theorem foldConstructorsAlike (unfed : Unfed ss) : Relation.ReflTransGen Joins ss (foldConstructors ss) ∧
    ∀ {V W : Type} (m : Universe V W), m.Alike (Constructed ss) ss (foldConstructors ss) := by
  have all : Relation.ReflTransGen Joins (standing [] ss) (standing (foldConstructorsFrom [] ss) []) :=
    foldConstructorsJoins unfed (by simp)
  have joins : Relation.ReflTransGen Joins ss (foldConstructors ss) := by
    simpa [standing,foldConstructors] using all
  exact ⟨joins,fun m => joinsAlike joins⟩

end Stmt

/-! ### Objects by number -/

@[ext] structure Heap where
  cells : Nat → Option (String × Option (List (Option Nat)))
  bounded : ∃ k, ∀ n, k ≤ n → cells n = none

namespace Heap

variable {h h' : Heap} {o : Nat} {x y : Option Nat} {xs : List (Option Nat)} {r : Except (Option Nat) (Option Nat)}
  {q : Request} {ref : String}

def set (h : Heap) (o : Nat) (cell : String × Option (List (Option Nat))) : Heap :=
  ⟨Function.update h.cells o (some cell),by
    obtain ⟨k,free⟩ := h.bounded
    refine ⟨max k (o + 1),fun n above => ?_⟩
    rw [Function.update_of_ne (by omega)]
    exact free n (by omega)⟩

def Fresh (h : Heap) (x : Option Nat) : Prop := ∃ n, x = some n ∧ h.cells n = none

def place (ref : String) (x : Option Nat) (h : Heap) : Heap := x.elim h fun o => h.set o (ref,none)

def Acts (q : Request) (xs : List (Option Nat)) (h : Heap) (r : Except (Option Nat) (Option Nat)) (h' : Heap) : Prop :=
  match q, xs with
  | .construct owner, some o :: args =>
    if h.cells o = some (owner,none) then r = .ok none ∧ h' = h.set o (owner,some args) else r = .error none ∧ h' = h
  | _, _ => r = .ok none ∧ h' = h

theorem freshSet {cell : String × Option (List (Option Nat))} :
    (h.set o cell).Fresh x ↔ x ≠ some o ∧ h.Fresh x := by
  constructor
  · rintro ⟨n,rfl,free⟩
    by_cases same : n = o
    · subst same
      simp [set] at free
    · exact ⟨by simpa using same,n,rfl,by simpa [set,same] using free⟩
  · rintro ⟨other,n,rfl,free⟩
    have other : n ≠ o := by simpa using other
    exact ⟨n,rfl,by simpa [set,other] using free⟩

theorem freshPlaced : (place ref x h).Fresh y ↔ y ≠ x ∧ h.Fresh y := by
  cases x with
  | some o => exact freshSet
  | none =>
    refine ⟨fun new => ⟨?_,new⟩,And.right⟩
    rintro rfl
    obtain ⟨n,wrong,-⟩ := new
    cases wrong

theorem setSwap {p : Nat} {cell cell' : String × Option (List (Option Nat))} (apart : o ≠ p) :
    (h.set p cell').set o cell = (h.set o cell).set p cell' :=
  Heap.ext (Function.update_comm apart.symm ..)

theorem placeSwap {ref' : String} (apart : x ≠ y) :
    place ref x (place ref' y h) = place ref' y (place ref x h) := by
  cases x with
  | none => rfl
  | some o =>
    cases y with
    | none => rfl
    | some p => exact setSwap fun same => apart (congrArg some same)

theorem actsBare (bare : h.cells o = some (ref,none)) :
    Acts (.construct ref) (some o :: xs) h r h' ↔ r = .ok none ∧ h' = h.set o (ref,some xs) := by
  simp [Acts,bare]

theorem Acts.known (acts : Acts q xs h r h') : ¬h'.Fresh (Universe.value r) ∧ ∀ y, h'.Fresh y → h.Fresh y := by
  have nothing : ∀ h : Heap, ¬h.Fresh none := fun _ ⟨_,wrong,_⟩ => by cases wrong
  unfold Acts at acts
  split at acts
  · split at acts
    · obtain ⟨rfl,rfl⟩ := acts
      exact ⟨nothing _,fun y new => (freshSet.mp new).2⟩
    · obtain ⟨rfl,rfl⟩ := acts
      exact ⟨nothing _,fun _ => id⟩
  · obtain ⟨rfl,rfl⟩ := acts
    exact ⟨nothing _,fun _ => id⟩

theorem actsPlaced (new : h.Fresh x) (known : ∀ y ∈ xs, ¬h.Fresh y) :
    Acts q xs (place ref x h) r h' ↔ ∃ h₁, Acts q xs h r h₁ ∧ h₁.Fresh x ∧ h' = place ref x h₁ := by
  obtain ⟨n,rfl,free⟩ := new
  have new : h.Fresh (some n) := ⟨n,rfl,free⟩
  unfold Acts
  split
  · rename_i owner o args
    have apart : o ≠ n := by
      rintro rfl
      exact known _ (List.mem_cons_self ..) new
    have same : (place ref (some n) h).cells o = h.cells o := Function.update_of_ne apart _ _
    rw [same]
    split
    · constructor
      · rintro ⟨rfl,rfl⟩
        exact ⟨_,⟨rfl,rfl⟩,freshSet.mpr ⟨by simpa using apart.symm,new⟩,setSwap apart⟩
      · rintro ⟨h₁,⟨rfl,rfl⟩,-,rfl⟩
        exact ⟨rfl,setSwap apart.symm⟩
    · constructor
      · rintro ⟨rfl,rfl⟩
        exact ⟨h,⟨rfl,rfl⟩,new,rfl⟩
      · rintro ⟨h₁,⟨rfl,rfl⟩,-,rfl⟩
        exact ⟨rfl,rfl⟩
  · constructor
    · rintro ⟨rfl,rfl⟩
      exact ⟨h,⟨rfl,rfl⟩,new,rfl⟩
    · rintro ⟨h₁,⟨rfl,rfl⟩,-,rfl⟩
      exact ⟨rfl,rfl⟩

def world : Universe (Option Nat) Heap where
  acts := Acts
  fresh := Fresh
  place := place
  placed := freshPlaced
  swap := placeSwap
  known acts _ := acts.known
  overlooks := actsPlaced
  room h := by
    obtain ⟨k,free⟩ := h.bounded
    exact ⟨some k,k,rfl,free k (Nat.le_refl k)⟩

def empty : Heap := ⟨fun _ => none,0,fun _ _ => rfl⟩

end Heap

namespace Stmt

def constructs (v : VarId) (owner : String) (args : List Expr) : Stmt :=
  ⟨0,.invoke (.callOn .direct ⟨owner,"<init>",[],"V"⟩ (.var v) args)⟩

def allocates (v : VarId) (owner : String) : Stmt := ⟨0,.assign v (.newObject owner [] false) false⟩

def nested : List Stmt :=
  [allocates 0 "LOuter;",allocates 1 "LInner;",constructs 1 "LInner;" [.const "I" 7],
    constructs 0 "LOuter;" [.var 1]]

def selfish : List Stmt := [allocates 0 "LTest;",constructs 0 "LTest;" [.var 0]]

theorem selfishRuns : Heap.world.Runs selfish ⟨fun _ => none,Heap.empty⟩ none
    ⟨Function.update (fun _ => none) 0 (some 0),
      (Heap.empty.set 0 ("LTest;",none)).set 0 ("LTest;",some [some 0])⟩ := by
  have new : Heap.empty.Fresh (some 0) := ⟨0,rfl,rfl⟩
  refine .cons (Universe.doesBare.mpr ⟨rfl,some 0,new,rfl⟩) (Universe.runsOne.mpr ?_)
  refine Universe.doesInvoke.mpr (.inr ⟨[none],_,rfl,Universe.evalsOne.mpr (.inr ?_),rfl⟩)
  refine ⟨[some 0,some 0],Heap.empty.set 0 ("LTest;",none),.ok none,?_,.act rfl ?_,rfl⟩
  · exact Universe.evalsVar.mpr ⟨.ok [some 0],Universe.evalsVar.mpr ⟨.ok [],.nil,rfl⟩,rfl⟩
  · exact ⟨rfl,rfl⟩

/-- The nested objects are constructed as before; the one that takes itself then takes what was in the variable
before. -/
theorem foldConstructorsAlikeNested : Unfed nested ∧ Heap.world.Alike (Constructed nested) nested
      [⟨0,.assign 1 (.newObject "LInner;" [.const "I" 7] true) false⟩,
        ⟨0,.assign 0 (.newObject "LOuter;" [.var 1] true) false⟩] ∧
    foldConstructors selfish = [⟨0,.assign 0 (.newObject "LTest;" [.var 0] true) false⟩] ∧
    ¬Heap.world.Alike (Constructed selfish) selfish (foldConstructors selfish) := by
  have unfed : Unfed nested := by
    simp [Unfed,nested,feeds,allocates,constructs,constructorCall?,isAllocation,Expr.varsAll,Expr.vars]
  have folded : foldConstructors selfish = [⟨0,.assign 0 (.newObject "LTest;" [.var 0] true) false⟩] := by rfl
  refine ⟨unfed,(foldConstructorsAlike unfed).2 Heap.world,folded,fun alike => ?_⟩
  rw [folded] at alike
  have sound : Heap.world.Sound ⟨fun _ => none,Heap.empty⟩ := fun _ ⟨_,wrong,_⟩ => by cases wrong
  have runs := (alike.ends _ sound _).mp selfishRuns
  rcases Universe.doesNew.mp (Universe.runsOne.mp runs) with
    ⟨_,_,wrong,-⟩ | ⟨_,_,_,wrong,-⟩ | ⟨o,x,w,-,⟨xs,w₁,evals,-,acts⟩,same⟩
  · cases wrong
  · cases wrong
  · obtain ⟨_,rest,values⟩ := Universe.evalsVar.mp evals
    obtain ⟨rfl,rfl⟩ := Universe.evalsNil.mp rest
    cases values
    obtain ⟨env,world⟩ := Scene.mk.inj same
    have here : some 0 = o := by simpa using congrFun env 0
    subst here
    have acted : Heap.Acts (.construct "LTest;") [some 0,none] (Heap.empty.set 0 ("LTest;",none)) (.ok x) w := acts
    obtain ⟨-,rfl⟩ := (Heap.actsBare (by simp [Heap.set])).mp acted
    have cell := congrFun (congrArg Heap.cells world) 0
    simp [Heap.set] at cell

end Stmt
end RegCode
