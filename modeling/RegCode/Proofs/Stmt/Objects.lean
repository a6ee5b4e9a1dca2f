import RegCode.Stmt
import Mathlib.Logic.Function.Basic
import Mathlib.Logic.Relation

/-! What statements do to variables and objects. An allocation takes a name that nothing has yet and puts a
bare object there. All else that calls, stores and operators do is left to the runtime, which has no way to
a bare object but by its name. -/
namespace RegCode

namespace Universe

inductive Request where
  | compute (e : Expr)
  | construct (owner : String)
  | perform (a : Action)

@[simp] def value {V : Type} : Except V V → V
  | .ok x => x
  | .error x => x

@[simp] def values {V : Type} : Except V (List V) → List V
  | .ok xs => xs
  | .error x => [x]

@[simp] def raised? {V : Type} : Except V V → Option V
  | .ok _ => none
  | .error x => some x

end Universe

open Universe (Request value values raised?)

/-- Worlds of objects, and what can become of a request in a world. -/
structure Universe (V W : Type) where
  acts : Request → List V → W → Except V V → W → Prop
  fresh : W → V → Prop
  place : String → V → W → W
  placed {ref : String} {o x : V} {w : W} : fresh (place ref o w) x ↔ x ≠ o ∧ fresh w x
  swap {ref ref' : String} {o p : V} {w : W} : o ≠ p →
    place ref o (place ref' p w) = place ref' p (place ref o w)
  known {q : Request} {xs : List V} {w w' : W} {r : Except V V} : acts q xs w r w' →
    (∀ x ∈ xs, ¬fresh w x) → ¬fresh w' (value r) ∧ ∀ x, fresh w' x → fresh w x
  overlooks {q : Request} {xs : List V} {ref : String} {o : V} {w w' : W} {r : Except V V} : fresh w o →
    (∀ x ∈ xs, ¬fresh w x) →
    (acts q xs (place ref o w) r w' ↔ ∃ w₁, acts q xs w r w₁ ∧ fresh w₁ o ∧ w' = place ref o w₁)
  room (w : W) : ∃ o, fresh w o

namespace Expr

def parts : Expr → List Expr
  | var _ | const _ _ | str _ | classRef _ | caught _ | staticField _ | newObject _ _ false => []
  | binary _ l r _ | compare l r _ _ | test _ l r | element l r _ => [l,r]
  | unary _ e _ | cast _ e _ | testZero _ e | instanceOf e _ | field _ e | length e | newArray _ e => [e]
  | newObject _ es true | filled _ es | call _ _ es => es
  | callOn _ _ e es => e :: es

def request? : Expr → Option Request
  | var _ | newObject _ _ _ => none
  | callOn kind m e es =>
    some (if kind = .direct ∧ m.name = "<init>" then .construct m.owner else .compute (callOn kind m e es))
  | e => some (.compute e)

theorem readsParts {e : Expr} {v : VarId} (reads : v ∈ varsAll e.parts) : v ∈ e.vars := by
  cases e with
  | newObject ref es init => cases init <;> simp_all [parts,vars,varsAll]
  | _ => simp_all [parts,vars,varsAll]

end Expr

namespace Action

def request? (a : Action) : Option Request :=
  match a with
  | assign _ _ _ | declare _ | invoke _ => none
  | _ => some (.perform a)

end Action

@[ext] structure Scene (V W : Type) where
  env : VarId → V
  world : W

namespace Universe

variable {V W : Type}

section
variable (m : Universe V W)

def Knows (w : W) (xs : List V) : Prop := ∀ x ∈ xs, ¬m.fresh w x

def Grows (w w' : W) : Prop := ∀ x, m.fresh w' x → m.fresh w x

inductive Computes (ρ : VarId → V) : Expr → List V → W → Except V V → W → Prop
  | var {v xs w} : Computes ρ (.var v) xs w (.ok (ρ v)) w
  | allocate {ref es o xs w} (new : m.fresh w o) :
      Computes ρ (.newObject ref es false) xs w (.ok o) (m.place ref o w)
  | build {ref es o xs w r w'} (new : m.fresh w o)
      (builds : m.acts (.construct ref) (o :: xs) (m.place ref o w) r w') :
      Computes ρ (.newObject ref es true) xs w (r.map fun _ => o) w'
  | act {e q xs w r w'} (asks : e.request? = some q) (acts : m.acts q xs w r w') : Computes ρ e xs w r w'

inductive Evals (ρ : VarId → V) : List Expr → W → Except V (List V) → W → Prop
  | nil {w} : Evals ρ [] w (.ok []) w
  | inner {e es w x w'} (parts : Evals ρ e.parts w (.error x) w') : Evals ρ (e :: es) w (.error x) w'
  | raise {e es w xs w₁ x w'} (parts : Evals ρ e.parts w (.ok xs) w₁)
      (raises : Computes m ρ e xs w₁ (.error x) w') : Evals ρ (e :: es) w (.error x) w'
  | cons {e es w xs w₁ x w₂ r w'} (parts : Evals ρ e.parts w (.ok xs) w₁)
      (gives : Computes m ρ e xs w₁ (.ok x) w₂) (rest : Evals ρ es w₂ r w') :
      Evals ρ (e :: es) w (r.map (x :: ·)) w'

def assigned (ρ : VarId → V) : Action → List V → VarId → V
  | .assign v _ _, x :: _ => Function.update ρ v x
  | _, _ => ρ

/-- An action, with what it raises, if anything. -/
inductive Does : Action → Scene V W → Option V → Scene V W → Prop
  | raise {a s x w} (evals : Evals m s.env a.exprs s.world (.error x) w) : Does a s (some x) ⟨s.env,w⟩
  | quiet {a s xs w} (asks : a.request? = none) (evals : Evals m s.env a.exprs s.world (.ok xs) w) :
      Does a s none ⟨assigned s.env a xs,w⟩
  | act {a q s xs w r w'} (asks : a.request? = some q) (evals : Evals m s.env a.exprs s.world (.ok xs) w)
      (acts : m.acts q xs w r w') : Does a s (raised? r) ⟨s.env,w'⟩

inductive Runs : List Stmt → Scene V W → Option V → Scene V W → Prop
  | nil {s} : Runs [] s none s
  | stop {c ss s x t} (does : Does m c.act s (some x) t) : Runs (c :: ss) s (some x) t
  | cons {c ss s s₁ out t} (does : Does m c.act s none s₁) (rest : Runs ss s₁ out t) : Runs (c :: ss) s out t

def Sound (s : Scene V W) : Prop := ∀ v, ¬m.fresh s.world (s.env v)

def put (v : VarId) (ref : String) (o : V) (s : Scene V W) : Scene V W :=
  ⟨Function.update s.env v o,m.place ref o s.world⟩

end

variable {m : Universe V W} {ρ ρ' : VarId → V} {e : Expr} {es : List Expr} {xs : List V} {w w' : W}
  {r : Except V V} {rs : Except V (List V)} {a : Action} {ss ts : List Stmt} {s t : Scene V W} {out : Option V}
  {ref : String} {o x : V} {v : VarId}

theorem Grows.keeps (grows : m.Grows w w') (known : m.Knows w xs) : m.Knows w' xs :=
  fun x member new => known x member (grows x new)

theorem placedGrows : m.Grows w (m.place ref o w) := fun _ new => (m.placed.mp new).2

theorem placedKnown : ¬m.fresh (m.place ref o w) o := fun new => (m.placed.mp new).1 rfl

theorem placedOperands (operands : m.Knows w xs) : m.Knows (m.place ref o w) (o :: xs) := fun x member =>
  (List.mem_cons.mp member).elim (fun same => same ▸ placedKnown) (placedGrows.keeps operands x)

theorem Computes.known (computes : m.Computes ρ e xs w r w') (reads : ∀ v ∈ e.vars, ¬m.fresh w (ρ v))
    (operands : m.Knows w xs) : ¬m.fresh w' (value r) ∧ m.Grows w w' := by
  cases computes with
  | var => exact ⟨reads _ (by simp [Expr.vars]),fun _ => id⟩
  | allocate => exact ⟨placedKnown,placedGrows⟩
  | @build ref es o xs w r w' new builds =>
    obtain ⟨result,grows⟩ := m.known builds (placedOperands operands)
    refine ⟨?_,fun x new => placedGrows x (grows x new)⟩
    cases r with
    | ok y => exact fun new => placedKnown (grows o new)
    | error y => exact result
  | act asks acts => exact m.known acts operands

theorem Evals.known (evals : m.Evals ρ es w rs w') (reads : ∀ v ∈ Expr.varsAll es, ¬m.fresh w (ρ v)) :
    m.Knows w' (values rs) ∧ m.Grows w w' := by
  induction evals with
  | nil => exact ⟨by simp [Knows],fun _ => id⟩
  | inner parts ih => exact ih fun v here => reads v (List.mem_append_left _ (Expr.readsParts here))
  | raise parts raises ih =>
    obtain ⟨operands,grows⟩ := ih fun v here => reads v (List.mem_append_left _ (Expr.readsParts here))
    obtain ⟨result,further⟩ := raises.known
      (fun v here new => reads v (List.mem_append_left _ here) (grows _ new)) operands
    exact ⟨by simpa [Knows] using result,fun x new => grows x (further x new)⟩
  | @cons e es w xs w₁ x w₂ r w' parts gives rest ih ih' =>
    obtain ⟨operands,grows⟩ := ih fun v here => reads v (List.mem_append_left _ (Expr.readsParts here))
    obtain ⟨result,further⟩ := gives.known
      (fun v here new => reads v (List.mem_append_left _ here) (grows _ new)) operands
    obtain ⟨others,last⟩ := ih' fun v here new =>
      reads v (List.mem_append_right _ here) (grows _ (further _ new))
    refine ⟨?_,fun x new => grows x (further x (last x new))⟩
    cases r with
    | error y => exact others
    | ok ys =>
      exact fun y member => (List.mem_cons.mp member).elim (fun same new => result (last _ (same ▸ new)))
        (others y)

theorem Does.known (does : m.Does a s out t) (sound : m.Sound s) :
    m.Sound t ∧ m.Grows s.world t.world := by
  cases does with
  | raise evals =>
    have grows := (evals.known fun v _ => sound v).2
    exact ⟨fun v new => sound v (grows _ new),grows⟩
  | @quiet _ xs w asks evals =>
    obtain ⟨operands,grows⟩ := evals.known fun v _ => sound v
    refine ⟨fun v new => ?_,grows⟩
    have old : ∀ u, ¬m.fresh w (s.env u) := fun u new => sound u (grows _ new)
    unfold assigned at new
    split at new
    · rename_i u _ _ y _
      by_cases same : v = u
      · subst same
        exact operands y (by simp) (by simpa using new)
      · exact old v (by simpa [same] using new)
    · exact old v new
  | act asks evals acts =>
    obtain ⟨operands,grows⟩ := evals.known fun v _ => sound v
    obtain ⟨-,further⟩ := m.known acts operands
    exact ⟨fun v new => sound v (grows _ (further _ new)),fun x new => grows x (further x new)⟩

theorem Runs.known (runs : m.Runs ss s out t) (sound : m.Sound s) :
    m.Sound t ∧ m.Grows s.world t.world := by
  induction runs with
  | nil => exact ⟨sound,fun _ => id⟩
  | stop does => exact does.known sound
  | cons does rest ih =>
    obtain ⟨middle,grows⟩ := does.known sound
    obtain ⟨last,further⟩ := ih middle
    exact ⟨last,fun x new => grows x (further x new)⟩

theorem Computes.placed (new : m.fresh w o) (reads : ∀ v ∈ e.vars, ¬m.fresh w (ρ v)) (operands : m.Knows w xs) :
    m.Computes ρ e xs (m.place ref o w) r w' ↔
      ∃ w₁, m.Computes ρ e xs w r w₁ ∧ m.fresh w₁ o ∧ w' = m.place ref o w₁ := by
  constructor
  · generalize start : m.place ref o w = w₀
    intro computes
    cases computes with
    | var => exact ⟨w,.var,new,start.symm⟩
    | allocate other =>
      subst start
      obtain ⟨apart,free⟩ := m.placed.mp other
      exact ⟨_,.allocate free,m.placed.mpr ⟨apart.symm,new⟩,m.swap apart⟩
    | build other builds =>
      subst start
      obtain ⟨apart,free⟩ := m.placed.mp other
      rw [m.swap apart,m.overlooks (m.placed.mpr ⟨apart.symm,new⟩) (placedOperands operands)] at builds
      obtain ⟨w₁,builds,still,rfl⟩ := builds
      exact ⟨w₁,.build free builds,still,rfl⟩
    | act asks acts =>
      subst start
      obtain ⟨w₁,same,still,rfl⟩ := (m.overlooks new operands).mp acts
      exact ⟨w₁,.act asks same,still,rfl⟩
  · rintro ⟨w₁,computes,still,rfl⟩
    cases computes with
    | var => exact .var
    | allocate free =>
      have apart := (m.placed.mp still).1
      rw [m.swap apart]
      exact .allocate (m.placed.mpr ⟨apart.symm,free⟩)
    | @build ref' _ p _ _ _ _ free builds =>
      have early : m.fresh (m.place ref' p w) o := (m.known builds (placedOperands operands)).2 o still
      have apart := (m.placed.mp early).1
      refine .build (m.placed.mpr ⟨apart.symm,free⟩) ?_
      rw [m.swap apart.symm,m.overlooks early (placedOperands operands)]
      exact ⟨w₁,builds,still,rfl⟩
    | act asks acts => exact .act asks ((m.overlooks new operands).mpr ⟨w₁,acts,still,rfl⟩)

theorem Evals.overlooks (evals : m.Evals ρ es (m.place ref o w) rs w') (new : m.fresh w o)
    (reads : ∀ v ∈ Expr.varsAll es, ¬m.fresh w (ρ v)) :
    ∃ w₁, m.Evals ρ es w rs w₁ ∧ m.fresh w₁ o ∧ w' = m.place ref o w₁ := by
  generalize start : m.place ref o w = w₀ at evals
  induction evals generalizing w with
  | nil => exact ⟨w,.nil,new,start.symm⟩
  | inner _ ih =>
    obtain ⟨w₁,parts,still,same⟩ := ih new (fun v here => reads v (List.mem_append_left _ (Expr.readsParts here))) start
    exact ⟨w₁,.inner parts,still,same⟩
  | raise _ raises ih =>
    have inner := fun v here => reads v (List.mem_append_left _ (Expr.readsParts here))
    obtain ⟨w₁,parts,still,same⟩ := ih new inner start
    obtain ⟨operands,grows⟩ := parts.known inner
    subst same
    obtain ⟨w₂,stops,still,same⟩ := (Computes.placed still
      (fun v here new => reads v (List.mem_append_left _ here) (grows _ new)) operands).mp raises
    exact ⟨w₂,.raise parts stops,still,same⟩
  | cons _ gives _ ih ih' =>
    have inner := fun v here => reads v (List.mem_append_left _ (Expr.readsParts here))
    obtain ⟨w₁,parts,still,same⟩ := ih new inner start
    obtain ⟨operands,grows⟩ := parts.known inner
    subst same
    have read := fun v here new => reads v (List.mem_append_left _ here) (grows _ new)
    obtain ⟨w₂,comes,still,same⟩ := (Computes.placed still read operands).mp gives
    have further := (comes.known read operands).2
    obtain ⟨w₃,rest,still,same⟩ := ih' still
      (fun v here new => reads v (List.mem_append_right _ here) (grows _ (further _ new))) same.symm
    exact ⟨w₃,.cons parts comes rest,still,same⟩

theorem Evals.besides (evals : m.Evals ρ es w rs w') (still : m.fresh w' o)
    (reads : ∀ v ∈ Expr.varsAll es, ¬m.fresh w (ρ v)) : m.Evals ρ es (m.place ref o w) rs (m.place ref o w') := by
  induction evals with
  | nil => exact .nil
  | inner parts ih => exact .inner (ih still fun v here => reads v (List.mem_append_left _ (Expr.readsParts here)))
  | raise parts raises ih =>
    have inner := fun v here => reads v (List.mem_append_left _ (Expr.readsParts here))
    obtain ⟨operands,grows⟩ := parts.known inner
    have read := fun v here new => reads v (List.mem_append_left _ here) (grows _ new)
    have early := (raises.known read operands).2 o still
    exact .raise (ih early inner) ((Computes.placed early read operands).mpr ⟨_,raises,still,rfl⟩)
  | cons parts gives rest ih ih' =>
    have inner := fun v here => reads v (List.mem_append_left _ (Expr.readsParts here))
    obtain ⟨operands,grows⟩ := parts.known inner
    have read := fun v here new => reads v (List.mem_append_left _ here) (grows _ new)
    have further := (gives.known read operands).2
    have outer := fun v here new => reads v (List.mem_append_right _ here) (grows _ (further _ new))
    have middle := (rest.known outer).2 o still
    exact .cons (ih (further o middle) inner)
      ((Computes.placed (further o middle) read operands).mpr ⟨_,gives,middle,rfl⟩) (ih' still outer)

theorem Evals.placed (new : m.fresh w o) (reads : ∀ v ∈ Expr.varsAll es, ¬m.fresh w (ρ v)) :
    m.Evals ρ es (m.place ref o w) rs w' ↔
      ∃ w₁, m.Evals ρ es w rs w₁ ∧ m.fresh w₁ o ∧ w' = m.place ref o w₁ :=
  ⟨fun evals => evals.overlooks new reads,fun ⟨_,evals,still,same⟩ => same ▸ evals.besides still reads⟩

theorem Computes.agree (computes : m.Computes ρ e xs w r w') (same : ∀ v ∈ e.vars, ρ v = ρ' v) :
    m.Computes ρ' e xs w r w' := by
  cases computes with
  | @var v => exact same v (by simp [Expr.vars]) ▸ .var
  | allocate new => exact .allocate new
  | build new builds => exact .build new builds
  | act asks acts => exact .act asks acts

theorem Evals.agree (evals : m.Evals ρ es w rs w') (same : ∀ v ∈ Expr.varsAll es, ρ v = ρ' v) :
    m.Evals ρ' es w rs w' := by
  induction evals with
  | nil => exact .nil
  | inner parts ih => exact .inner (ih fun v here => same v (List.mem_append_left _ (Expr.readsParts here)))
  | raise parts raises ih =>
    exact .raise (ih fun v here => same v (List.mem_append_left _ (Expr.readsParts here)))
      (raises.agree fun v here => same v (List.mem_append_left _ here))
  | cons parts gives rest ih ih' =>
    exact .cons (ih fun v here => same v (List.mem_append_left _ (Expr.readsParts here)))
      (gives.agree fun v here => same v (List.mem_append_left _ here))
      (ih' fun v here => same v (List.mem_append_right _ here))

variable {c : Stmt}

theorem assignedPut (apart : a.def? ≠ some v) :
    assigned (Function.update ρ v o) a xs = Function.update (assigned ρ a xs) v o := by
  unfold assigned
  split
  · rename_i u _ _ y _
    have other : v ≠ u := fun same => apart (congrArg some same.symm)
    exact Function.update_comm other o y ρ
  · rfl

variable (new : m.fresh s.world o) (sound : m.Sound s)
include new sound

theorem Evals.put (unread : v ∉ Expr.varsAll es) : m.Evals (m.put v ref o s).env es (m.put v ref o s).world rs w' ↔
    ∃ w₁, m.Evals s.env es s.world rs w₁ ∧ m.fresh w₁ o ∧ w' = m.place ref o w₁ := by
  have same : ∀ u ∈ Expr.varsAll es, (m.put v ref o s).env u = s.env u := fun u here =>
    Function.update_of_ne (by rintro rfl; exact unread here) _ _
  rw [← Evals.placed new fun u _ => sound u]
  exact ⟨fun evals => evals.agree same,fun evals => evals.agree fun u here => (same u here).symm⟩

theorem Does.put (apart : c.mentions v = false) : m.Does c.act (m.put v ref o s) out t ↔
    ∃ s₁, m.Does c.act s out s₁ ∧ m.fresh s₁.world o ∧ t = m.put v ref o s₁ := by
  obtain ⟨undefined,unread⟩ : c.act.def? ≠ some v ∧ v ∉ Expr.varsAll c.act.exprs := by
    simpa [Stmt.mentions,Stmt.def?,Stmt.uses,Action.uses] using apart
  constructor
  · intro does
    cases does with
    | raise evals =>
      obtain ⟨w₁,before,still,same⟩ := (Evals.put new sound unread).mp evals
      exact ⟨_,.raise before,still,congrArg (Scene.mk _) same⟩
    | quiet asks evals =>
      obtain ⟨w₁,before,still,same⟩ := (Evals.put new sound unread).mp evals
      exact ⟨_,.quiet asks before,still,congrArg₂ Scene.mk (assignedPut undefined) same⟩
    | act asks evals acts =>
      obtain ⟨w₁,before,still,same⟩ := (Evals.put new sound unread).mp evals
      obtain ⟨operands,-⟩ := before.known fun u _ => sound u
      obtain ⟨w₂,acts,still,same⟩ := (m.overlooks still operands).mp (same ▸ acts)
      exact ⟨_,.act asks before acts,still,congrArg (Scene.mk _) same⟩
  · rintro ⟨s₁,does,still,rfl⟩
    cases does with
    | raise evals => exact .raise ((Evals.put new sound unread).mpr ⟨_,evals,still,rfl⟩)
    | quiet asks evals =>
      have placed : m.Evals (m.put v ref o s).env c.act.exprs (m.put v ref o s).world _ _ :=
        (Evals.put new sound unread).mpr ⟨_,evals,still,rfl⟩
      have does := Does.quiet asks placed
      rwa [Universe.put,assignedPut undefined] at does
    | act asks evals acts =>
      obtain ⟨operands,-⟩ := evals.known fun u _ => sound u
      have early := (m.known acts operands).2 o still
      exact .act asks ((Evals.put new sound unread).mpr ⟨_,evals,early,rfl⟩)
        ((m.overlooks early operands).mpr ⟨_,acts,still,rfl⟩)

theorem Runs.put (apart : ∀ c ∈ ss, c.mentions v = false) : m.Runs ss (m.put v ref o s) out t ↔
    ∃ s₁, m.Runs ss s out s₁ ∧ m.fresh s₁.world o ∧ t = m.put v ref o s₁ := by
  induction ss generalizing s with
  | nil =>
    constructor
    · intro runs
      cases runs
      exact ⟨s,.nil,new,rfl⟩
    · rintro ⟨s₁,runs,-,rfl⟩
      cases runs
      exact .nil
  | cons c ss ih =>
    obtain ⟨here,later⟩ := List.forall_mem_cons.mp apart
    constructor
    · intro runs
      cases runs with
      | stop does =>
        obtain ⟨s₁,stops,still,same⟩ := (Does.put new sound here).mp does
        exact ⟨s₁,.stop stops,still,same⟩
      | cons does rest =>
        obtain ⟨s₁,goes,still,same⟩ := (Does.put new sound here).mp does
        obtain ⟨s₂,rest,last,same⟩ := (ih still (goes.known sound).1 later).mp (same ▸ rest)
        exact ⟨s₂,.cons goes rest,last,same⟩
    · rintro ⟨s₁,runs,still,rfl⟩
      cases runs with
      | stop does => exact .stop ((Does.put new sound here).mpr ⟨_,does,still,rfl⟩)
      | cons does rest =>
        have middle := (does.known sound).1
        have early := (rest.known middle).2 o still
        exact .cons ((Does.put new sound here).mpr ⟨_,does,early,rfl⟩)
          ((ih early middle later).mpr ⟨_,rest,still,rfl⟩)

omit new sound

theorem runsAppend : m.Runs (ss ++ ts) s out t ↔
    (∃ x, out = some x ∧ m.Runs ss s out t) ∨ ∃ s₁, m.Runs ss s none s₁ ∧ m.Runs ts s₁ out t := by
  induction ss generalizing s with
  | nil =>
    refine ⟨fun runs => .inr ⟨s,.nil,runs⟩,?_⟩
    rintro (⟨x,rfl,runs⟩ | ⟨s₁,runs,rest⟩)
    · cases runs
    · cases runs
      exact rest
  | cons c ss ih =>
    constructor
    · intro runs
      cases runs with
      | stop does => exact .inl ⟨_,rfl,.stop does⟩
      | cons does rest =>
        rcases ih.mp rest with ⟨x,same,rest⟩ | ⟨s₁,first,rest⟩
        · exact .inl ⟨x,same,.cons does rest⟩
        · exact .inr ⟨s₁,.cons does first,rest⟩
    · rintro (⟨x,rfl,runs⟩ | ⟨s₁,runs,rest⟩)
      · cases runs with
        | stop does => exact .stop does
        | cons does rest => exact .cons does (ih.mpr (.inl ⟨x,rfl,rest⟩))
      · cases runs with
        | cons does first => exact .cons does (ih.mpr (.inr ⟨s₁,first,rest⟩))

end Universe
end RegCode
