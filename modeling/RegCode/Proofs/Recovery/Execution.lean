import RegCode.Proofs.Recovery.Writing
import Mathlib.Logic.Relation
import Mathlib.Data.Option.Basic

/-! How structured code runs and how a graph is walked. Both visit nodes one after the other, led by
the outcomes of tests and switches; what code is about to do is kept as a list of layers, and a jump
to a label goes on at the part that stands for its node. -/
namespace RegCode

/-- How tests turn out, and the values of switches, where a node is left. -/
structure Outcome where
  holds : Test → Bool
  value : Option Expr → Int
  negated : ∀ c, holds c.negate = !holds c

def Node.caseOf (n : Node) (v : Int) : Option NodeId :=
  ((n.cases.find? fun c => c.keys.contains v).map (·.target)).or n.default

namespace Graph

def after (g : Graph) (n : NodeId) (o : Outcome) : Option NodeId :=
  match (g.node n).kind with
  | .stmt => (g.node n).succs.head?
  | .cond => if o.holds ((g.node n).test?.getD default) then (g.node n).onTrue else (g.node n).onFalse
  | .switch => (g.node n).caseOf (o.value (Recovery.switchValue (g.node n)))
  | .ret | .throw => none

def walk (g : Graph) : NodeId → List Outcome → List NodeId
  | n, [] => [n]
  | n, o :: os => n :: (g.after n o).elim [] fun m => g.walk m os

end Graph

namespace Recovery

inductive Layer where
  | parts (rest : List Piece)
  | loop (key : Key) (kind : LoopKind) (node : Int) (cond : Option Test) (body : List Piece)
  | switch (key : Key) (later : List (List Piece))

abbrev Agenda := List Layer

inductive Move where
  | halt
  | stuck
  | silent (k : Agenda)
  | visit (node : Int) (next : Outcome → Agenda)

mutual

def points : Piece → List (Key × Agenda)
  | .block _ body => pointsAll body
  | .branch _ _ _ a none => pointsAll a
  | .branch _ _ _ a (some b) => pointsAll a ++ pointsAll b
  | .loop key kind n _ c body => (pointsAll body).map fun x => (x.1, x.2 ++ [.loop key kind n c body])
  | .switch key _ _ arms => pointsArms key arms
  | _ => []

def pointsAll : List Piece → List (Key × Agenda)
  | [] => []
  | t :: ts => (t.label, [.parts (t :: ts)]) :: (points t).map (fun x => (x.1, x.2 ++ [.parts ts])) ++
    pointsAll ts

def pointsArms (key : Key) : List (ArmHead × List Piece) → List (Key × Agenda)
  | [] => []
  | (_, body) :: rest =>
    (pointsAll body).map (fun x => (x.1, x.2 ++ [.switch key (rest.map (·.2))])) ++
      pointsArms key rest

end

def chosen (v : Int) (arms : List (ArmHead × List Piece)) : List (ArmHead × List Piece) :=
  match arms.dropWhile fun a => !a.1.keys.contains v with
  | [] => arms.dropWhile fun a => !a.1.isDefault
  | found => found

def enterArms (key : Key) (k : Agenda) : List (ArmHead × List Piece) → Agenda
  | [] => k
  | a :: rest => .parts a.2 :: .switch key (rest.map (·.2)) :: k

namespace Draft

variable (w : Draft)

def name (key : Key) : String := w.state.names.getD key ""

def target (n : NodeId) : Option Agenda := 
  (w.state.placed.get? n).bind fun key => (pointsAll w.body).lookup key

def breaks (text : String) : Agenda → Option Agenda
  | [] => none
  | .parts _ :: k => breaks text k
  | .loop key _ _ _ _ :: k => if text = "" ∨ w.name key = text then some k else breaks text k
  | .switch key _ :: k => if text = "" ∨ w.name key = text then some k else breaks text k

def continues (text : String) : Agenda → Option Agenda
  | [] => none
  | .parts _ :: k => continues text k
  | .loop key kind n c body :: k =>
    if text = "" ∨ w.name key = text then some (.loop key kind n c body :: k) else continues text k
  | .switch _ _ :: k => continues text k

def begin (k : Agenda) : Piece → Move
  | .block _ body => .silent (.parts body :: k)
  | .stmts _ n ss => .visit n fun _ => if Tree.endsInExit ss then [] else k
  | .branch _ n c a b => .visit n fun o => .parts (if o.holds c then a else b.getD []) :: k
  | .loop key .pretest n _ c body => .silent (.loop key .pretest n c body :: k)
  | .loop key kind n _ c body => .silent (.parts body :: .loop key kind n c body :: k)
  | .switch key n v arms => .visit n fun o => enterArms key k (chosen (o.value v) arms)
  | .goto (.aim n) _ => (w.target n).elim .stuck .silent
  | .breakTo _ text => (w.breaks text k).elim .stuck .silent
  | .continueTo _ text => (w.continues text k).elim .stuck .silent
  | _ => .stuck

def step : Agenda → Move
  | [] => .halt
  | .parts [] :: k => .silent k
  | .parts (t :: ts) :: k => w.begin (.parts ts :: k) t
  | .loop key .endless n c body :: k => .silent (.parts body :: .loop key .endless n c body :: k)
  | .loop key kind n c body :: k => .visit n fun o =>
    if o.holds (c.getD default) then .parts body :: .loop key kind n c body :: k else k
  | .switch _ [] :: k => .silent k
  | .switch key (b :: later) :: k => .silent (.parts b :: .switch key later :: k)

def exec : Nat → Agenda → List Outcome → Option (List Int)
  | 0, _, _ => none
  | fuel + 1, k, os =>
    match w.step k with
    | .halt => some []
    | .stuck => none
    | .silent k => exec fuel k os
    | .visit n next =>
      match os with
      | [] => some [n]
      | o :: os => (exec fuel (next o) os).map (n :: ·)

theorem execMore {fuel : Nat} {k : Agenda} {os : List Outcome} {ns : List Int}
    (done : w.exec fuel k os = some ns) : w.exec (fuel + 1) k os = some ns := by
  induction fuel generalizing k os ns with
  | zero => contradiction
  | succ fuel ih =>
    rw [exec] at done ⊢
    cases here : w.step k with
    | halt => simpa only [here] using done
    | stuck => simp only [here] at done; contradiction
    | silent k' =>
      simp only [here] at done ⊢
      exact ih done
    | visit n next =>
      simp only [here] at done ⊢
      cases os with
      | nil => exact done
      | cons o os =>
        obtain ⟨more,rest,rfl⟩ := Option.map_eq_some_iff.mp done
        dsimp only
        rw [ih rest]
        rfl

theorem execMono {a b : Nat} (le : a ≤ b) {k : Agenda} {os : List Outcome} {ns : List Int}
    (done : w.exec a k os = some ns) : w.exec b k os = some ns := by
  induction le with
  | refl => exact done
  | step le ih => exact w.execMore ih

def Goes : Agenda → Agenda → Prop := Relation.ReflTransGen fun k k' => w.step k = .silent k'

def Leads (g : Graph) : Nat → Agenda → NodeId → Prop
  | 0, _, _ => True
  | j + 1, k, n => ∃ k' next, w.Goes k k' ∧ w.step k' = .visit n next ∧
    ∀ o, (g.after n o).elim (w.Goes (next o) []) fun m => Leads g j (next o) m

variable {w} {g : Graph} {i j : Nat} {k k' : Agenda} {n : NodeId} {os : List Outcome}

theorem Goes.exec {ns : List Int} (goes : w.Goes k k') (done : w.exec i k' os = some ns) :
    ∃ fuel, w.exec fuel k os = some ns := by
  induction goes using Relation.ReflTransGen.head_induction_on with
  | refl => exact ⟨i,done⟩
  | head here rest ih =>
    obtain ⟨fuel,done⟩ := ih
    exact ⟨fuel + 1,by rw [Draft.exec,here]; exact done⟩

theorem Leads.exec (leads : w.Leads g (os.length + 1) k n) :
    ∃ fuel, w.exec fuel k os = some ((g.walk n os).map Int.ofNat) := by
  induction os generalizing k n with
  | nil =>
    obtain ⟨k',next,goes,here,-⟩ := leads
    exact goes.exec (i := 1) (by rw [Draft.exec,here]; rfl)
  | cons o os ih =>
    obtain ⟨k',next,goes,here,after⟩ := leads
    have later : ∃ fuel, w.exec fuel (next o) os =
        some (((g.after n o).elim [] fun m => g.walk m os).map Int.ofNat) := by
      cases out : g.after n o with
      | none =>
        have ends := after o
        rw [out] at ends
        exact Goes.exec ends (i := 1) rfl
      | some m =>
        have rest := after o
        rw [out] at rest
        exact ih rest
    obtain ⟨fuel,done⟩ := later
    exact goes.exec (i := fuel + 1) (by rw [Draft.exec,here]; dsimp only; rw [done]; rfl)

theorem Leads.before (goes : w.Goes k k') (leads : w.Leads g j k' n) : w.Leads g j k n := by
  cases j with
  | zero => trivial
  | succ j =>
    obtain ⟨k'',next,rest,here,after⟩ := leads
    exact ⟨k'',next,goes.trans rest,here,after⟩

theorem Leads.silent (step : w.step k = .silent k') (leads : w.Leads g j k' n) : w.Leads g j k n :=
  leads.before (.single step)

theorem Leads.less (leads : w.Leads g (j + 1) k n) : w.Leads g j k n := by
  induction j generalizing k n with
  | zero => trivial
  | succ j ih =>
    obtain ⟨k',next,goes,here,after⟩ := leads
    refine ⟨k',next,goes,here,fun o => ?_⟩
    have rest := after o
    cases out : g.after n o with
    | none => rwa [out] at rest
    | some m =>
      rw [out] at rest
      exact ih rest

theorem Leads.mono (le : i ≤ j) (leads : w.Leads g j k n) : w.Leads g i k n := by
  induction le with
  | refl => exact leads
  | step le ih => exact ih leads.less

end Draft

end Recovery

end RegCode

/-! What runs alike: a jump at the end of a list that leads where the end leads may be left out, and
two lists in a row may be joined. -/
namespace RegCode.Recovery

inductive Trims : Agenda → Agenda → Prop where
  | same {k} : Trims k k
  | under {a k k'} (rest : Trims k k') : Trims (a :: k) (a :: k')
  | join {ts us k} : Trims (.parts ts :: .parts us :: k) (.parts (ts ++ us) :: k)
  | again {ts l key kind n c body k} :
      Trims (.parts (ts ++ [.continueTo l ""]) :: .loop key kind n c body :: k)
        (.parts ts :: .loop key kind n c body :: k)
  | out {ts l key k} :
      Trims (.parts (ts ++ [.breakTo l ""]) :: .switch key [] :: k) (.parts ts :: .switch key [] :: k)

theorem Trims.above (front : Agenda) {k k' : Agenda} (trims : Trims k k') :
    Trims (front ++ k) (front ++ k') := by
  induction front with
  | nil => exact trims
  | cons a front ih => exact .under ih

def Move.Trims : Move → Move → Prop
  | .halt, .halt | .stuck, .stuck => True
  | .silent k, .silent k' => Recovery.Trims k k'
  | .visit n next, .visit n' next' => n = n' ∧ ∀ o, Recovery.Trims (next o) (next' o)
  | _, _ => False

theorem Move.Trims.refl (m : Move) : m.Trims m := by
  cases m with
  | halt | stuck => trivial
  | silent k => exact Recovery.Trims.same
  | visit n next => exact ⟨rfl,fun _ => .same⟩

namespace Draft

variable {w : Draft} {g : Graph} {i : Nat} {k k' : Agenda} {n : NodeId}

theorem relSame (x : Option Agenda) : Option.Rel Trims x x := by
  cases x with
  | none => exact .none
  | some k => exact .some .same

theorem breaksTrims (trims : Trims k k') (text : String) :
    Option.Rel Trims (w.breaks text k) (w.breaks text k') := by
  induction trims with
  | same => exact relSame _
  | @under a k k' rest ih =>
    cases a with
    | parts ts => exact ih
    | loop key kind n c body | switch key later =>
      rw [breaks,breaks]
      split
      · exact .some rest
      · exact ih
  | join | again | out => exact relSame _

theorem continuesTrims (trims : Trims k k') (text : String) :
    Option.Rel Trims (w.continues text k) (w.continues text k') := by
  induction trims with
  | same => exact relSame _
  | @under a k k' rest ih =>
    cases a with
    | parts ts | switch key later => exact ih
    | loop key kind n c body =>
      rw [continues,continues]
      split
      · exact .some (.under rest)
      · exact ih
  | join | again | out => exact relSame _

theorem elimTrims {x y : Option Agenda} (rel : Option.Rel Trims x y) :
    Move.Trims (x.elim .stuck .silent) (y.elim .stuck .silent) := by
  cases rel with
  | none => trivial
  | some trims => exact trims

theorem beginTrims (trims : Trims k k') (t : Piece) : (w.begin k t).Trims (w.begin k' t) := by
  cases t with
  | block l body => exact .under trims
  | stmts l n ss =>
    refine ⟨rfl,fun o => ?_⟩
    dsimp only
    split
    · exact .same
    · exact trims
  | branch l n c a b => exact ⟨rfl,fun o => .under trims⟩
  | loop l kind n h c body =>
    cases kind with
    | pretest => exact .under trims
    | posttest | endless => exact .under (.under trims)
  | switch l n v arms =>
    refine ⟨rfl,fun o => ?_⟩
    dsimp only
    cases chosen (o.value v) arms with
    | nil => exact trims
    | cons a rest => exact .under (.under trims)
  | guarded => trivial
  | goto l text => cases l <;> exact .refl _
  | breakTo l text => exact elimTrims (breaksTrims trims text)
  | continueTo l text => exact elimTrims (continuesTrims trims text)

theorem stepTrims (trims : Trims k k') :
    (∃ r, w.step k = .silent r ∧ w.Goes k' r) ∨ (w.step k).Trims (w.step k') := by
  cases trims with
  | same => exact .inr (.refl _)
  | @under a k k' rest =>
    refine .inr ?_
    cases a with
    | parts ts =>
      cases ts with
      | nil => exact rest
      | cons t ts => exact beginTrims (.under rest) t
    | loop key kind n c body =>
      cases kind with
      | endless => exact .under (.under rest)
      | pretest | posttest =>
        refine ⟨rfl,fun o => ?_⟩
        dsimp only
        split
        · exact .under (.under rest)
        · exact rest
    | switch key later =>
      cases later with
      | nil => exact rest
      | cons b later => exact .under (.under rest)
  | @join ts us k =>
    cases ts with
    | nil => exact .inl ⟨_,rfl,.refl⟩
    | cons t ts => exact .inr (beginTrims .join t)
  | @again ts l key kind n c body k =>
    cases ts with
    | nil => exact .inl ⟨.loop key kind n c body :: k,rfl,.single rfl⟩
    | cons t ts => exact .inr (beginTrims .again t)
  | @out ts l key k =>
    cases ts with
    | nil => exact .inl ⟨k,rfl,.tail (.single rfl) rfl⟩
    | cons t ts => exact .inr (beginTrims .out t)

theorem Goes.trims (goes : w.Goes k k') : ∀ {r : Agenda}, Trims k r → ∃ r', w.Goes r r' ∧ Trims k' r' := by
  induction goes using Relation.ReflTransGen.head_induction_on with
  | refl => exact fun trims => ⟨_,.refl,trims⟩
  | head here rest ih =>
    intro r trims
    rcases stepTrims (w := w) trims with ⟨m,step,goes⟩ | moves
    · rw [here] at step
      cases step
      obtain ⟨r',more,trims'⟩ := ih .same
      exact ⟨r',goes.trans more,trims'⟩
    · rw [here] at moves
      cases there : w.step r with
      | silent m =>
        rw [there] at moves
        obtain ⟨r',more,trims'⟩ := ih moves
        exact ⟨r',.head there more,trims'⟩
      | halt | stuck | visit n next =>
        rw [there] at moves
        exact moves.elim

theorem trimsNil {r : Agenda} (trims : Trims [] r) : r = [] := by
  cases trims
  rfl

theorem Leads.trims {r : Agenda} (leads : w.Leads g i k n) (trims : Trims k r) : w.Leads g i r n := by
  induction i generalizing k r n with
  | zero => trivial
  | succ i ih =>
    obtain ⟨k',next,goes,here,after⟩ := leads
    obtain ⟨r',goes',trims'⟩ := Goes.trims goes trims
    rcases stepTrims (w := w) trims' with ⟨m,step,-⟩ | moves
    · rw [here] at step
      contradiction
    · rw [here] at moves
      cases there : w.step r' with
      | visit n' next' =>
        rw [there] at moves
        obtain ⟨rfl,all⟩ := moves
        refine ⟨r',next',goes',there,fun o => ?_⟩
        have rest := after o
        cases out : g.after n o with
        | none =>
          rw [out] at rest
          obtain ⟨m,more,trims⟩ := Goes.trims rest (all o)
          exact trimsNil trims ▸ more
        | some m =>
          rw [out] at rest
          exact ih rest (all o)
      | halt | stuck | silent m =>
        rw [there] at moves
        exact moves.elim

end Draft

/-! ### Points of lists that are trimmed or joined -/

theorem pointsJoin {ts us : List Piece} {x : Key × Agenda} (member : x ∈ pointsAll (ts ++ us)) :
    x ∈ pointsAll us ∨ ∃ y ∈ pointsAll ts, y.1 = x.1 ∧
      ∀ k, Trims (y.2 ++ .parts us :: k) (x.2 ++ k) := by
  induction ts with
  | nil => exact .inl member
  | cons t ts ih =>
    rw [List.cons_append,pointsAll,List.cons_append,List.mem_cons,List.mem_append] at member
    rcases member with rfl | inside | later
    · exact .inr ⟨_,List.mem_cons_self ..,rfl,fun k => .join⟩
    · obtain ⟨z,member,rfl⟩ := List.mem_map.mp inside
      refine .inr ⟨(z.1,z.2 ++ [.parts ts]),?_,rfl,fun k => ?_⟩
      · rw [pointsAll]
        exact List.mem_cons_of_mem _ (List.mem_append_left _ (List.mem_map_of_mem member))
      · have joined : Trims (.parts ts :: .parts us :: k) (.parts (ts ++ us) :: k) := .join
        simpa using Trims.above z.2 joined
    · refine (ih later).imp id ?_
      rintro ⟨y,member,same,trims⟩
      refine ⟨y,?_,same,trims⟩
      rw [pointsAll]
      exact List.mem_cons_of_mem _ (List.mem_append_right _ member)

theorem pointsTrim {ts : List Piece} {j : Piece} {x : Key × Agenda} (member : x ∈ pointsAll ts) :
    ∃ y ∈ pointsAll (ts ++ [j]), y.1 = x.1 ∧ ∀ k, (∀ us, Trims (.parts (us ++ [j]) :: k) (.parts us :: k)) →
      Trims (y.2 ++ k) (x.2 ++ k) := by
  induction ts with
  | nil => contradiction
  | cons t ts ih =>
    rw [pointsAll,List.cons_append,List.mem_cons,List.mem_append] at member
    rcases member with rfl | inside | later
    · exact ⟨_,List.mem_cons_self ..,rfl,fun k ends => ends (t :: ts)⟩
    · obtain ⟨z,member,rfl⟩ := List.mem_map.mp inside
      refine ⟨(z.1,z.2 ++ [.parts (ts ++ [j])]),?_,rfl,fun k ends => ?_⟩
      · rw [List.cons_append,pointsAll]
        exact List.mem_cons_of_mem _ (List.mem_append_left _ (List.mem_map_of_mem member))
      · simpa using Trims.above z.2 (ends ts)
    · obtain ⟨y,member,same,trims⟩ := ih later
      refine ⟨y,?_,same,trims⟩
      rw [List.cons_append,pointsAll]
      exact List.mem_cons_of_mem _ (List.mem_append_right _ member)

end RegCode.Recovery

/-! The arms of a switch. Each target has one arm, with all of its keys; a value selects the arm of the
target that the switch goes to, or none when that is where the arms meet. -/
namespace RegCode.Recovery

variable {arms : List Arm} {t : NodeId} {keys : List Int} {k : Int} {d : Bool}

structure Gathered (arms : List Arm) (Keyed : NodeId → Int → Prop) (Target Default : NodeId → Prop) :
    Prop where
  distinct : (arms.map (·.target)).Nodup
  targets : ∀ t, t ∈ arms.map (·.target) ↔ Target t
  keys : ∀ a ∈ arms, ∀ k, k ∈ a.head.keys ↔ Keyed a.target k
  defaults : ∀ a ∈ arms, a.head.isDefault = true ↔ Default a.target

theorem addArmTargets (t : NodeId) (keys : List Int) (d : Bool) (arms : List Arm) :
    (addArm t keys d arms).map (·.target) =
      if t ∈ arms.map (·.target) then arms.map (·.target) else arms.map (·.target) ++ [t] := by
  induction arms with
  | nil => rfl
  | cons a arms ih =>
    rw [addArm]
    split
    · rename_i here
      rw [if_pos (List.mem_map.mpr ⟨a,List.mem_cons_self ..,here⟩)]
      rfl
    · rename_i other
      rw [List.map_cons,ih,List.map_cons]
      by_cases member : t ∈ arms.map (·.target)
      · rw [if_pos member,if_pos (List.mem_cons_of_mem _ member)]
      · rw [if_neg member,if_neg fun inside =>
          (List.mem_cons.mp inside).elim (fun same => other same.symm) member]
        rfl

theorem addArmMem {a : Arm} (distinct : (arms.map (·.target)).Nodup) (member : a ∈ addArm t keys d arms) :
    (a ∈ arms ∧ a.target ≠ t) ∨
      (∃ b ∈ arms, b.target = t ∧ a = { b with head := ⟨b.head.keys ++ keys,b.head.isDefault || d⟩ }) ∨
      (a = ⟨t,⟨keys,d⟩⟩ ∧ t ∉ arms.map (·.target)) := by
  induction arms with
  | nil =>
    obtain rfl := List.mem_singleton.mp member
    exact .inr (.inr ⟨rfl,List.not_mem_nil⟩)
  | cons b arms ih =>
    obtain ⟨apart,distinct⟩ := List.nodup_cons.mp distinct
    rw [addArm] at member
    split at member
    · rename_i here
      rcases List.mem_cons.mp member with rfl | member
      · exact .inr (.inl ⟨b,List.mem_cons_self ..,here,rfl⟩)
      · refine .inl ⟨List.mem_cons_of_mem _ member,fun same => apart ?_⟩
        exact List.mem_map.mpr ⟨a,member,same.trans here.symm⟩
    · rename_i other
      rcases List.mem_cons.mp member with rfl | member
      · exact .inl ⟨List.mem_cons_self ..,other⟩
      · rcases ih distinct member with ⟨old,apart'⟩ | ⟨c,old,same,made⟩ | ⟨made,none⟩
        · exact .inl ⟨List.mem_cons_of_mem _ old,apart'⟩
        · exact .inr (.inl ⟨c,List.mem_cons_of_mem _ old,same,made⟩)
        · refine .inr (.inr ⟨made,fun inside => ?_⟩)
          exact (List.mem_cons.mp inside).elim (fun same => other same.symm) none

theorem Gathered.add {Keyed : NodeId → Int → Prop} {Target Default : NodeId → Prop}
    (gathered : Gathered arms Keyed Target Default) (keyed : ∀ u k, Keyed u k → Target u)
    (default : ∀ u, Default u → Target u) (t : NodeId) (keys : List Int) (d : Bool) :
    Gathered (addArm t keys d arms) (fun u k => Keyed u k ∨ u = t ∧ k ∈ keys) (fun u => Target u ∨ u = t)
      fun u => Default u ∨ u = t ∧ d = true := by
  have same := addArmTargets t keys d arms
  refine ⟨?_,fun u => ?_,fun a member k => ?_,fun a member => ?_⟩
  · rw [same]
    split
    · exact gathered.distinct
    · rename_i new
      exact List.nodup_append.mpr ⟨gathered.distinct,List.pairwise_singleton ..,
        fun x old y here => by
          rw [List.mem_singleton.mp here]
          exact fun same => new (same ▸ old)⟩
  · rw [same]
    split
    · rename_i old
      rw [gathered.targets]
      exact ⟨.inl,fun either => either.elim id fun here => here ▸ (gathered.targets t).mp old⟩
    · rw [List.mem_append,List.mem_singleton,gathered.targets]
  · rcases addArmMem gathered.distinct member with ⟨old,other⟩ | ⟨b,old,rfl,rfl⟩ | ⟨rfl,new⟩
    · rw [gathered.keys a old]
      simp [other]
    · simp [gathered.keys b old]
    · have none : ¬Keyed t k := fun here => new ((gathered.targets t).mpr (keyed t k here))
      simp [none]
  · rcases addArmMem gathered.distinct member with ⟨old,other⟩ | ⟨b,old,rfl,rfl⟩ | ⟨rfl,new⟩
    · rw [gathered.defaults a old]
      simp [other]
    · simp [gathered.defaults b old]
    · have none : ¬Default t := fun here => new ((gathered.targets t).mpr (default t here))
      simp [none]

theorem Gathered.congr {Keyed Keyed' : NodeId → Int → Prop} {Target Target' Default Default' : NodeId → Prop}
    (gathered : Gathered arms Keyed Target Default) (keyed : ∀ u k, Keyed u k ↔ Keyed' u k)
    (target : ∀ u, Target u ↔ Target' u) (default : ∀ u, Default u ↔ Default' u) :
    Gathered arms Keyed' Target' Default' :=
  ⟨gathered.distinct,fun u => (gathered.targets u).trans (target u),
    fun a member k => (gathered.keys a member k).trans (keyed a.target k),
    fun a member => (gathered.defaults a member).trans (default a.target)⟩

theorem gatherCases (cases : List SwitchCase) (old : List SwitchCase)
    (gathered : Gathered arms (fun u k => ∃ c ∈ old, c.target = u ∧ k ∈ c.keys)
      (fun u => ∃ c ∈ old, c.target = u) fun _ => False) :
    Gathered (cases.foldl (fun as c => addArm c.target c.keys false as) arms)
      (fun u k => ∃ c ∈ old ++ cases, c.target = u ∧ k ∈ c.keys) (fun u => ∃ c ∈ old ++ cases, c.target = u)
      fun _ => False := by
  induction cases generalizing arms old with
  | nil => simpa using gathered
  | cons c cases ih =>
    have added := gathered.add (fun u k ⟨c,member,same,_⟩ => ⟨c,member,same⟩) nofun c.target c.keys false
    have step := ih (old ++ [c]) (added.congr
      (fun u k => by simp [or_and_right,exists_or,eq_comm]) (fun u => by simp [or_and_right,exists_or,eq_comm])
      fun u => by simp)
    simpa using step

theorem Gathered.sorted {Keyed : NodeId → Int → Prop} {Target Default : NodeId → Prop}
    (gathered : Gathered arms Keyed Target Default) (le : Arm → Arm → Bool) :
    Gathered (arms.mergeSort le) Keyed Target Default := by
  have perm := List.mergeSort_perm arms le
  exact ⟨(perm.map _).nodup_iff.mpr gathered.distinct,fun t => (perm.map _).mem_iff.trans (gathered.targets t),
    fun a member => gathered.keys a (perm.mem_iff.mp member),
    fun a member => gathered.defaults a (perm.mem_iff.mp member)⟩

theorem armsGathered (g : Graph) (node : Node) (follow : Option NodeId) :
    Gathered (armsOf g node follow) (fun u k => ∃ c ∈ node.cases, c.target = u ∧ k ∈ c.keys)
      (fun u => (∃ c ∈ node.cases, c.target = u) ∨ node.default = some u ∧ follow ≠ some u)
      fun u => node.default = some u ∧ follow ≠ some u := by
  have none : Gathered [] (fun u k => ∃ c ∈ ([] : List SwitchCase), c.target = u ∧ k ∈ c.keys)
      (fun u => ∃ c ∈ ([] : List SwitchCase), c.target = u) fun _ => False := by
    constructor <;> simp
  have cases' := gatherCases node.cases [] none
  rw [List.nil_append] at cases'
  unfold armsOf
  refine Gathered.sorted ?_ _
  cases node.default with
  | none => exact cases'.congr (fun u k => Iff.rfl) (fun u => by simp) fun u => by simp
  | some t =>
    dsimp only
    split
    · rename_i meets
      have meets := beq_iff_eq.mp meets
      exact cases'.congr (fun u k => Iff.rfl) (fun u => by grind) fun u => by grind
    · rename_i apart
      have apart : follow ≠ some t := fun same => apart (beq_iff_eq.mpr same)
      exact (cases'.add (fun u k ⟨c,member,same,_⟩ => ⟨c,member,same⟩) (fun _ no => no.elim) t [] true).congr
        (fun u k => by simp) (fun u => by grind) fun u => by grind

end RegCode.Recovery
