import RegCode.Proofs.Flow.Coherence
import RegCode.Proofs.Flow.Path
import RegCode.Proofs.Flow.Shape
import RegCode.Proofs.Flow.Representation

/-! Executions of a graph. What the program leaves open is chosen: which statements raise, which handler
of the region takes the exception, which way tests and switches go. What is seen of an execution are
the locations of the statements that it comes by. -/
namespace RegCode

/-- What settles a move that the program leaves open. -/
inductive Choice where
  | pass
  | raise (handler : Nat)
  | escape
  | branch (taken : Bool)
  | select (key : Int)
  deriving DecidableEq, Repr

inductive Way where
  | on
  | into (i : NodeId)
  | out
  deriving DecidableEq, Repr

namespace Way

def after (p : Point) : Way → Option Point
  | on => some ⟨p.node,p.index + 1⟩
  | into i => some ⟨i,0⟩
  | out => none

def map (f : NodeId → NodeId) : Way → Way
  | on => on
  | into i => into (f i)
  | out => out

end Way

def Action.passes : Action → Bool
  | throw _ => false
  | _ => true

def Node.select (n : Node) (key : Int) : Option NodeId :=
  ((n.cases.find? (·.keys.contains key)).map (·.target)).or n.default

def Node.leave (n : Node) (c : Option Choice) : Option Way :=
  match n.kind,c with
  | .stmt,none => some ((n.succs.head?.map .into).getD .out)
  | .ret,none | .throw,none => some .out
  | .cond,some (.branch taken) => (if taken then n.onTrue else n.onFalse).map .into
  | .switch,some (.select key) => (n.select key).map .into
  | _,_ => none

namespace Graph

def catcher (g : Graph) (i : NodeId) (k : Nat) : Option NodeId :=
  ((g.node i).region.bind fun r => ((g.handlersOf r)[k]?).map (·.entry)).filter
    ((g.node i).catchSuccs.contains ·)

def meet (g : Graph) (i : NodeId) (s : Stmt) (c : Option Choice) : Option Way :=
  match s.canThrow,c with
  | false,none => some .on
  | true,some .pass => if s.act.passes then some .on else none
  | true,some (.raise k) => (g.catcher i k).map .into
  | true,some .escape => some .out
  | _,_ => none

def move (g : Graph) (p : Point) (c : Option Choice) : Option (List Loc × Option Point) :=
  match (g.node p.node).stmts[p.index]? with
  | some s => (g.meet p.node s c).map fun w => ([s.loc],w.after p)
  | none => ((g.node p.node).leave c).map fun w => ([],w.after p)

inductive Course (g : Graph) : Point → List Choice → List Loc → Bool → Prop where
  | stop {p} : Course g p [] [] false
  | step {p q c cs ls ls' ends} (moves : g.move p c = some (ls,some q)) (rest : Course g q cs ls' ends) :
      Course g p (c.toList ++ cs) (ls ++ ls') ends
  | leave {p c ls} (moves : g.move p c = some (ls,none)) : Course g p c.toList ls true

/-- Under the choices the graph executes statements with these locations. -/
def Executes (g : Graph) (cs : List Choice) (ls : List Loc) (ends : Bool) : Prop :=
  ∃ e, g.entry = some e ∧ g.Course ⟨e,0⟩ cs ls ends

variable {g h : Graph} {i : NodeId} {p q : Point} {c c' : Option Choice} {s : Stmt}

theorem moveAt (here : (g.node p.node).stmts[p.index]? = some s) :
    g.move p c = (g.meet p.node s c).map fun w => ([s.loc],w.after p) := by
  rw [move,here]

theorem moveEnd (here : (g.node p.node).stmts[p.index]? = none) :
    g.move p c = ((g.node p.node).leave c).map fun w => ([],w.after p) := by
  rw [move,here]

theorem moveSettled {r r' : List Loc × Option Point} (left : g.move p c = some r)
    (right : g.move p c' = some r') : c.isSome = c'.isSome := by
  cases here : (g.node p.node).stmts[p.index]? with
  | some s =>
    rw [moveAt here] at left right
    obtain ⟨w,left,-⟩ := Option.map_eq_some_iff.mp left
    obtain ⟨w',right,-⟩ := Option.map_eq_some_iff.mp right
    unfold meet at left right
    grind
  | none =>
    rw [moveEnd here] at left right
    obtain ⟨w,left,-⟩ := Option.map_eq_some_iff.mp left
    obtain ⟨w',right,-⟩ := Option.map_eq_some_iff.mp right
    unfold Node.leave at left right
    grind

theorem moveSame {cs cs' : List Choice} {r r' : List Loc × Option Point} (left : g.move p c = some r)
    (right : g.move p c' = some r') (choices : c.toList ++ cs = c'.toList ++ cs') : r = r' ∧ cs = cs' := by
  have settled := moveSettled left right
  cases c <;> cases c' <;> simp_all

theorem Course.settled {cs : List Choice} {ls ls' : List Loc} {ends ends' : Bool} (left : g.Course p cs ls ends)
    (done : ends = true) (right : g.Course p cs ls' ends') : ls' <+: ls ∧ (ends' = true → ls' = ls) := by
  induction left generalizing ls' with
  | stop => contradiction
  | @step p q c cs ls rest ends moves run ih =>
    generalize choices : c.toList ++ cs = all at right
    cases right with
    | stop => exact ⟨List.nil_prefix,nofun⟩
    | step moves' run' =>
      obtain ⟨same,rfl⟩ := moveSame moves moves' choices
      cases same
      obtain ⟨ahead,equal⟩ := ih done run'
      exact ⟨(List.prefix_append_right_inj ls).mpr ahead,fun ends => congrArg (ls ++ ·) (equal ends)⟩
    | leave moves' =>
      have := (moveSame moves moves' (choices.trans (List.append_nil _).symm)).1
      simp at this
  | @leave p c ls moves =>
    generalize choices : c.toList = all at right
    cases right with
    | stop => exact ⟨List.nil_prefix,nofun⟩
    | step moves' run' =>
      have := (moveSame moves moves' ((List.append_nil _).trans choices)).1
      simp at this
    | leave moves' =>
      have same := (@moveSame g p _ _ [] [] _ _ moves moves' (by simpa using choices)).1
      cases same
      exact ⟨List.prefix_rfl,fun _ => rfl⟩

end Graph

end RegCode

/-! Folding of graphs. Points of one graph stand for points of another with the same moves; where two
points of the first stand for one of the second, the move between them comes by nothing. Each change
that simplifying makes is a folding, and graphs that fold execute the same. -/
namespace RegCode

theorem Node.Formed.leads {n : Node} {c : Option Choice} {t : NodeId} (formed : n.Formed)
    (leave : n.leave c = some (.into t)) : t ∈ n.succs := by
  unfold Node.leave at leave
  split at leave
  · cases first : n.succs.head? with
    | none => simp [first] at leave
    | some u =>
      rw [first,Option.map_some,Option.getD_some] at leave
      injection leave with same
      injection same with same
      exact same ▸ List.mem_of_mem_head? first
  · cases leave
  · cases leave
  · rename_i taken kind
    obtain ⟨a,b,-,onTrue,onFalse,succs⟩ := formed.cond kind
    rw [onTrue,onFalse] at leave
    obtain ⟨u,chosen,same⟩ := Option.map_eq_some_iff.mp leave
    injection same with same
    rw [succs]
    cases taken <;> simp_all
  · rename_i key kind
    obtain ⟨u,chosen,same⟩ := Option.map_eq_some_iff.mp leave
    injection same with same
    rw [(formed.switch kind).2]
    rw [Node.select,Option.or_eq_some_iff] at chosen
    rcases chosen with found | ⟨-,default⟩
    · obtain ⟨k,found,target⟩ := Option.map_eq_some_iff.mp found
      exact .inl (List.mem_map.mpr ⟨k,List.mem_of_find?_eq_some found,target.trans same⟩)
    · exact .inr (same ▸ default)
  · contradiction

theorem Node.leaveOn {n : Node} {c : Option Choice} : n.leave c ≠ some .on := by
  unfold Node.leave
  split <;> try simp
  cases n.succs.head? <;> simp

theorem Node.leaveRetarget (n : Node) (i j : NodeId) (c : Option Choice) :
    (n.retarget i j).leave c = (n.leave c).map (Way.map fun t => if t = i then j else t) := by
  unfold Node.leave
  have kind : (n.retarget i j).kind = n.kind := rfl
  rw [kind]
  split
  · cases succs : n.succs with
    | nil => simp [retarget,succs,Way.map]
    | cons t ts => simp [retarget,succs,List.eraseDups_cons,Way.map]
  · rfl
  · rfl
  · rename_i taken _
    cases taken <;> simp [retarget,Option.map_map,Function.comp_def,Way.map]
  · rename_i key _
    have select : (n.retarget i j).select key = (n.select key).map fun t => if t = i then j else t := by
      simp only [select,retarget,List.find?_map,Option.map_map,Option.map_or]
      rfl
    rw [select,Option.map_map,Option.map_map]
    rfl
  · rfl

theorem Node.leaveCongr {n m : Node} (kind : m.kind = n.kind) (succs : m.succs = n.succs)
    (onTrue : m.onTrue = n.onTrue) (onFalse : m.onFalse = n.onFalse) (cases : m.cases = n.cases)
    (default : m.default = n.default) (c : Option Choice) : m.leave c = n.leave c := by
  unfold Node.leave Node.select
  rw [kind,succs,onTrue,onFalse,cases,default]

namespace Graph

variable {g h : Graph} {i j k : NodeId} {φ : Point → Point} {f : NodeId → NodeId} {p q : Point}
  {c : Option Choice} {s : Stmt} {cs : List Choice} {ls : List Loc} {ends : Bool}

def Inner (g : Graph) (p : Point) : Prop :=
  p.node ∈ g.nodes ∧ p.index ≤ (g.node p.node).stmts.length

theorem caught {t : NodeId} (raises : g.catcher i k = some t) : t ∈ (g.node i).catchSuccs := by
  rw [catcher,Option.filter_eq_some_iff] at raises
  simpa using raises.2

theorem meetInto {t : NodeId} (meets : g.meet i s c = some (.into t)) : t ∈ (g.node i).catchSuccs := by
  unfold meet at meets
  split at meets
  · cases meets
  · split at meets <;> cases meets
  · obtain ⟨u,raises,same⟩ := Option.map_eq_some_iff.mp meets
    injection same with same
    exact same ▸ caught raises
  · cases meets
  · cases meets

theorem Coherent.moves (coherent : g.Coherent) (inner : g.Inner p)
    (moves : g.move p c = some (ls,some q)) : g.Inner q := by
  obtain ⟨member,index⟩ := inner
  cases here : (g.node p.node).stmts[p.index]? with
  | some s =>
    rw [moveAt here] at moves
    obtain ⟨w,meets,same⟩ := Option.map_eq_some_iff.mp moves
    cases w with
    | on =>
      simp only [Way.after,Prod.mk.injEq,Option.some.injEq] at same
      exact same.2 ▸ ⟨member,(List.getElem?_eq_some_iff.mp here).1⟩
    | into t =>
      simp only [Way.after,Prod.mk.injEq,Option.some.injEq] at same
      exact same.2 ▸ ⟨(coherent.raised.forth _ member t (meetInto meets)).1,Nat.zero_le _⟩
    | out => simp [Way.after] at same
  | none =>
    rw [moveEnd here] at moves
    obtain ⟨w,leaves,same⟩ := Option.map_eq_some_iff.mp moves
    cases w with
    | on => exact absurd leaves Node.leaveOn
    | into t =>
      simp only [Way.after,Prod.mk.injEq,Option.some.injEq] at same
      have leads := (coherent.formed _ member).leads leaves
      exact same.2 ▸ ⟨(coherent.normal.forth _ member t leads).1,Nat.zero_le _⟩
    | out => simp [Way.after] at same

def Echoes (g h : Graph) (φ : Point → Point) (p : Point) : Prop :=
  ∀ c, h.move (φ p) c = (g.move p c).map (Prod.map id (Option.map φ))

def Slips (g : Graph) (p q : Point) : Prop := ∀ c, g.move p c = if c = none then some ([],some q) else none

structure Folds (g h : Graph) (φ : Point → Point) : Prop where
  entry : (h.entry.map fun e => (⟨e,0⟩ : Point)) = g.entry.map fun e => φ ⟨e,0⟩
  moves : ∀ p, g.Inner p → g.Echoes h φ p ∨ ∃ q, g.Slips p q ∧ φ q = φ p ∧ g.Echoes h φ q

theorem Folds.forth (folds : g.Folds h φ) (coherent : g.Coherent) (course : g.Course p cs ls ends)
    (inner : g.Inner p) : h.Course (φ p) cs ls ends := by
  induction course with
  | stop => exact .stop
  | @step p q c cs ls ls' ends moves rest ih =>
    have onward := ih (coherent.moves inner moves)
    rcases folds.moves p inner with echoes | ⟨r,slips,same,-⟩
    · exact .step ((echoes c).trans (by rw [moves]; rfl)) onward
    · rw [slips c] at moves
      split at moves
      · rename_i silent
        cases moves
        rw [silent,← same]
        exact onward
      · contradiction
  | @leave p c ls moves =>
    rcases folds.moves p inner with echoes | ⟨r,slips,same,-⟩
    · exact .leave ((echoes c).trans (by rw [moves]; rfl))
    · rw [slips c] at moves
      split at moves
      · cases moves
      · contradiction

theorem Slips.course (slips : g.Slips p q) (rest : g.Course q cs ls ends) : g.Course p cs ls ends :=
  .step (c := none) (slips none) rest

theorem Folds.back (folds : g.Folds h φ) (coherent : g.Coherent) {p' : Point}
    (course : h.Course p' cs ls ends) : ∀ p, g.Inner p → φ p = p' → g.Course p cs ls ends := by
  induction course with
  | stop => exact fun p _ _ => .stop
  | @step p' q' c cs ls ls' ends moves rest ih =>
    have ready : ∀ p, g.Inner p → φ p = p' → g.Echoes h φ p → g.Course p (c.toList ++ cs) (ls ++ ls') ends := by
      intro p inner same echoes
      rw [← same,echoes c] at moves
      obtain ⟨⟨ls₁,r⟩,leads,images⟩ := Option.map_eq_some_iff.mp moves
      cases r with
      | none => simp at images
      | some q =>
        simp only [Prod.map_apply,id_eq,Option.map_some,Prod.mk.injEq,Option.some.injEq] at images
        obtain ⟨rfl,images⟩ := images
        exact .step leads (ih q (coherent.moves inner leads) images)
    intro p inner same
    rcases folds.moves p inner with echoes | ⟨q,slips,equal,echoes⟩
    · exact ready p inner same echoes
    · exact slips.course (ready q (coherent.moves inner (slips none)) (equal.trans same) echoes)
  | @leave p' c ls moves =>
    have ready : ∀ p, φ p = p' → g.Echoes h φ p → g.Course p c.toList ls true := by
      intro p same echoes
      rw [← same,echoes c] at moves
      obtain ⟨⟨ls₁,r⟩,leads,images⟩ := Option.map_eq_some_iff.mp moves
      cases r with
      | none =>
        simp only [Prod.map_apply,id_eq,Prod.mk.injEq] at images
        exact images.1 ▸ .leave leads
      | some q => simp at images
    intro p inner same
    rcases folds.moves p inner with echoes | ⟨q,slips,equal,echoes⟩
    · exact ready p same echoes
    · exact slips.course (ready q (equal.trans same) echoes)

theorem Folds.executes (folds : g.Folds h φ) (coherent : g.Coherent) :
    g.Executes cs ls ends ↔ h.Executes cs ls ends := by
  have entry := folds.entry
  constructor
  · rintro ⟨e,first,course⟩
    rw [first] at entry
    obtain ⟨e',first',same⟩ := Option.map_eq_some_iff.mp entry
    refine ⟨e',first',same ▸ ?_⟩
    exact folds.forth coherent course ⟨coherent.entry e first,Nat.zero_le _⟩
  · rintro ⟨e',first',course⟩
    rw [first'] at entry
    obtain ⟨e,first,same⟩ := Option.map_eq_some_iff.mp entry.symm
    exact ⟨e,first,folds.back coherent course _ ⟨coherent.entry e first,Nat.zero_le _⟩ same⟩

theorem echoesAt {x : Nat} {i' : NodeId} {x' : Nat} (place : φ ⟨i,x⟩ = ⟨i',x'⟩)
    (here : (g.node i).stmts[x]? = some s) (there : (h.node i').stmts[x']? = some s)
    (next : φ ⟨i,x + 1⟩ = ⟨i',x' + 1⟩)
    (catches : s.canThrow = true → ∀ k, h.catcher i' k = (g.catcher i k).map f)
    (targets : ∀ t ∈ (g.node i).catchSuccs, φ ⟨t,0⟩ = ⟨f t,0⟩) : g.Echoes h φ ⟨i,x⟩ := by
  intro c
  rw [place,moveAt (p := ⟨i',x'⟩) there,moveAt (p := ⟨i,x⟩) here]
  have meets : h.meet i' s c = (g.meet i s c).map (Way.map f) := by
    unfold meet
    split
    · rfl
    · split <;> rfl
    · rename_i k throws
      rw [catches throws,Option.map_map,Option.map_map]
      rfl
    · rfl
    · rfl
  rw [meets,Option.map_map,Option.map_map]
  refine Option.map_congr fun w leads => ?_
  cases w with
  | on => simp [Way.map,Way.after,next]
  | out => rfl
  | into t => simp [Way.map,Way.after,targets t (meetInto leads)]

theorem echoesEnd {x : Nat} {i' : NodeId} {x' : Nat} (place : φ ⟨i,x⟩ = ⟨i',x'⟩)
    (here : (g.node i).stmts[x]? = none) (there : (h.node i').stmts[x']? = none)
    (formed : (g.node i).Formed)
    (leaves : ∀ c, (h.node i').leave c = ((g.node i).leave c).map (Way.map f))
    (targets : ∀ t ∈ (g.node i).succs, φ ⟨t,0⟩ = ⟨f t,0⟩) : g.Echoes h φ ⟨i,x⟩ := by
  intro c
  rw [place,moveEnd (p := ⟨i',x'⟩) there,moveEnd (p := ⟨i,x⟩) here,leaves,Option.map_map,Option.map_map]
  refine Option.map_congr fun w leads => ?_
  cases w with
  | on => exact absurd leads Node.leaveOn
  | out => rfl
  | into t => simp [Way.map,Way.after,targets t (formed.leads leads)]

end Graph

end RegCode
