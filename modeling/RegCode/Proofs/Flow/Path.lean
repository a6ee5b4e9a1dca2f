import RegCode.Flow.Graph
import Mathlib.Data.List.Nodup
import Mathlib.Logic.Function.Basic
import Mathlib.Logic.Relation

/-! Ways through a graph. A point stands before a statement of a node or at its end. A normal edge
leaves a node at its end, an exceptional one at any point, the statements before it carried out. -/
namespace RegCode

structure Point where
  node : NodeId
  index : Nat
  deriving DecidableEq, Repr

namespace Graph

/-- The statement that stands at a point of a numbered node. -/
def StmtAt (g : Graph) (p : Point) (s : Stmt) : Prop :=
  p.node ∈ g.rpo ∧ (g.node p.node).stmts[p.index]? = some s

/-- A way from one point to another that carries out only statements of the kind `ok`. -/
inductive Path (g : Graph) (ok : Stmt → Prop) (p : Point) : Point → Prop where
  | stay : Path g ok p p
  | next {i k s} (way : Path g ok p ⟨i,k⟩) (here : (g.node i).stmts[k]? = some s) (pass : ok s) :
      Path g ok p ⟨i,k + 1⟩
  | edge {i j} (way : Path g ok p ⟨i,(g.node i).stmts.length⟩) (out : j ∈ (g.node i).succs) :
      Path g ok p ⟨j,0⟩
  | raise {i j k} (way : Path g ok p ⟨i,k⟩) (out : j ∈ (g.node i).catchSuccs) :
      Path g ok p ⟨j,0⟩

theorem Path.mono {g : Graph} {ok ok' : Stmt → Prop} {p q : Point} (path : Path g ok p q)
    (weaker : ∀ s, ok s → ok' s) : Path g ok' p q := by
  induction path with
  | stay => exact .stay
  | next way here pass ih => exact .next ih here (weaker _ pass)
  | edge way out ih => exact .edge ih out
  | raise way out ih => exact .raise ih out

theorem Path.trans {g : Graph} {ok : Stmt → Prop} {p q r : Point} (first : Path g ok p q)
    (second : Path g ok q r) : Path g ok p r := by
  induction second with
  | stay => exact first
  | next way here pass ih => exact .next ih here pass
  | edge way out ih => exact .edge ih out
  | raise way out ih => exact .raise ih out

/-- The edges of the numbered nodes, each listed at both ends, lead from such nodes to such nodes. -/
structure Edged (g : Graph) : Prop where
  inStore : ∀ i ∈ g.rpo, i < g.store.size
  entry : ∀ e, g.entry = some e → e ∈ g.rpo
  empty : g.entry = none → g.rpo = []
  succs : ∀ i ∈ g.rpo, ∀ j ∈ (g.node i).succs, j ∈ g.rpo ∧ i ∈ (g.node j).preds
  preds : ∀ j ∈ g.rpo, ∀ i ∈ (g.node j).preds, i ∈ g.rpo ∧ j ∈ (g.node i).succs
  catchSuccs : ∀ i ∈ g.rpo, ∀ j ∈ (g.node i).catchSuccs, j ∈ g.rpo ∧ i ∈ (g.node j).catchPreds
  catchPreds : ∀ j ∈ g.rpo, ∀ i ∈ (g.node j).catchPreds, i ∈ g.rpo ∧ j ∈ (g.node i).catchSuccs

/-- What is defined has a place in the table of variables too. -/
structure Wired (g : Graph) : Prop extends Edged g where
  defs : ∀ i ∈ g.rpo, ∀ s ∈ (g.node i).stmts, ∀ v, s.def? = some v → v < g.vars.size
  params : ∀ v ∈ g.params, v < g.vars.size

theorem Edged.alike {g h : Graph} (edged : g.Edged) (rpo : h.rpo = g.rpo) (entry : h.entry = g.entry)
    (size : h.store.size = g.store.size)
    (edges : ∀ i, (h.node i).succs = (g.node i).succs ∧ (h.node i).preds = (g.node i).preds ∧
      (h.node i).catchSuccs = (g.node i).catchSuccs ∧
      (h.node i).catchPreds = (g.node i).catchPreds) : h.Edged := by
  refine ⟨?_,?_,?_,?_,?_,?_,?_⟩
  · rw [rpo,size]; exact edged.inStore
  · rw [rpo,entry]; exact edged.entry
  · rw [rpo,entry]; exact edged.empty
  · intro i member j out
    rw [rpo] at member ⊢
    rw [(edges i).1] at out
    rw [(edges j).2.1]
    exact edged.succs i member j out
  · intro j member i into
    rw [rpo] at member ⊢
    rw [(edges j).2.1] at into
    rw [(edges i).1]
    exact edged.preds j member i into
  · intro i member j out
    rw [rpo] at member ⊢
    rw [(edges i).2.2.1] at out
    rw [(edges j).2.2.2]
    exact edged.catchSuccs i member j out
  · intro j member i into
    rw [rpo] at member ⊢
    rw [(edges j).2.2.2] at into
    rw [(edges i).2.2.1]
    exact edged.catchPreds j member i into

/-- No two statements of the numbered nodes have one location. -/
def LocsDistinct (g : Graph) : Prop :=
  (g.rpo.flatMap fun i => (g.node i).stmts.map (·.loc)).Nodup

theorem Path.inRpo {g : Graph} {ok : Stmt → Prop} {p q : Point} (wired : g.Wired)
    (path : Path g ok p q) (start : p.node ∈ g.rpo) : q.node ∈ g.rpo := by
  induction path with
  | stay => exact start
  | next way here pass ih => exact ih
  | edge way out ih => exact (wired.succs _ ih _ out).1
  | raise way out ih => exact (wired.catchSuccs _ ih _ out).1

theorem Path.index {g : Graph} {ok : Stmt → Prop} {p q : Point} (path : Path g ok p q)
    (start : p.index ≤ (g.node p.node).stmts.length) : q.index ≤ (g.node q.node).stmts.length := by
  induction path with
  | stay => exact start
  | next way here pass ih => exact (List.getElem?_eq_some_iff.mp here).1
  | edge way out ih => exact Nat.zero_le _
  | raise way out ih => exact Nat.zero_le _

variable {g : Graph}

theorem nodeOfLoc {is : List NodeId} (distinct : (is.flatMap fun i => (g.node i).stmts.map (·.loc)).Nodup)
    {i j : NodeId} (left : i ∈ is) (right : j ∈ is) {l : Loc}
    (inLeft : l ∈ (g.node i).stmts.map (·.loc)) (inRight : l ∈ (g.node j).stmts.map (·.loc)) :
    i = j := by
  induction is with
  | nil => contradiction
  | cons a is ih =>
    rw [List.flatMap_cons] at distinct
    obtain ⟨-,rest,apart⟩ := List.nodup_append'.mp distinct
    rcases List.mem_cons.mp left with here | before <;>
      rcases List.mem_cons.mp right with there | after
    · exact here.trans there.symm
    · exact (apart (here ▸ inLeft) (List.mem_flatMap.mpr ⟨j,after,inRight⟩)).elim
    · exact (apart (there ▸ inRight) (List.mem_flatMap.mpr ⟨i,before,inLeft⟩)).elim
    · exact ih rest before after

theorem nodeLocsNodup (distinct : g.LocsDistinct) {i : NodeId} (member : i ∈ g.rpo) :
    ((g.node i).stmts.map (·.loc)).Nodup := (List.nodup_flatMap.mp distinct).1 i member

theorem StmtAt.unique (distinct : g.LocsDistinct) {p q : Point} {s t : Stmt} (left : g.StmtAt p s)
    (right : g.StmtAt q t) (same : s.loc = t.loc) : p = q ∧ s = t := by
  obtain ⟨i,k⟩ := p
  obtain ⟨j,l⟩ := q
  obtain ⟨inLeft,left⟩ := left
  obtain ⟨inRight,right⟩ := right
  have nodes : i = j := nodeOfLoc distinct inLeft inRight
    (List.mem_map.mpr ⟨s,List.mem_of_getElem? left,rfl⟩)
    (List.mem_map.mpr ⟨t,List.mem_of_getElem? right,same.symm⟩)
  subst nodes
  have short : k < ((g.node i).stmts.map (·.loc)).length := by
    rw [List.length_map]
    exact (List.getElem?_eq_some_iff.mp left).1
  have index : k = l := by
    refine (List.getElem?_inj short (nodeLocsNodup distinct inLeft)).mp ?_
    simp only at left right
    rw [List.getElem?_map,List.getElem?_map,left,right,Option.map_some,Option.map_some,same]
  subst index
  exact ⟨rfl,Option.some.inj (left.symm.trans right)⟩

theorem stmtAtLoc (distinct : g.LocsDistinct) {p : Point} {s : Stmt} (here : g.StmtAt p s) :
    (g.node p.node).stmt? s.loc = some s := by
  obtain ⟨t,found⟩ : ∃ t, (g.node p.node).stmt? s.loc = some t := by
    rw [← Option.isSome_iff_exists,Node.stmt?,List.find?_isSome]
    exact ⟨s,List.mem_of_getElem? here.2,by simp⟩
  have same : t.loc = s.loc := by simpa using List.find?_some found
  obtain ⟨k,at_⟩ := List.getElem?_of_mem (List.mem_of_find?_eq_some found)
  rw [found,((StmtAt.unique distinct (p := ⟨p.node,k⟩) ⟨here.1,at_⟩ here same).2)]

theorem takeWhileLoc (distinct : g.LocsDistinct) {p : Point} {s : Stmt} (here : g.StmtAt p s) :
    (g.node p.node).stmts.takeWhile (·.loc != s.loc) = (g.node p.node).stmts.take p.index := by
  obtain ⟨short,same⟩ := List.getElem?_eq_some_iff.mp here.2
  have others : ∀ t ∈ (g.node p.node).stmts.take p.index, (t.loc != s.loc) = true := by
    intro t member
    obtain ⟨k,at_⟩ := List.getElem?_of_mem member
    rw [List.getElem?_take] at at_
    split at at_
    · rename_i before
      rw [bne_iff_ne]
      intro equal
      have := (StmtAt.unique distinct (p := ⟨p.node,k⟩) ⟨here.1,at_⟩ here equal).1
      have : k = p.index := congrArg Point.index this
      omega
    · contradiction
  have parts : (g.node p.node).stmts =
      (g.node p.node).stmts.take p.index ++ s :: (g.node p.node).stmts.drop (p.index + 1) := by
    rw [← same,← List.drop_eq_getElem_cons short,List.take_append_drop]
  conv_lhs => rw [parts]
  rw [List.takeWhile_append_of_pos others]
  simp

end Graph

end RegCode

/-! Runs along the ways of a graph. An assignment gives its variable a value that its expression may
have there; what the expressions mean is left open. -/
namespace RegCode

def Point.next (p : Point) : Point := ⟨p.node,p.index + 1⟩

/-- A value for every variable. -/
abbrev Values (V : Type) := VarId → V

/-- What each expression may come to. -/
abbrev Meaning (V : Type) := Expr → Values V → V → Prop

/-- An expression that acts on nothing and looks at no memory means the same wherever the variables
that it reads have the same values. -/
def Meaning.Local {V : Type} (m : Meaning V) : Prop :=
  ∀ (e : Expr) (ρ σ : Values V) (w : V), e.hasEffects = false → e.readsMemory = false →
    (∀ x ∈ e.vars, σ x = ρ x) → m e ρ w → m e σ w

def Stmt.Carried {V : Type} (m : Meaning V) (s : Stmt) (ρ σ : Values V) : Prop :=
  match s.act with
  | .assign v e _ => ∃ w, m e ρ w ∧ σ = Function.update ρ v w
  | _ => σ = ρ

theorem Stmt.Carried.other {V : Type} {m : Meaning V} {s : Stmt} {ρ σ : Values V} {x : VarId}
    (h : s.Carried m ρ σ) (keeps : s.def? ≠ some x) : σ x = ρ x := by
  unfold Carried at h
  split at h
  · rename_i v e b act
    obtain ⟨w,-,rfl⟩ := h
    have other : x ≠ v := fun same => keeps (by simp [def?,act,Action.def?,same])
    exact Function.update_of_ne other w ρ
  · rw [h]

namespace Graph

inductive Run {V : Type} (g : Graph) (m : Meaning V) (ok : Stmt → Prop) (p : Point) (ρ : Values V) :
    Point → Values V → Prop where
  | stay : Run g m ok p ρ p ρ
  | next {i k s σ τ} (way : Run g m ok p ρ ⟨i,k⟩ σ) (here : (g.node i).stmts[k]? = some s)
      (pass : ok s) (done : s.Carried m σ τ) : Run g m ok p ρ ⟨i,k + 1⟩ τ
  | edge {i j σ} (way : Run g m ok p ρ ⟨i,(g.node i).stmts.length⟩ σ)
      (out : j ∈ (g.node i).succs) : Run g m ok p ρ ⟨j,0⟩ σ
  | raise {i j k σ} (way : Run g m ok p ρ ⟨i,k⟩ σ) (out : j ∈ (g.node i).catchSuccs) :
      Run g m ok p ρ ⟨j,0⟩ σ

variable {g : Graph} {ok : Stmt → Prop} {p q : Point}

def Between (g : Graph) (ok : Stmt → Prop) (p q : Point) (t : Stmt) : Prop :=
  ∃ r, (g.node r.node).stmts[r.index]? = some t ∧ ok t ∧ g.Path ok p r ∧ g.Path ok r.next q

theorem Between.next {i : NodeId} {k : Nat} {s t : Stmt} (h : g.Between ok p ⟨i,k⟩ t)
    (here : (g.node i).stmts[k]? = some s) (pass : ok s) : g.Between ok p ⟨i,k + 1⟩ t := by
  obtain ⟨r,at_,okay,before,after⟩ := h
  exact ⟨r,at_,okay,before,.next after here pass⟩

theorem Between.edge {i j : NodeId} {t : Stmt}
    (h : g.Between ok p ⟨i,(g.node i).stmts.length⟩ t) (out : j ∈ (g.node i).succs) :
    g.Between ok p ⟨j,0⟩ t := by
  obtain ⟨r,at_,okay,before,after⟩ := h
  exact ⟨r,at_,okay,before,.edge after out⟩

theorem Between.raise {i j : NodeId} {k : Nat} {t : Stmt} (h : g.Between ok p ⟨i,k⟩ t)
    (out : j ∈ (g.node i).catchSuccs) : g.Between ok p ⟨j,0⟩ t := by
  obtain ⟨r,at_,okay,before,after⟩ := h
  exact ⟨r,at_,okay,before,.raise after out⟩

theorem Run.path {V : Type} {m : Meaning V} {ρ σ : Values V} (run : g.Run m ok p ρ q σ) :
    g.Path ok p q := by
  induction run with
  | stay => exact .stay
  | next way here pass done ih => exact .next ih here pass
  | edge way out ih => exact .edge ih out
  | raise way out ih => exact .raise ih out

theorem Run.kept {V : Type} {m : Meaning V} {ρ σ : Values V} (run : g.Run m ok p ρ q σ)
    (x : VarId) : σ x = ρ x ∨ ∃ t, t.def? = some x ∧ g.Between ok p q t := by
  induction run with
  | stay => exact .inl rfl
  | @next i k s σ τ way here pass done ih =>
    by_cases defines : s.def? = some x
    · exact .inr ⟨s,defines,⟨i,k⟩,here,pass,way.path,.stay⟩
    · rcases ih with same | ⟨t,assigns,between⟩
      · exact .inl ((done.other defines).trans same)
      · exact .inr ⟨t,assigns,between.next here pass⟩
  | edge way out ih => exact ih.imp id fun ⟨t,assigns,between⟩ => ⟨t,assigns,between.edge out⟩
  | raise way out ih => exact ih.imp id fun ⟨t,assigns,between⟩ => ⟨t,assigns,between.raise out⟩

theorem Path.last (path : g.Path ok p q) (x : VarId) :
    g.Path (fun s => ok s ∧ s.def? ≠ some x) p q ∨
      ∃ r t, (g.node r.node).stmts[r.index]? = some t ∧ ok t ∧ t.def? = some x ∧
        g.Path ok p r ∧ g.Path (fun s => ok s ∧ s.def? ≠ some x) r.next q := by
  induction path with
  | stay => exact .inl .stay
  | @next i k s way here pass ih =>
    by_cases defines : s.def? = some x
    · exact .inr ⟨⟨i,k⟩,s,here,pass,defines,way,.stay⟩
    · rcases ih with clear | ⟨r,t,at_,okay,assigns,before,after⟩
      · exact .inl (.next clear here ⟨pass,defines⟩)
      · exact .inr ⟨r,t,at_,okay,assigns,before,.next after here ⟨pass,defines⟩⟩
  | edge way out ih =>
    exact ih.imp (.edge · out) fun ⟨r,t,at_,okay,assigns,before,after⟩ =>
      ⟨r,t,at_,okay,assigns,before,.edge after out⟩
  | raise way out ih =>
    exact ih.imp (.raise · out) fun ⟨r,t,at_,okay,assigns,before,after⟩ =>
      ⟨r,t,at_,okay,assigns,before,.raise after out⟩

def anyMeaning : Meaning Bool := fun _ _ _ => True

theorem carriedAs (b : Bool) (s : Stmt) (ρ : Values Bool) :
    ∃ σ, s.Carried anyMeaning ρ σ ∧ (∀ x, σ x = ρ x ∨ σ x = b) ∧
      ∀ x, s.def? = some x → σ x = b := by
  cases act : s.act
  case assign v e d =>
    refine ⟨Function.update ρ v b,by simp only [Stmt.Carried,act]; exact ⟨b,trivial,rfl⟩,
      fun x => ?_,fun x defines => ?_⟩
    · by_cases same : x = v
      · subst same; simp
      · exact .inl (Function.update_of_ne same b ρ)
    · have same : v = x := by simpa [Stmt.def?,act,Action.def?] using defines
      subst same; simp
  all_goals exact ⟨ρ,by simp [Stmt.Carried,act],fun x => .inl rfl,
    fun x defines => by simp [Stmt.def?,act,Action.def?] at defines⟩

theorem Path.runAs (b : Bool) (path : g.Path ok p q) (ρ : Values Bool) :
    ∃ σ, g.Run anyMeaning ok p ρ q σ ∧ ∀ x, σ x = ρ x ∨ σ x = b := by
  induction path with
  | stay => exact ⟨ρ,.stay,fun x => .inl rfl⟩
  | @next i k s way here pass ih =>
    obtain ⟨σ,run,values⟩ := ih
    obtain ⟨τ,done,all,-⟩ := carriedAs b s σ
    exact ⟨τ,.next run here pass done,fun x => (all x).elim
      (fun same => same ▸ values x) .inr⟩
  | edge way out ih => obtain ⟨σ,run,values⟩ := ih; exact ⟨σ,.edge run out,values⟩
  | raise way out ih => obtain ⟨σ,run,values⟩ := ih; exact ⟨σ,.raise run out,values⟩

theorem Run.trans {V : Type} {m : Meaning V} {ρ σ τ : Values V} {r : Point}
    (first : g.Run m ok p ρ q σ) (second : g.Run m ok q σ r τ) : g.Run m ok p ρ r τ := by
  induction second with
  | stay => exact first
  | next way here pass done ih => exact .next ih here pass done
  | edge way out ih => exact .edge ih out
  | raise way out ih => exact .raise ih out

theorem Between.run (b : Bool) {t : Stmt} {x : VarId} (between : g.Between ok p q t)
    (assigns : t.def? = some x) (ρ : Values Bool) : ∃ σ, g.Run anyMeaning ok p ρ q σ ∧ σ x = b := by
  obtain ⟨r,here,okay,before,after⟩ := between
  obtain ⟨σ,first,-⟩ := before.runAs b ρ
  obtain ⟨τ,done,-,set⟩ := carriedAs b t σ
  obtain ⟨υ,second,values⟩ := after.runAs b τ
  refine ⟨υ,Run.trans (.next first here okay done) second,?_⟩
  exact (values x).elim (fun same => same.trans (set x assigns)) id

/-- Every numbered node can be reached from the entry. -/
def Connected (g : Graph) : Prop :=
  ∀ i ∈ g.rpo, ∃ e, g.entry = some e ∧
    Relation.ReflTransGen (fun a b => b ∈ (g.node a).allSuccs) e i

theorem pathInNode (i : NodeId) {k : Nat} (short : k ≤ (g.node i).stmts.length) :
    g.Path (fun _ => True) ⟨i,0⟩ ⟨i,k⟩ := by
  induction k with
  | zero => exact .stay
  | succ k ih => exact .next (ih (Nat.le_of_succ_le short)) (List.getElem?_eq_getElem short) trivial

theorem pathOfEdges {e i : NodeId}
    (edges : Relation.ReflTransGen (fun a b => b ∈ (g.node a).allSuccs) e i) :
    g.Path (fun _ => True) ⟨e,0⟩ ⟨i,0⟩ := by
  induction edges with
  | refl => exact .stay
  | @tail a b before out ih =>
    have end_ := ih.trans (pathInNode a (Nat.le_refl _))
    rcases List.mem_append.mp out with normal | exceptional
    · exact .edge end_ normal
    · exact .raise end_ exceptional

end Graph

end RegCode
