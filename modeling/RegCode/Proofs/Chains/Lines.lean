import RegCode.Proofs.Chains.Restating
import RegCode.Proofs.Chains.Substitution
import RegCode.Proofs.Expr.Lines

/-! The names in a graph come from the code that it is the graph of. Dataflow passes bring in no line
break. -/
namespace RegCode

namespace VarTable.OneLine

variable {t : VarTable}

theorem blank {r : Int} : Variable.OneLine { register := r } := ⟨nofun,nofun⟩

theorem empty : VarTable.empty.OneLine := fun _ => blank

theorem push (line : t.OneLine) {x : Variable} (new : x.OneLine) : (t.push x).1.OneLine := by
  intro v
  simp only [VarTable.push,get,Array.getElem?_push]
  split
  · exact new
  · exact line v

theorem set (line : t.OneLine) (v : VarId) {x : Variable} (new : x.OneLine) : (t.set v x).OneLine := by
  intro w
  by_cases here : v = w
  · subst here
    by_cases inside : v < t.vars.size
    · simpa [VarTable.set,get,inside] using new
    · simp only [VarTable.set,get]
      rw [Array.setIfInBounds_eq_of_size_le (Nat.le_of_not_lt inside)]
      exact line v
  · simpa [VarTable.set,get,here] using line w

theorem setType (line : t.OneLine) (v : VarId) {type : String} (new : Text.OneLine type) :
    (t.setType v type).OneLine := line.set v ⟨new,(line v).name⟩

theorem fresh (line : t.OneLine) (v : VarId) : (t.fresh v).1.OneLine := by
  refine line.push ⟨?_,nofun⟩
  dsimp only
  split
  · decide
  · exact (line v).type

theorem register (line : t.OneLine) (r : Int) : (t.register r).1.OneLine := by
  unfold VarTable.register
  split
  · exact line
  · exact line.push blank

end VarTable.OneLine

structure Graph.OneLine (g : Graph) : Prop where
  acts : ∀ i, ∀ s ∈ (g.node i).stmts, s.act.OneLine
  vars : g.vars.OneLine
  types : ∀ r ∈ g.regions, ∀ h ∈ r.handlers, Text.OneLine h.type

namespace Graph.OneLine

variable {g : Graph}

theorem withVars (line : g.OneLine) {t : VarTable} (vars : t.OneLine) : Graph.OneLine { g with vars := t } :=
  ⟨line.acts,vars,line.types⟩

theorem modify (line : g.OneLine) (i : NodeId) {f : Node → Node}
    (keeps : ∀ n : Node, (∀ s ∈ n.stmts, s.act.OneLine) → ∀ s ∈ (f n).stmts, s.act.OneLine) :
    (g.modify i f).OneLine := by
  refine ⟨fun j => ?_,line.vars,line.types⟩
  rw [nodeModify]
  split
  · exact keeps _ (line.acts j)
  · exact line.acts j

theorem modifyStmts (line : g.OneLine) (loc : Loc) {f : Stmt → Stmt}
    (keeps : ∀ s, s.act.OneLine → (f s).act.OneLine) :
    Graph.OneLine { g with store := g.store.map (Node.modifyStmt loc f) } := by
  refine ⟨fun i => ?_,line.vars,line.types⟩
  rw [stmtsModified]
  refine List.forall_mem_map.mpr fun s member => ?_
  split
  · exact keeps s (line.acts i s member)
  · exact line.acts i s member

end Graph.OneLine

theorem Node.modifiedLine {n : Node} (line : ∀ s ∈ n.stmts, s.act.OneLine) (loc : Loc) {f : Stmt → Stmt}
    (keeps : ∀ s, s.act.OneLine → (f s).act.OneLine) : ∀ s ∈ (n.modifyStmt loc f).stmts, s.act.OneLine := by
  refine List.forall_mem_map.mpr fun s member => ?_
  split
  · exact keeps s (line s member)
  · exact line s member

namespace Analysed

variable {a b : Analysed}

theorem stmtLine (line : a.graph.OneLine) {loc : Loc} {s : Stmt} (found : a.stmt? loc = some s) :
    s.act.OneLine := by
  have held : ∀ n : Node, (∀ t ∈ n.stmts, t.act.OneLine) → ∀ t, n.stmt? loc = some t → t.act.OneLine :=
    fun n all t here => all t (List.mem_of_find?_eq_some here)
  simp only [stmt?,Chains.stmt?,bind,Option.bind_eq_some_iff,Option.some.injEq] at found
  obtain ⟨i,-,t,here,rfl⟩ := found
  have own : t.act.OneLine := by
    cases first : (a.graph.node i).stmt? loc with
    | some r =>
      rw [first] at here
      exact Option.some.inj here ▸ held _ (line.acts i) r first
    | none =>
      rw [first] at here
      obtain ⟨n,member,here⟩ := List.exists_of_findSome?_eq_some here
      obtain ⟨j,inside,rfl⟩ := List.mem_iff_getElem.mp member
      refine held _ ?_ t here
      have acts := line.acts j
      simp only [Array.length_toList] at inside
      rwa [Graph.node,Array.getElem?_eq_getElem inside] at acts
  split
  · exact Action.oneLineWithout own
  · exact own

theorem assignedLine (line : a.graph.OneLine) {loc : Loc} {v : VarId} {e : Expr}
    (found : a.assignment? loc = some (v,e)) : e.OneLine := by
  unfold assignment? at found
  split at found
  · rename_i w value declares assigns
    cases found
    obtain ⟨s,here,act⟩ := Option.map_eq_some_iff.mp assigns
    have own := stmtLine line here
    rw [act] at own
    exact own
  · contradiction

theorem modifyLine (line : a.graph.OneLine) (loc : Loc) {f : Stmt → Stmt}
    (keeps : ∀ s, s.act.OneLine → (f s).act.OneLine) : (a.modifyStmt loc f).graph.OneLine := by
  unfold modifyStmt
  split
  · exact line.modifyStmts loc keeps
  · exact line

theorem removeLine (line : a.graph.OneLine) (loc : Loc) : (a.removeStmt loc).1.graph.OneLine := by
  unfold removeStmt
  split
  · exact line.modify _ fun n all s member => all s (List.mem_filter.mp member).1
  · exact line

theorem lifetimesLine (line : a.graph.OneLine) (split : a.splitLifetimes = .ok b) : b.graph.OneLine := by
  have renames : ∀ (v new : VarId) (a : Analysed) (web : List Loc), a.graph.OneLine →
      (renameWeb v new a web).graph.OneLine := by
    intro v new a web line
    refine List.foldlRecOn web _ (motive := fun b : Analysed => b.graph.OneLine) line fun b line d _ => ?_
    refine List.foldlRecOn _ _ (motive := fun b : Analysed => b.graph.OneLine)
      (modifyLine line d fun s => Action.oneLineRename new) fun c line u _ => ?_
    exact modifyLine line u fun s => Action.oneLineReplace (e := .var new) trivial
  have splits : (a.chains.definedVars.foldl splitVariable a).graph.OneLine := by
    refine List.foldlRecOn _ _ (motive := fun b : Analysed => b.graph.OneLine) line fun b line v _ => ?_
    refine List.foldlRecOn _ _ (motive := fun b : Analysed => b.graph.OneLine) line fun c line web _ => ?_
    exact renames v _ _ web (line.withVars (line.vars.fresh v))
  unfold splitLifetimes at split
  dsimp only at split
  split at split
  · cases Except.ok.inj split
    exact line
  · cases linked : Chains.ofGraph (a.chains.definedVars.foldl splitVariable a).graph with
    | error fault =>
      rw [linked] at split
      contradiction
    | ok chains =>
      rw [linked] at split
      cases Except.ok.inj split
      exact splits

theorem eliminateLine (fuel : Nat) (line : a.graph.OneLine) (work : List Site) (removed : Nat) :
    (eliminateFrom fuel a work removed).1.graph.OneLine := by
  have site : ∀ {a : Analysed} (site : Site), a.graph.OneLine → (a.eliminateSite site).1.graph.OneLine := by
    intro a site line
    unfold eliminateSite
    split
    split
    · split
      · exact line
      · split
        · split
          · exact line.modify _ fun n all => n.modifiedLine all _ fun s => Action.oneLineWithout
          · exact line
        · split
          · exact line
          · exact removeLine line _
    · exact line
  induction fuel generalizing a work removed with
  | zero => exact line
  | succ fuel ih =>
    cases work with
    | nil => exact line
    | cons s work => exact ih (site s line) _ _

theorem substituteLine (line : a.graph.OneLine) {value : Expr} (own : value.OneLine) (u : Loc) (v : VarId)
    (d : Loc) : (a.substitute u v d value).graph.OneLine := by
  have replaced := modifyLine line u (f := Stmt.replace v value) fun s => Action.oneLineReplace own
  unfold substitute
  dsimp only
  split
  · refine removeLine ?_ d
    exact replaced
  · exact replaced

theorem propagateLine (o : PropagateOptions) (line : a.graph.OneLine) : (a.propagate o).1.graph.OneLine := by
  refine propagateInduction (P := fun a => a.graph.OneLine) o (fun a u n v line => ?_) line
  unfold propagateVar
  dsimp only
  split
  · exact line
  · rename_i s found
    split
    · exact line
    · rename_i d value picked
      have put := substituteLine line (assignedLine line (checked picked).assigns) u v d
      split
      · exact modifyLine put u fun s => Action.oneLineFold
      · exact put

theorem definedLine (line : a.graph.OneLine) (v : VarId) : Text.OneLine (a.definedType v) := by
  have values : ∀ e ∈ (a.chains.defs v).filterMap fun d => (a.assignment? d).map Prod.snd,
      Text.OneLine (e.type a.graph.vars) := by
    intro e member
    obtain ⟨d,-,assigns⟩ := List.mem_filterMap.mp member
    obtain ⟨⟨w,value⟩,found,rfl⟩ := Option.map_eq_some_iff.mp assigns
    exact value.typeLine line.vars (assignedLine line found)
  unfold definedType
  dsimp only
  split
  · rename_i e found
    exact values e (List.mem_filter.mp (List.mem_of_find?_eq_some found)).1
  · cases first : ((a.chains.defs v).filterMap fun d => (a.assignment? d).map Prod.snd).filter
        fun e => e.type a.graph.vars != "" with
    | nil => exact nofun
    | cons e es => exact values e (List.mem_filter.mp (first ▸ List.mem_cons_self ..)).1

theorem typesLine (line : a.graph.OneLine) : a.inferTypes.graph.OneLine := by
  have infers : ∀ (acc : Analysed × Bool) v, acc.1.graph.OneLine → (inferVar acc v).1.graph.OneLine := by
    intro acc v line
    unfold inferVar
    dsimp only
    split
    · exact line
    · split
      · exact line
      · exact line.withVars (line.vars.setType v (definedLine line v))
  suffices rounds : ∀ (fuel : Nat) (a : Analysed), a.graph.OneLine → (inferRounds fuel a).graph.OneLine from
    rounds _ a line
  intro fuel
  induction fuel with
  | zero => exact fun a line => line
  | succ fuel ih =>
    intro a line
    have round : (a.chains.definedVars.foldl inferVar (a,false)).1.graph.OneLine :=
      List.foldlRecOn _ _ (motive := fun r : Analysed × Bool => r.1.graph.OneLine) line
        fun r line v _ => infers r v line
    unfold inferRounds
    dsimp only
    split
    · exact ih _ round
    · exact round

theorem declarationsLine (line : a.graph.OneLine) (d : Dominators) (loops : LoopForest) :
    (a.placeDeclarations d loops).1.graph.OneLine := by
  have declares : ∀ {a : Analysed} i v, a.graph.OneLine → (a.declareIn i v).graph.OneLine := by
    intro a i v line
    unfold declareIn
    split
    · exact line.modifyStmts _ fun s => Action.oneLineDeclaring
    · have put := line.modify i (f := fun n => { n with stmts := ⟨a.graph.nextLoc,.declare v⟩ :: n.stmts })
        fun n all => List.forall_mem_cons.mpr ⟨trivial,all⟩
      exact ⟨put.acts,put.vars,put.types⟩
  refine List.foldlRecOn _ _ (motive := fun r : Analysed × List (VarId × NodeId) => r.1.graph.OneLine)
    (typesLine line) fun r line v _ => ?_
  unfold placeVar
  dsimp only
  split
  · exact line
  · split
    · exact line
    · exact declares _ v line

theorem Pass.oneLine (pass : a.Pass b) (line : a.graph.OneLine) : b.graph.OneLine := by
  cases pass with
  | relink chains => exact line
  | lifetimes split => exact lifetimesLine line split
  | deadCode => exact eliminateLine _ line _ _
  | propagate o => exact propagateLine o line
  | types => exact typesLine line
  | declarations d loops => exact declarationsLine line d loops

end Analysed

end RegCode
