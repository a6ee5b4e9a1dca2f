import RegCode.Chains.Declaration
import RegCode.Chains
import RegCode.Proofs.Chains.Thinning
import RegCode.Proofs.Flow.Edits

/-! Dataflow passes change what the nodes of a graph state, and its variables. All that has to do with
where control goes stays as it is. -/
namespace RegCode

structure Graph.Restated (g h : Graph) : Prop where
  rest : h = { g with store := h.store, vars := h.vars, nextLoc := h.nextLoc }
  size : h.store.size = g.store.size
  nodes : ∀ i, h.node i = { g.node i with stmts := (h.node i).stmts }

namespace Graph

variable {g h k : Graph}

theorem Restated.refl (g : Graph) : g.Restated g := ⟨rfl,rfl,fun _ => rfl⟩

theorem Restated.trans (first : g.Restated h) (second : h.Restated k) : g.Restated k :=
  ⟨by rw [second.rest,first.rest],second.size.trans first.size,fun i => by
    rw [second.nodes i,first.nodes i]⟩

theorem restatedModify (g : Graph) (i : NodeId) {f : Node → Node}
    (stmts : ∀ n, f n = { n with stmts := (f n).stmts }) : g.Restated (g.modify i f) := by
  refine ⟨rfl,g.sizeModify i f,fun j => ?_⟩
  rw [nodeModify]
  split
  · exact stmts _
  · rfl

theorem restatedMap (g : Graph) {f : Node → Node} (stmts : ∀ n, f n = { n with stmts := (f n).stmts }) :
    g.Restated { g with store := g.store.map f } := by
  refine ⟨rfl,by simp,fun j => ?_⟩
  by_cases inside : j < g.store.size
  · simpa [node,inside] using stmts _
  · simp [node,inside]

theorem stmtsModified (g : Graph) (loc : Loc) (f : Stmt → Stmt) (i : NodeId) :
    (node { g with store := g.store.map (Node.modifyStmt loc f) } i).stmts =
      (g.node i).stmts.map fun s => if s.loc = loc then f s else s := by
  simp only [node,Array.getElem?_map]
  cases g.store[i]? <;> simp [Node.modifyStmt]

theorem Thins.restated (thins : g.Thins h) : g.Restated h :=
  ⟨by rw [thins.rest],thins.size,fun i => (thins.nodes i).rest⟩

/-- A graph whose statements have other variables, some of them new. -/
structure Renamed (g h : Graph) : Prop extends g.Restated h where
  locs : ∀ i, (h.node i).stmts.map (·.loc) = (g.node i).stmts.map (·.loc)
  vars : g.vars.size ≤ h.vars.size
  defs : ∀ i, ∀ s ∈ (h.node i).stmts, ∀ v, s.def? = some v →
    v < h.vars.size ∨ ∃ t ∈ (g.node i).stmts, t.def? = some v

theorem Renamed.refl (g : Graph) : g.Renamed g :=
  ⟨.refl g,fun _ => rfl,Nat.le_refl _,fun _ s here _ defines => .inr ⟨s,here,defines⟩⟩

theorem Renamed.trans (first : g.Renamed h) (second : h.Renamed k) : g.Renamed k := by
  refine ⟨first.toRestated.trans second.toRestated,fun i => (second.locs i).trans (first.locs i),
    Nat.le_trans first.vars second.vars,fun i s here v defines => ?_⟩
  rcases second.defs i s here v defines with inside | ⟨t,there,defines⟩
  · exact .inl inside
  · exact (first.defs i t there v defines).imp (Nat.lt_of_lt_of_le · second.vars) id

theorem Renamed.wired (renamed : g.Renamed h) (wired : g.Wired) : h.Wired := by
  have rpo : h.rpo = g.rpo := by rw [renamed.rest]
  have params : h.params = g.params := by rw [renamed.rest]
  refine ⟨wired.toEdged.alike rpo (by rw [renamed.rest]) renamed.size fun i => ?_,?_,?_⟩
  · rw [renamed.nodes i]
    exact ⟨rfl,rfl,rfl,rfl⟩
  · intro i member s here v defines
    rw [rpo] at member
    rcases renamed.defs i s here v defines with inside | ⟨t,there,defines⟩
    · exact inside
    · exact Nat.lt_of_lt_of_le (wired.defs i member t there v defines) renamed.vars
  · intro p member
    exact Nat.lt_of_lt_of_le (wired.params p (params ▸ member)) renamed.vars

theorem Renamed.distinct (renamed : g.Renamed h) (distinct : g.LocsDistinct) : h.LocsDistinct := by
  unfold LocsDistinct
  rw [show h.rpo = g.rpo by rw [renamed.rest]]
  simp only [renamed.locs]
  exact distinct

end Graph

namespace Analysed

variable {a b : Analysed}

theorem renamedModifyStmt (a : Analysed) (loc : Loc) {f : Stmt → Stmt} (keeps : ∀ s, (f s).loc = s.loc)
    (defs : ∀ s v, (f s).def? = some v → v < a.graph.vars.size ∨ s.def? = some v) :
    a.graph.Renamed (a.modifyStmt loc f).graph := by
  unfold modifyStmt
  split
  · refine ⟨a.graph.restatedMap fun _ => rfl,fun i => ?_,Nat.le_refl _,fun i s here v defines => ?_⟩
    · simp only [Graph.node,Array.getElem?_map]
      cases a.graph.store[i]? with
      | none => rfl
      | some n => exact n.locsModify loc keeps
    · simp only [Graph.node,Array.getElem?_map] at here ⊢
      cases held : a.graph.store[i]? with
      | none =>
        rw [held] at here
        exact .inr ⟨s,here,defines⟩
      | some n =>
        rw [held] at here
        obtain ⟨t,there,rfl⟩ := List.mem_map.mp here
        split at defines
        · exact (defs t v defines).imp id fun defines => ⟨t,there,defines⟩
        · exact .inr ⟨t,there,defines⟩
  · exact .refl _

theorem renamedRenameWeb (v new : VarId) (a : Analysed) (inside : new < a.graph.vars.size)
    (web : List Loc) : a.graph.Renamed (a.renameWeb v new web).graph := by
  refine List.foldlRecOn web _ (motive := fun b : Analysed => a.graph.Renamed b.graph) (.refl _) ?_
  intro b before d _
  have renames : ∀ s w, (Stmt.renameDef new s).def? = some w → w < b.graph.vars.size ∨ s.def? = some w := by
    rintro ⟨loc,act⟩ w defines
    cases act with
    | assign x e declares =>
      cases Option.some.inj defines
      exact .inl (Nat.lt_of_lt_of_le inside before.vars)
    | _ => exact .inr defines
  have defined := before.trans (b.renamedModifyStmt d (f := Stmt.renameDef new) (fun _ => rfl) renames)
  refine List.foldlRecOn _ _ (motive := fun b : Analysed => a.graph.Renamed b.graph) defined ?_
  exact fun c before u _ => before.trans (c.renamedModifyStmt u (fun _ => rfl)
    fun s w defines => .inr ((Action.defMapExprs _ s.act).symm.trans defines))

theorem renamedSplitVariables (a : Analysed) (vs : List VarId) :
    a.graph.Renamed (vs.foldl splitVariable a).graph := by
  refine List.foldlRecOn vs _ (motive := fun b : Analysed => a.graph.Renamed b.graph) (.refl _) ?_
  intro b before v _
  refine List.foldlRecOn _ _ (motive := fun c : Analysed => a.graph.Renamed c.graph) before ?_
  intro c before web _
  have grown : c.graph.Renamed { c.graph with vars := (c.graph.vars.fresh v).1 } := by
    refine ⟨⟨rfl,rfl,fun _ => rfl⟩,fun _ => rfl,?_,fun _ s here _ defines => .inr ⟨s,here,defines⟩⟩
    simp [VarTable.fresh,VarTable.push,VarTable.size]
  refine before.trans (grown.trans (renamedRenameWeb v (c.graph.vars.fresh v).2
    { c with graph := { c.graph with vars := (c.graph.vars.fresh v).1 } } ?_ web))
  simp [VarTable.fresh,VarTable.push,VarTable.size]

theorem renamedSplitLifetimes (split : a.splitLifetimes = .ok b) : a.graph.Renamed b.graph := by
  unfold splitLifetimes at split
  dsimp only at split
  split at split
  · cases Except.ok.inj split
    exact .refl _
  · cases linked : Chains.ofGraph (a.chains.definedVars.foldl splitVariable a).graph with
    | error fault =>
      rw [linked] at split
      contradiction
    | ok chains =>
      rw [linked] at split
      cases Except.ok.inj split
      exact a.renamedSplitVariables _

theorem restatedInferTypes (a : Analysed) : a.graph.Restated a.inferTypes.graph := by
  have infers : ∀ (acc : Analysed × Bool) v, acc.1.graph.Restated (inferVar acc v).1.graph := by
    intro acc v
    unfold inferVar
    dsimp only
    split
    · exact .refl _
    · split
      · exact .refl _
      · exact ⟨rfl,rfl,fun _ => rfl⟩
  suffices rounds : ∀ (fuel : Nat) (a : Analysed), a.graph.Restated (inferRounds fuel a).graph from
    rounds _ a
  intro fuel
  induction fuel with
  | zero => exact fun a => .refl _
  | succ fuel ih =>
    intro a
    have round : a.graph.Restated (a.chains.definedVars.foldl inferVar (a,false)).1.graph := by
      refine List.foldlRecOn _ _ (motive := fun r : Analysed × Bool => a.graph.Restated r.1.graph)
        (.refl _) ?_
      exact fun r before v _ => before.trans (infers r v)
    unfold inferRounds
    dsimp only
    split
    · exact round.trans (ih _)
    · exact round

theorem restatedPlaceDeclarations (a : Analysed) (d : Dominators) (loops : LoopForest) :
    a.graph.Restated (a.placeDeclarations d loops).1.graph := by
  have declares : ∀ (a : Analysed) i v, a.graph.Restated (a.declareIn i v).graph := by
    intro a i v
    unfold declareIn
    split
    · exact a.graph.restatedMap fun _ => rfl
    · rename_i loc _
      have stated := a.graph.restatedModify i
        (f := fun n => { n with stmts := ⟨a.graph.nextLoc,.declare v⟩ :: n.stmts }) fun _ => rfl
      exact ⟨rfl,stated.size,stated.nodes⟩
  refine a.restatedInferTypes.trans ?_
  refine List.foldlRecOn _ _
    (motive := fun r : Analysed × List (VarId × NodeId) => a.inferTypes.graph.Restated r.1.graph) (.refl _) ?_
  intro r before v _
  refine before.trans ?_
  unfold placeVar
  dsimp only
  split
  · exact .refl _
  · split
    · exact .refl _
    · exact declares _ _ v

inductive Pass (a : Analysed) : Analysed → Prop where
  | relink (chains : Chains) : Pass a { a with chains }
  | lifetimes {c : Analysed} (split : a.splitLifetimes = .ok c) : Pass a c
  | deadCode : Pass a a.eliminateDeadCode.1
  | propagate (o : PropagateOptions) : Pass a (a.propagate o).1
  | types : Pass a a.inferTypes
  | declarations (d : Dominators) (loops : LoopForest) : Pass a (a.placeDeclarations d loops).1

theorem Pass.restated (pass : a.Pass b) : a.graph.Restated b.graph := by
  cases pass with
  | relink chains => exact .refl _
  | lifetimes split => exact (renamedSplitLifetimes split).toRestated
  | deadCode => exact (thinsEliminateFrom ..).graph.restated
  | propagate o => exact (a.thinsPropagate o).graph.restated
  | types => exact a.restatedInferTypes
  | declarations d loops => exact a.restatedPlaceDeclarations d loops

end Analysed

end RegCode
