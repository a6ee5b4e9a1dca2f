import RegCode.Chains
import RegCode.Chains.Propagation
import RegCode.Proofs.Flow.Edits
import RegCode.Proofs.Flow.Path

/-! What removal of dead code and substitution leave of a graph: all nodes and edges, and in every
node some of its statements in their order, none of which defines what it did not define. -/
namespace RegCode

structure Node.Thins (n m : Node) : Prop where
  rest : m = { n with stmts := m.stmts }
  locs : (m.stmts.map (·.loc)).Sublist (n.stmts.map (·.loc))
  defs : ∀ s ∈ m.stmts, ∀ v, s.def? = some v → ∃ t ∈ n.stmts, t.def? = some v

namespace Node

theorem Thins.refl (n : Node) : n.Thins n :=
  ⟨rfl,List.Sublist.refl _,fun s member _ defines => ⟨s,member,defines⟩⟩

theorem Thins.trans {n m k : Node} (first : n.Thins m) (second : m.Thins k) : n.Thins k := by
  refine ⟨?_,second.locs.trans first.locs,fun s member v defines => ?_⟩
  · rw [second.rest,first.rest]
  · obtain ⟨t,there,defines⟩ := second.defs s member v defines
    exact first.defs t there v defines

theorem locsModify (n : Node) (loc : Loc) {f : Stmt → Stmt} (keeps : ∀ s, (f s).loc = s.loc) :
    (n.modifyStmt loc f).stmts.map (·.loc) = n.stmts.map (·.loc) := by
  rw [modifyStmt,List.map_map]
  refine List.map_congr_left fun s _ => ?_
  rw [Function.comp_apply]
  split
  · exact keeps s
  · rfl

theorem thinsModify (n : Node) (loc : Loc) {f : Stmt → Stmt} (keeps : ∀ s, (f s).loc = s.loc)
    (defs : ∀ s v, (f s).def? = some v → s.def? = some v) : n.Thins (n.modifyStmt loc f) := by
  refine ⟨rfl,?_,fun s member v defines => ?_⟩
  · rw [n.locsModify loc keeps]
  · obtain ⟨t,there,rfl⟩ := List.mem_map.mp member
    refine ⟨t,there,?_⟩
    split at defines
    · exact defs t v defines
    · exact defines

theorem thinsFilter (n : Node) (p : Stmt → Bool) : n.Thins { n with stmts := n.stmts.filter p } :=
  ⟨rfl,List.filter_sublist.map _,fun s member _ defines =>
    ⟨s,(List.mem_filter.mp member).1,defines⟩⟩

end Node

structure Graph.Thins (g h : Graph) : Prop where
  rest : h = { g with store := h.store }
  size : h.store.size = g.store.size
  nodes : ∀ i, (g.node i).Thins (h.node i)

namespace Graph

theorem Thins.refl (g : Graph) : g.Thins g := ⟨rfl,rfl,fun _ => .refl _⟩

theorem Thins.trans {g h k : Graph} (first : g.Thins h) (second : h.Thins k) : g.Thins k :=
  ⟨by rw [second.rest,first.rest],second.size.trans first.size,
    fun i => (first.nodes i).trans (second.nodes i)⟩

theorem thinsOfModify (g : Graph) (i : NodeId) {f : Node → Node} (thins : ∀ n : Node, n.Thins (f n)) :
    g.Thins (g.modify i f) := by
  refine ⟨rfl,by simp [modify],fun j => ?_⟩
  rw [nodeModify]
  split
  · exact thins _
  · exact .refl _

theorem thinsOfMap (g : Graph) {f : Node → Node} (thins : ∀ n : Node, n.Thins (f n)) :
    g.Thins { g with store := g.store.map f } := by
  refine ⟨rfl,by simp,fun j => ?_⟩
  by_cases inside : j < g.store.size
  · simpa [node,inside] using thins _
  · simpa [node,inside] using Node.Thins.refl _

variable {g h : Graph}

theorem Thins.edges (thins : g.Thins h) (i : NodeId) :
    (h.node i).succs = (g.node i).succs ∧ (h.node i).preds = (g.node i).preds ∧
      (h.node i).catchSuccs = (g.node i).catchSuccs ∧
      (h.node i).catchPreds = (g.node i).catchPreds := by
  rw [(thins.nodes i).rest]
  exact ⟨rfl,rfl,rfl,rfl⟩

theorem Thins.wired (thins : g.Thins h) (wired : g.Wired) : h.Wired := by
  have rpo : h.rpo = g.rpo := by rw [thins.rest]
  have vars : h.vars = g.vars := by rw [thins.rest]
  refine ⟨wired.toEdged.alike rpo (by rw [thins.rest]) thins.size thins.edges,?_,?_⟩
  · intro i member s here v defines
    rw [rpo] at member
    rw [vars]
    obtain ⟨t,there,defines⟩ := (thins.nodes i).defs s here v defines
    exact wired.defs i member t there v defines
  · rw [vars,thins.rest]
    exact wired.params

theorem Thins.distinct (thins : g.Thins h) (distinct : g.LocsDistinct) : h.LocsDistinct := by
  unfold LocsDistinct at distinct ⊢
  rw [show h.rpo = g.rpo by rw [thins.rest]]
  have locs : ∀ is : List NodeId, (is.flatMap fun i => (h.node i).stmts.map (·.loc)).Sublist
      (is.flatMap fun i => (g.node i).stmts.map (·.loc)) := by
    intro is
    induction is with
    | nil => exact List.Sublist.refl _
    | cons i is ih =>
      rw [List.flatMap_cons,List.flatMap_cons]
      exact (thins.nodes i).locs.append ih
  exact distinct.sublist (locs g.rpo)

theorem Thins.connected (thins : g.Thins h) (connected : g.Connected) : h.Connected := by
  intro i member
  rw [thins.rest] at member
  obtain ⟨e,entry,edges⟩ := connected i member
  refine ⟨e,by rw [thins.rest]; exact entry,edges.lift id fun a b out => ?_⟩
  show b ∈ (h.node a).succs ++ (h.node a).catchSuccs
  rw [(thins.edges a).1,(thins.edges a).2.2.1]
  exact out

end Graph

namespace Action

theorem defMapExprs (f : Expr → Expr) (a : Action) : (a.mapExprs f).def? = a.def? := by
  cases a <;> rfl

theorem defFold (a : Action) : a.fold.1.def? = a.def? := by
  cases a with
  | ret value => cases value <;> rfl
  | _ => rfl

end Action

namespace Analysed

def Homed (a : Analysed) : Prop :=
  ∀ l i, a.chains.home.get? l = some i →
    i ∈ a.graph.rpo ∧ l ∈ (a.graph.node i).stmts.map (·.loc)

structure Thins (a b : Analysed) : Prop where
  graph : a.graph.Thins b.graph
  homed : a.Homed → b.Homed

theorem Thins.refl (a : Analysed) : a.Thins a := ⟨.refl _,id⟩

theorem Thins.trans {a b c : Analysed} (first : a.Thins b) (second : b.Thins c) : a.Thins c :=
  ⟨first.graph.trans second.graph,second.homed ∘ first.homed⟩

theorem homedOfLocs {a b : Analysed} (rpo : b.graph.rpo = a.graph.rpo)
    (home : b.chains.home = a.chains.home)
    (locs : ∀ i, (b.graph.node i).stmts.map (·.loc) = (a.graph.node i).stmts.map (·.loc))
    (homed : a.Homed) : b.Homed := by
  intro l i listed
  rw [rpo,locs]
  rw [home] at listed
  exact homed l i listed

theorem thinsModifyStmt (a : Analysed) (loc : Loc) {f : Stmt → Stmt} (keeps : ∀ s, (f s).loc = s.loc)
    (defs : ∀ s v, (f s).def? = some v → s.def? = some v) : a.Thins (a.modifyStmt loc f) := by
  unfold modifyStmt
  split
  · refine ⟨a.graph.thinsOfMap fun n => n.thinsModify loc keeps defs,homedOfLocs rfl rfl fun i => ?_⟩
    simp only [Graph.node,Array.getElem?_map]
    cases a.graph.store[i]? with
    | none => rfl
    | some n => exact n.locsModify loc keeps
  · exact .refl a

theorem thinsOfChains (a : Analysed) {c : Chains} (home : c.home = a.chains.home) :
    a.Thins { a with chains := c } :=
  ⟨.refl _,homedOfLocs rfl home fun _ => rfl⟩

theorem homeDropUse (v : VarId) (loc : Loc) (ds : List Loc) (c : Chains) :
    (dropUse v loc c ds).1.home = c.home := by
  induction ds generalizing c with
  | nil => rfl
  | cons d ds ih =>
    unfold dropUse
    cases c.defUse.get? (v,d) with
    | none => exact ih c
    | some us => exact ih _

theorem homeDropUses (loc : Loc) (vs : List VarId) (c : Chains) :
    (dropUses loc vs c).1.home = c.home := by
  induction vs generalizing c with
  | nil => rfl
  | cons v vs ih => exact (ih _).trans (homeDropUse v loc _ c)

theorem thinsRemoveStmt (a : Analysed) (loc : Loc) : a.Thins (a.removeStmt loc).1 := by
  unfold removeStmt
  cases found : a.stmt? loc with
  | none => exact .refl a
  | some s =>
    cases listed : a.chains.home.get? loc with
    | none => exact .refl a
    | some i =>
      have home := homeDropUses loc s.uses a.chains
      refine ⟨a.graph.thinsOfModify i fun n => n.thinsFilter _,fun homed l j placed => ?_⟩
      have erased : (a.chains.home.erase loc).get? l = some j := by
        rw [← home]
        dsimp only at placed
        split at placed <;> exact placed
      rw [Table.get?_erase] at erased
      split at erased
      · contradiction
      · rename_i other
        obtain ⟨member,there⟩ := homed l j erased
        refine ⟨member,?_⟩
        obtain ⟨t,inside,rfl⟩ := List.mem_map.mp there
        rw [Graph.nodeModify]
        split
        · exact List.mem_map.mpr ⟨t,List.mem_filter.mpr ⟨inside,by simpa using other⟩,rfl⟩
        · exact there

theorem thinsDropResult (a : Analysed) (i : NodeId) (v : VarId) (loc : Loc) :
    a.Thins (a.dropResult i v loc) := by
  have defs : ∀ s w, (Stmt.withoutResult s).def? = some w → s.def? = some w := by
    intro s w defines
    cases act : s.act <;> simp_all [Stmt.withoutResult,Action.withoutResult,Stmt.def?,Action.def?]
  have thins : ∀ n : Node, n.Thins (n.modifyStmt loc Stmt.withoutResult) := fun n =>
    n.thinsModify loc (fun _ => rfl) defs
  refine ⟨a.graph.thinsOfModify i thins,homedOfLocs rfl rfl fun j => ?_⟩
  rw [dropResult,Graph.nodeModify]
  split
  · exact Node.locsModify _ loc fun _ => rfl
  · rfl

theorem thinsEliminateSite (a : Analysed) (site : Site) : a.Thins (a.eliminateSite site).1 := by
  obtain ⟨v,loc⟩ := site
  unfold eliminateSite
  dsimp only
  split
  · split
    · exact .refl a
    · split
      · split
        · exact a.thinsDropResult _ v loc
        · exact .refl a
      · split
        · exact .refl a
        · exact a.thinsRemoveStmt loc
  · exact .refl a

theorem thinsEliminateFrom (fuel : Nat) (a : Analysed) (work : List Site) (removed : Nat) :
    a.Thins (eliminateFrom fuel a work removed).1 := by
  induction fuel generalizing a work removed with
  | zero => exact .refl a
  | succ fuel ih =>
    cases work with
    | nil => exact .refl a
    | cons site work => exact (a.thinsEliminateSite site).trans (ih ..)

theorem homeInheritUses (d u : Loc) (xs : List VarId) (c : Chains) :
    (xs.foldl (fun c x => inheritUses c d u x) c).home = c.home := by
  have added : ∀ (x : VarId) (es : List Loc) (c : Chains),
      (es.foldl (fun c e => c.addUse x u e) c).home = c.home := by
    intro x es
    induction es with
    | nil => exact fun _ => rfl
    | cons e es ih => exact fun c => ih (c.addUse x u e)
  induction xs generalizing c with
  | nil => rfl
  | cons x xs ih => exact (ih _).trans (added x _ _)

theorem thinsSubstitute (a : Analysed) (u : Loc) (v : VarId) (d : Loc) (value : Expr) :
    a.Thins (a.substitute u v d value) := by
  have replaced := a.thinsModifyStmt u (f := Stmt.replace v value) (fun _ => rfl)
    fun s w defines => (Action.defMapExprs _ s.act).symm.trans defines
  refine replaced.trans ?_
  have kept := (a.modifyStmt u (Stmt.replace v value)).thinsOfChains
    (homeInheritUses d u value.vars.eraseDups (a.modifyStmt u (Stmt.replace v value)).chains)
  refine kept.trans ?_
  unfold substitute
  dsimp only
  split
  · refine Thins.trans ?_ (thinsRemoveStmt _ d)
    exact thinsOfChains _ rfl
  · exact thinsOfChains _ rfl

theorem thinsPropagateVar (o : PropagateOptions) (u : Loc) (acc : Analysed × Nat) (v : VarId) :
    acc.1.Thins (propagateVar o u acc v).1 := by
  obtain ⟨a,n⟩ := acc
  unfold propagateVar
  dsimp only
  split
  · exact .refl a
  · split
    · exact .refl a
    · rename_i d value _
      refine (a.thinsSubstitute u v d value).trans ?_
      dsimp only
      split
      · exact thinsModifyStmt _ u (fun _ => rfl) fun s w defines =>
          (Action.defFold s.act).symm.trans defines
      · exact .refl _

theorem propagateInduction {P : Analysed → Prop} (o : PropagateOptions)
    (step : ∀ a u n v, P a → P (propagateVar o u (a,n) v).1) {a : Analysed} (start : P a) :
    P (a.propagate o).1 := by
  have stmt : ∀ (i : NodeId) (acc : Analysed × Nat) (u : Loc), P acc.1 →
      P (propagateStmt o i acc u).1 := by
    intro i acc u before
    unfold propagateStmt
    split
    · exact before
    · split
      · exact List.foldlRecOn _ _ (motive := fun r : Analysed × Nat => P r.1) before
          fun r before v _ => step r.1 u r.2 v before
      · exact before
  have round : ∀ a : Analysed, P a → P (a.propagateRound o).1 := by
    intro a before
    refine List.foldlRecOn _ _ (motive := fun r : Analysed × Nat => P r.1) before fun r before i _ => ?_
    exact List.foldlRecOn _ _ (motive := fun r : Analysed × Nat => P r.1) before
      fun r before u _ => stmt i r u before
  have rounds : ∀ (fuel : Nat) (a : Analysed) (total : Nat), P a →
      P (propagateRounds o fuel a total).1 := by
    intro fuel
    induction fuel with
    | zero => exact fun _ _ before => before
    | succ fuel ih =>
      intro a total before
      unfold propagateRounds
      dsimp only
      split
      · exact round a before
      · exact ih _ _ (round a before)
  exact rounds _ a 0 start

theorem thinsPropagate (o : PropagateOptions) (a : Analysed) : a.Thins (a.propagate o).1 :=
  propagateInduction o (fun b u n v before => before.trans (thinsPropagateVar o u (b,n) v)) (.refl a)

end Analysed

end RegCode
