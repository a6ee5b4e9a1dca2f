import RegCode.Flow.Simplify
import RegCode.Proofs.Flow.Construction

/-! The form that graphs of methods have for structuring: tests and switches stand alone, tests
cannot raise, and the handlers of a region end with those of the region around it. -/
namespace RegCode

namespace Graph

variable {g h : Graph}

structure Proper (g : Graph) : Prop where
  tests : ∀ i, (g.node i).QuietTest
  inside : ∀ i r, (g.node i).region = some r → r < g.regions.size

theorem Alike.proper (alike : g.Alike h) (proper : g.Proper) : h.Proper where
  tests i := (alike.nodes i).quietTest (proper.tests i)
  inside i r here := by
    rw [(alike.nodes i).region] at here
    exact alike.regions ▸ proper.inside i r here

def handlersOf (g : Graph) (r : RegionId) : List CatchEntry := ((g.region? r).map (·.handlers)).getD []

def Nested (g : Graph) : Prop :=
  ∀ r q, g.parentOf r = some q →
    q < g.regions.size ∧ ∃ own, own ≠ [] ∧ g.handlersOf r = own ++ g.handlersOf q

structure Rooted (g : Graph) : Prop where
  edges : g.EdgesInside
  entry : ∃ e, g.entry = some e ∧ e < g.store.size ∧
    ∀ i < g.store.size, g.Trail (fun _ => True) e i

theorem Rooted.redraw (rooted : g.Rooted) (entry : h.entry = g.entry)
    (size : h.store.size = g.store.size) (succs : ∀ i, (h.node i).allSuccs = (g.node i).allSuccs) :
    h.Rooted where
  edges i j out := size ▸ rooted.edges i j (succs i ▸ out)
  entry := by
    obtain ⟨e,here,inside,all⟩ := rooted.entry
    exact ⟨e,entry.trans here,size ▸ inside,fun i below =>
      (all i (size ▸ below)).grow fun i j out => (succs i).symm ▸ out⟩

theorem properAddNode (proper : g.Proper) {n : Node} (quiet : n.QuietTest)
    (inside : ∀ r, n.region = some r → r < g.regions.size) : (g.addNode n).1.Proper where
  tests i := by
    rw [nodeAddNode]
    split
    · exact quiet
    · exact proper.tests i
  inside i r here := by
    rw [nodeAddNode] at here
    split at here
    · exact inside r here
    · exact proper.inside i r here

theorem rootedAddNode {e : NodeId} {n : Node} (rooted : g.Rooted) (entry : g.entry = some e)
    (alone : n.allSuccs = []) :
    Rooted { (g.addNode n).1.addEdge g.store.size e with entry := some g.store.size } := by
  obtain ⟨e',here,inside,all⟩ := rooted.entry
  obtain rfl : e = e' := Option.some.inj (entry.symm.trans here)
  obtain ⟨h,same⟩ : ∃ h, (g.addNode n).1.addEdge g.store.size e = h := ⟨_,rfl⟩
  have size : h.store.size = g.store.size + 1 := by
    rw [← same,((g.addNode n).1.alikeAddEdge g.store.size e).size]
    simp [addNode]
  have succs : ∀ i j, j ∈ (h.node i).allSuccs ↔
      j ∈ ((g.addNode n).1.node i).allSuccs ∨ i = g.store.size ∧ j = e :=
    same ▸ succsAddEdge (by simp [addNode])
  have more : ∀ i j, j ∈ (g.node i).allSuccs → j ∈ (h.node i).allSuccs := by
    intro i j out
    refine (succs i j).mpr (.inl ?_)
    rw [nodeAddNode]
    split
    · rename_i last
      rw [nodeOutside (Nat.le_of_eq last.symm)] at out
      contradiction
    · exact out
  have first : h.Trail (fun _ => True) g.store.size e :=
    .on (.stay trivial) ((succs _ e).mpr (.inr ⟨rfl,rfl⟩)) trivial
  rw [same]
  refine ⟨fun i j out => ?_,g.store.size,rfl,size ▸ Nat.lt_succ_self _,fun i below => ?_⟩
  · show j < h.store.size
    rw [size]
    rcases (succs i j).mp out with old | ⟨-,rfl⟩
    · rw [nodeAddNode] at old
      split at old
      · rw [alone] at old
        contradiction
      · exact Nat.lt_succ_of_lt (rooted.edges i j old)
    · exact Nat.lt_succ_of_lt inside
  · rcases Nat.lt_succ_iff_lt_or_eq.mp (size ▸ below) with old | rfl
    · exact (first.trans ((all i old).grow more)).grow fun _ _ => id
    · exact .stay trivial

end Graph

namespace Flow

variable {g : Graph}

theorem rootedGuardEntry (rooted : g.Rooted) : (guardEntry g).Rooted := by
  obtain ⟨e,entry,-⟩ := rooted.entry
  unfold guardEntry
  rw [entry]
  dsimp only
  split
  · exact rooted
  · exact Graph.rootedAddNode rooted entry rfl

theorem properGuardEntry (proper : g.Proper) : (guardEntry g).Proper := by
  unfold guardEntry
  split
  · exact proper
  · dsimp only
    split
    · exact proper
    · rename_i e _ _
      have added := Graph.properAddNode (n := { start := (g.node e).start }) proper
        (Node.quietOfKind nofun) nofun
      exact { (Graph.alikeAddEdge _ _ _).proper added with }

theorem parentRegionFound {regions : List Region} {r : Region} {q : RegionId}
    (found : parentRegion regions r = some q) :
    ∃ o, regions[q]? = some o ∧ ∃ own, own ≠ [] ∧ r.handlers = own ++ o.handlers := by
  obtain ⟨⟨k,i⟩,best,rfl⟩ := Option.map_eq_some_iff.mp found
  refine List.foldlRecOn regions.zipIdx _ (motive := fun best => ∀ k i, best = some (k,i) →
    ∃ o, regions[i]? = some o ∧ ∃ own, own ≠ [] ∧ r.handlers = own ++ o.handlers) nofun ?_ k i best
  intro best holds x member k i chosen
  dsimp only at chosen
  split at chosen
  · rename_i fits
    cases Option.some.inj chosen
    simp only [Bool.and_eq_true,decide_eq_true_eq,beq_iff_eq] at fits
    obtain ⟨⟨less,same⟩,-⟩ := fits
    refine ⟨x.1,List.mk_mem_zipIdx_iff_getElem?.mp member,
      r.handlers.take (r.handlers.length - x.1.handlers.length),fun none => ?_,?_⟩
    · have := congrArg List.length none
      rw [List.length_take,List.length_nil] at this
      omega
    · exact (List.take_append_drop _ _).symm.trans (congrArg _ same.symm)
  · exact holds k i chosen

theorem nestedLinkRegions (g : Graph) : (linkRegions g).Nested := by
  intro r q parent
  have regions : ∀ k : Nat, (linkRegions g).regions[k]? = (g.regions[k]?).map fun
      (r : Region) => { r with parent := parentRegion g.regions.toList r } := by simp [linkRegions]
  rw [Graph.parentOf,regions] at parent
  obtain ⟨here,some,parent⟩ := Option.bind_eq_some_iff.mp parent
  obtain ⟨region,found,rfl⟩ := Option.map_eq_some_iff.mp some
  obtain ⟨o,outer,own,any,split⟩ := parentRegionFound parent
  rw [Array.getElem?_toList] at outer
  refine ⟨?_,own,any,?_⟩
  · have := (Array.getElem?_eq_some_iff.mp outer).1
    simpa [linkRegions] using this
  · simp [Graph.handlersOf,Graph.region?,regions,found,outer,split]

theorem numberStmtsActs (k : Loc) (ss : List Stmt) :
    (numberStmts k ss).map Stmt.act = ss.map Stmt.act := by
  induction ss generalizing k with
  | nil => rfl
  | cons s ss ih => rw [numberStmts,List.map_cons,List.map_cons,ih]

theorem alikeNumbered (g : Graph) (i : NodeId) :
    g.Alike { g.modify i (fun n => { n with stmts := numberStmts g.nextLoc (g.node i).stmts }) with
      nextLoc := g.nextLoc + (g.node i).stmts.length } := by
  refine ⟨rfl,g.sizeModify i _,fun j => ?_⟩
  show (g.node j).Alike ((g.modify i fun n =>
    { n with stmts := numberStmts g.nextLoc (g.node i).stmts }).node j)
  rw [Graph.nodeModify]
  split
  · rename_i here
    exact ⟨rfl,here.1 ▸ numberStmtsActs _ _,rfl,rfl⟩
  · exact .refl _

theorem alikeNumberStatements (g : Graph) : g.Alike (numberStatements g) :=
  Graph.alikeFold alikeNumbered g.nodes g

theorem rootedNumberStatements (rooted : g.Rooted) : (numberStatements g).Rooted := by
  refine List.foldlRecOn g.nodes _ (motive := Graph.Rooted) rooted fun h rooted i _ => ?_
  refine rooted.redraw rfl (h.sizeModify i _) fun j => ?_
  show ((h.modify i fun n => { n with stmts := numberStmts h.nextLoc (h.node i).stmts }).node j).allSuccs
    = _
  rw [Graph.nodeModify]
  split <;> rfl

theorem Laid.graph {b : Builder} (laid : Laid none [] b) : b.graph.Rooted ∧ b.graph.Proper := by
  refine ⟨⟨laid.edges,0,laid.entry,laid.first,fun i inside => ?_⟩,fun i => laid.tests i nofun,
    laid.inside⟩
  exact (laid.reached i inside).resolve_left List.not_mem_nil

end Flow

namespace Graph

structure Built (g : Graph) : Prop extends g.Proper where
  listed : ∀ i < g.store.size, i ∈ g.nodes
  nested : g.Nested

theorem Nested.congr {g h : Graph} (nested : g.Nested) (regions : h.regions = g.regions) : h.Nested := by
  intro r q parent
  simp only [parentOf,handlersOf,region?,regions] at parent ⊢
  exact nested r q parent

theorem builtRenumber {g : Graph} (rooted : g.Rooted) (proper : g.Proper) (nested : g.Nested) :
    g.renumber.Built := by
  obtain ⟨e,entry,inside,all⟩ := rooted.entry
  have alike := g.alikeRenumber
  refine ⟨alike.proper proper,fun i below => ?_,nested.congr alike.regions⟩
  rw [nodesRenumber (by simp [entry])]
  exact reversePostorderReaches rooted.edges entry inside (all i (alike.size ▸ below))

theorem builtEmpty {g : Graph} (store : g.store = #[]) (regions : g.regions = #[]) : g.Built := by
  have nodes : ∀ i, g.node i = {} := fun i => nodeOutside (by simp [store])
  refine ⟨⟨fun i => ?_,fun i r here => ?_⟩,fun i inside => ?_,fun r q parent => ?_⟩
  · rw [nodes]
    exact nofun
  · rw [nodes] at here
    contradiction
  · rw [store] at inside
    contradiction
  · rw [parentOf,regions] at parent
    contradiction

open RegCode.Flow in
theorem ofMethodParts {m : Method} {g : Graph} (made : ofMethod m = .ok g) :
    m.code = [] ∧ g = {} ∨
    Block.split m = [] ∧ g = { vars := (parameters m).1, params := (parameters m).2 } ∨
    ∃ first rest u b, Block.split m = first :: rest ∧
      Does (buildQueue m (first :: rest) (first :: rest).length)
        { graph := { vars := (parameters m).1, params := (parameters m).2, store := #[{ start := first.start }]
                     nodes := [0], entry := some 0 }
          known := [(first.start,0)]
          queue := [first] } u b ∧
      (numberStatements (linkRegions (guardEntry b.graph))).renumber = g := by
  unfold ofMethod at made
  split at made
  · rename_i none
    cases Except.ok.inj made
    exact .inl ⟨by simpa [Method.hasCode] using none,rfl⟩
  · dsimp only at made
    split at made
    · rename_i none
      cases Except.ok.inj made
      exact .inr (.inl ⟨none,rfl⟩)
    · rename_i first rest blocks
      obtain ⟨⟨u,b⟩,run,made⟩ := okOfBind made
      rw [blocks] at run
      obtain ⟨entry,b₁,visited,run⟩ := doesBind.mp run
      obtain ⟨_,b₂,opened,built⟩ := doesBind.mp run
      obtain ⟨rfl,rfl⟩ := didVisitFirst visited
      cases doesModifyGraph.mp opened
      exact .inr (.inr ⟨first,rest,u,b,blocks,built,Except.ok.inj made⟩)

theorem builtOfMethod {m : Method} {g : Graph} (made : ofMethod m = .ok g) : g.Built := by
  rcases ofMethodParts made with ⟨-,rfl⟩ | ⟨-,rfl⟩ | ⟨first,rest,u,b,-,queued,rfl⟩
  · exact builtEmpty rfl rfl
  · exact builtEmpty rfl rfl
  · obtain ⟨rooted,proper⟩ := (Flow.didBuildQueue queued (.start first rfl rfl rfl)).graph
    have guarded := Flow.rootedGuardEntry rooted
    have linked : (Flow.linkRegions (Flow.guardEntry b.graph)).Rooted :=
      guarded.redraw rfl rfl fun _ => rfl
    have alike := Flow.alikeNumberStatements (Flow.linkRegions (Flow.guardEntry b.graph))
    refine builtRenumber (Flow.rootedNumberStatements linked) (alike.proper ?_)
      ((Flow.nestedLinkRegions _).congr alike.regions)
    exact { Flow.properGuardEntry proper with
      inside := fun i r here => by
        have := (Flow.properGuardEntry proper).inside i r here
        simpa [Flow.linkRegions] using this }

def Alone (g : Graph) (i : NodeId) : Prop :=
  (g.node i).kind = .cond ∨ (g.node i).kind = .switch → (g.node i).stmts.length ≤ 1

structure Shaped (g : Graph) : Prop extends g.Proper where
  alone : ∀ i, g.Alone i
  nested : g.Nested

theorem Alike.alone {g h : Graph} (alike : g.Alike h) {i : NodeId} (alone : g.Alone i) : h.Alone i := by
  have length := congrArg List.length (alike.nodes i).acts
  rw [List.length_map,List.length_map] at length
  rw [Alone,(alike.nodes i).kind,length]
  exact alone

theorem Alike.shaped {g h : Graph} (alike : g.Alike h) (shaped : g.Shaped) : h.Shaped :=
  ⟨alike.proper shaped.toProper,fun i => alike.alone (shaped.alone i),shaped.nested.congr alike.regions⟩

def redirectHandler (i pre : NodeId) (h : CatchEntry) : CatchEntry :=
  if h.entry = i then { h with entry := pre } else h

def redirect (i pre : NodeId) (g : Graph) : Graph :=
  { g with
    entry := g.entry.map fun e => if e = i then pre else e
    regions := g.regions.map fun r => { r with handlers := r.handlers.map (redirectHandler i pre) } }

def front (g : Graph) (i : NodeId) : Node :=
  let n := g.node i
  { start := n.start, stmts := n.stmts.dropLast, region := n.region, handler := n.handler
    preds := n.preds, catchPreds := n.catchPreds }

def parted (g : Graph) (i : NodeId) (last : Stmt) : Graph :=
  (g.addNode (g.front i)).1.modify i fun n => { n with stmts := [last], handler := false }

theorem splitTestParts (g : Graph) (i : NodeId) : (g.splitTest i = g ∧ g.Alone i) ∨
    ∃ last h, (g.node i).stmts.getLast? = some last ∧ (g.parted i last).Alike h ∧
      g.splitTest i = h.redirect i g.store.size := by
  obtain ⟨r,same⟩ : ∃ r, g.splitTest i = r := ⟨_,rfl⟩
  rw [same]
  unfold splitTest at same
  dsimp only at same
  split at same
  · rename_i none
    exact .inl ⟨same.symm,fun _ => by simp [List.getLast?_eq_none_iff.mp none]⟩
  · rename_i last ends
    split at same
    · rename_i whole
      refine .inl ⟨same.symm,fun kind => ?_⟩
      rcases kind with kind | kind <;> simp [kind] at whole <;> omega
    · refine .inr ⟨last,_,ends,?_,same.symm⟩
      have heads : ∀ (g : Graph) pre (hs : List NodeId),
          g.Alike (hs.foldl (fun g h => g.addCatchEdge pre h) g) :=
        fun g pre hs => alikeFold (fun g h => g.alikeAddCatchEdge pre h) hs g
      split
      · refine .trans (alikeModifyAll _ _ ?_) (.trans (alikeModifyAll _ _ ?_)
          (.trans (alikeModify _ _ ?_) (.trans (alikeAddEdge _ _ _) (heads _ _ _))))
        <;> exact fun _ => ⟨rfl,rfl,rfl,rfl⟩
      · refine .trans (alikeModifyAll _ _ ?_) (.trans (alikeModifyAll _ _ ?_)
          (.trans (alikeModify _ _ ?_) (.trans (alikeAddEdge _ _ _) (.trans (heads _ _ _)
            (.trans (alikeModifyAll _ _ ?_) (alikeModify _ _ ?_))))))
        <;> exact fun _ => ⟨rfl,rfl,rfl,rfl⟩

theorem nestedRedirect {g : Graph} (nested : g.Nested) (i pre : NodeId) : (g.redirect i pre).Nested := by
  intro r q parent
  have regions : ∀ k, (g.redirect i pre).handlersOf k =
      (g.handlersOf k).map (redirectHandler i pre) := by
    intro k
    simp only [handlersOf,region?,redirect,Array.getElem?_map]
    cases g.regions[k]? <;> rfl
  have same : g.parentOf r = some q := by
    rw [← parent]
    simp only [parentOf,redirect,Array.getElem?_map]
    cases g.regions[r]? <;> rfl
  obtain ⟨inside,own,any,split⟩ := nested r q same
  refine ⟨by simpa [redirect] using inside,own.map (redirectHandler i pre),
    fun none => any (List.map_eq_nil_iff.mp none),?_⟩
  rw [regions,regions,split,List.map_append]

section
variable {g : Graph} {i : NodeId} {last : Stmt}

theorem nodeParted (ends : (g.node i).stmts.getLast? = some last) (j : NodeId) :
    (g.parted i last).node j = g.node j ∧ j ≠ i ∨
      (g.parted i last).node j = { g.node i with stmts := [last], handler := false } ∧ j = i ∨
      (g.parted i last).node j = g.front i := by
  have inside : i < g.store.size := by
    by_contra outside
    rw [nodeOutside (Nat.le_of_not_lt outside)] at ends
    contradiction
  have size : (g.addNode (g.front i)).1.store.size = g.store.size + 1 := by simp [addNode]
  rw [parted,nodeModify,nodeAddNode,size]
  by_cases here : i = j
  · subst here
    have apart := Nat.ne_of_lt inside
    simp [apart,Nat.lt_succ_of_lt inside]
  · simp only [here,false_and,if_false]
    split
    · exact .inr (.inr rfl)
    · exact .inl ⟨rfl,fun same => here same.symm⟩

theorem properParted (proper : g.Proper) (ends : (g.node i).stmts.getLast? = some last) :
    (g.parted i last).Proper where
  tests j := by
    rcases nodeParted ends j with ⟨same,-⟩ | ⟨same,-⟩ | same <;> rw [same]
    · exact proper.tests j
    · intro kind a final
      refine proper.tests i kind a ?_
      rw [List.getLast?_map,ends]
      exact final
    · exact fun kind => nomatch kind
  inside j r here := by
    rcases nodeParted ends j with ⟨same,-⟩ | ⟨same,-⟩ | same <;> rw [same] at here
    · exact proper.inside j r here
    · exact proper.inside i r here
    · exact proper.inside i r here

theorem aloneParted (ends : (g.node i).stmts.getLast? = some last) {j : NodeId}
    (before : j = i ∨ g.Alone j) : (g.parted i last).Alone j := by
  intro kind
  rcases nodeParted ends j with ⟨same,other⟩ | ⟨same,-⟩ | same <;> rw [same] at kind ⊢
  · exact before.resolve_left other kind
  · exact Nat.le_refl 1
  · rcases kind with kind | kind <;> contradiction

end

theorem splitTestShape {g : Graph} (proper : g.Proper) (nested : g.Nested) (i : NodeId) :
    (g.splitTest i).Proper ∧ (g.splitTest i).Nested ∧ ∀ j, j = i ∨ g.Alone j → (g.splitTest i).Alone j := by
  rcases g.splitTestParts i with ⟨same,alone⟩ | ⟨last,h,ends,alike,same⟩
  · rw [same]
    exact ⟨proper,nested,fun j before => before.elim (fun here => here ▸ alone) id⟩
  · have nested' : h.Nested := nested.congr alike.regions
    have proper' := alike.proper (properParted proper ends)
    rw [same]
    refine ⟨⟨proper'.tests,fun j r here => ?_⟩,nestedRedirect nested' i _,fun j before => ?_⟩
    · simpa [redirect] using proper'.inside j r here
    · exact alike.alone (aloneParted ends before)

theorem shapedSplitTests {g : Graph} (built : g.Built) : g.splitTests.Shaped := by
  suffices all : ∀ (is : List NodeId) (g : Graph), g.Proper → g.Nested → (∀ j, j ∈ is ∨ g.Alone j) →
      (is.foldl splitTest g).Shaped by
    refine all g.nodes g built.toProper built.nested fun j => ?_
    by_cases inside : j < g.store.size
    · exact .inl (built.listed j inside)
    · rw [Alone,nodeOutside (Nat.le_of_not_lt inside)]
      exact .inr fun _ => Nat.zero_le 1
  intro is
  induction is with
  | nil => exact fun g proper nested all => ⟨proper,fun j => (all j).resolve_left List.not_mem_nil,nested⟩
  | cons i is ih =>
    intro g proper nested all
    obtain ⟨proper',nested',alone⟩ := splitTestShape proper nested i
    refine ih _ proper' nested' fun j => ?_
    rcases all j with member | before
    · rcases List.mem_cons.mp member with here | member
      · exact .inr (alone j (.inl here))
      · exact .inl member
    · exact .inr (alone j (.inr before))

theorem shapedModify {g : Graph} (shaped : g.Shaped) (i : NodeId) {f : Node → Node}
    (kind : (f (g.node i)).kind ≠ .cond ∧ (f (g.node i)).kind ≠ .switch)
    (region : (f (g.node i)).region = (g.node i).region) : (g.modify i f).Shaped := by
  have nodes : ∀ j, (g.modify i f).node j = g.node j ∨ (g.modify i f).node j = f (g.node i) ∧ j = i := by
    intro j
    rw [nodeModify]
    split
    · rename_i here
      exact .inr ⟨here.1 ▸ rfl,here.1.symm⟩
    · exact .inl rfl
  refine ⟨⟨fun j => ?_,fun j r here => ?_⟩,fun j => ?_,shaped.nested.congr rfl⟩
  · rcases nodes j with same | ⟨same,-⟩ <;> rw [same]
    · exact shaped.tests j
    · exact Node.quietOfKind kind.1
  · rcases nodes j with same | ⟨same,-⟩ <;> rw [same] at here
    · exact shaped.inside j r here
    · exact shaped.inside i r (region ▸ here)
  · rcases nodes j with same | ⟨same,-⟩
    · rw [Alone,same]
      exact shaped.alone j
    · rw [Alone,same]
      exact fun either => absurd either (not_or.mpr kind)

theorem shapedMerge {g : Graph} (shaped : g.Shaped) {i j : NodeId} (found : g.mergeable? i = some j) :
    (g.merge i j).Shaped := by
  have kinds : (g.node j).kind ≠ .cond ∧ (g.node j).kind ≠ .switch := by
    unfold mergeable? at found
    dsimp only at found
    split at found
    · split at found
      · contradiction
      · rename_i fits
        cases Option.some.inj found
        simp only [Bool.or_eq_true,not_or] at fits
        exact ⟨by simpa using fits.1.1.1.2,by simpa using fits.1.1.2⟩
    · contradiction
  have joined := shapedModify shaped i (f := fun n =>
    { n with stmts := n.stmts ++ (g.node j).stmts, kind := (g.node j).kind, succs := [] }) kinds rfl
  have alike : (g.modify i fun n => { n with
      stmts := n.stmts ++ (g.node j).stmts, kind := (g.node j).kind, succs := [] }).Alike (g.merge i j) := by
    unfold merge
    refine .trans (alikeFold (fun g t => .trans (alikeModify g t ?_) (alikeAddEdge _ i t)) _ _)
      (.trans (alikeFold (fun g h => .trans (alikeModify g h ?_) (alikeAddCatchEdge _ i h)) _ _)
        (.trans (alikeModify _ j ?_) ⟨rfl,rfl,fun _ => .refl _⟩))
    <;> exact fun _ => ⟨rfl,rfl,rfl,rfl⟩
  exact alike.shaped joined

theorem shapedBypass {g : Graph} (shaped : g.Shaped) (i j : NodeId) : (g.bypass i j).Shaped := by
  have closed : ∀ h : Graph, h.Alike { ({ h with entry := h.entry.map fun e => if e = i then j else e } :
      Graph).modify i fun n => { n with preds := [], succs := [], catchSuccs := [] } with
        nodes := without i h.nodes } := by
    intro h
    have led : h.Alike { h with entry := h.entry.map fun e => if e = i then j else e } :=
      ⟨rfl,rfl,fun _ => .refl _⟩
    have cleared := led.trans (alikeModify _ i
      (f := fun n => { n with preds := [], succs := [], catchSuccs := [] }) fun _ => ⟨rfl,rfl,rfl,rfl⟩)
    exact ⟨cleared.regions,cleared.size,cleared.nodes⟩
  have alike : g.Alike (g.bypass i j) := by
    unfold bypass
    refine .trans (alikeModify _ _ ?_) (.trans (alikeFold (fun g p =>
      .trans (alikeModify g p ?_) (alikeModify _ j ?_)) _ _) (.trans (alikeModifyAll _ _ ?_) (closed _)))
    <;> exact fun _ => ⟨rfl,rfl,rfl,rfl⟩
  exact alike.shaped shaped

theorem shapedReduce {g h : Graph} {i : NodeId} (shaped : g.Shaped) (found : g.reduce? i = some h) :
    h.Shaped := by
  unfold reduce? at found
  split at found
  · contradiction
  · split at found
    · rename_i j merges
      cases Option.some.inj found
      exact shapedMerge shaped merges
    · obtain ⟨j,-,rfl⟩ := Option.map_eq_some_iff.mp found
      exact shapedBypass shaped i j

theorem shapedSweep {g : Graph} (shaped : g.Shaped) : g.sweep.1.Shaped := by
  refine List.foldlRecOn g.nodes _ (motive := fun r : Graph × Bool => r.1.Shaped) shaped ?_
  intro r shaped i _
  dsimp only
  split
  · rename_i found
    exact shapedReduce shaped found
  · exact shaped

theorem shapedSweeps (fuel : Nat) {g : Graph} (shaped : g.Shaped) : (sweeps fuel g).Shaped := by
  induction fuel generalizing g with
  | zero => exact shaped
  | succ fuel ih =>
    rw [sweeps]
    dsimp only
    split
    · exact ih (shapedSweep shaped)
    · exact shapedSweep shaped

theorem shapedSimplify {g : Graph} (shaped : g.Shaped) : g.simplify.Shaped := by
  unfold simplify
  split
  · exact shaped
  · exact (alikeRenumber _).shaped (shapedSweeps _ shaped)

theorem shapedOfMethod {m : Method} {g : Graph} (made : ofMethod m = .ok g) :
    g.splitTests.simplify.Shaped := shapedSimplify (shapedSplitTests (builtOfMethod made))

end Graph

end RegCode
