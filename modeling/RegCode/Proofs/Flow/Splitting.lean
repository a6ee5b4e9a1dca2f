import RegCode.Proofs.Flow.Edits
import RegCode.Proofs.Flow.Shape
import RegCode.Proofs.Flow.Coherence

/-! Nodes of a graph after the statements in front of a test have got a node of their own, field by
field. A test that leads to itself, or that handles what it raises, leads to the new node then. -/
namespace RegCode

namespace Graph

variable {g : Graph} {i k : NodeId} {last : Stmt}

def detour (g : Graph) (i k : NodeId) (x : Node) : Node :=
  let x := if k ∈ (g.node i).preds then x.retarget i g.store.size else x
  if k ∈ (g.node i).catchPreds then x.retargetCatch i g.store.size else x

def handlersOfTest (g : Graph) (i : NodeId) : List NodeId := (g.detour i i (g.node i)).catchSuccs

def catchPredsParted (g : Graph) (i : NodeId) (last : Stmt) (k : NodeId) (ps : List NodeId) : List NodeId :=
  let ps := if k ∈ g.handlersOfTest i then insertOnce g.store.size ps else ps
  if last.canThrow then ps else if k ∈ g.handlersOfTest i then without i ps else ps

theorem handlersPlain (plain : g.Plain (g.node i)) : (g.handlersOfTest i).Nodup ∧
    ∀ h, h ∈ g.handlersOfTest i ↔ (h ∈ (g.node i).catchSuccs ∧ (h ≠ i ∨ i ∉ (g.node i).catchPreds)) ∨
      h = g.store.size ∧ i ∈ (g.node i).catchSuccs ∧ i ∈ (g.node i).catchPreds := by
  have outer : ∀ x : Node, (if i ∈ (g.node i).preds then x.retarget i g.store.size else x).catchSuccs =
      x.catchSuccs := fun x => by split <;> rfl
  unfold handlersOfTest detour
  dsimp only
  split
  · rename_i loops
    simp only [Node.retargetCatch,outer]
    refine ⟨eraseDupsNodup _,fun h => ?_⟩
    simp only [List.mem_eraseDups,List.mem_map,loops]
    constructor
    · rintro ⟨t,member,rfl⟩
      split
      · rename_i same
        exact .inr ⟨rfl,same ▸ member,trivial⟩
      · rename_i other
        exact .inl ⟨member,.inl other⟩
    · rintro (⟨member,other⟩ | ⟨rfl,member,-⟩)
      · exact ⟨h,member,if_neg (other.resolve_right (not_not_intro trivial))⟩
      · exact ⟨i,member,if_pos rfl⟩
  · rename_i none
    rw [outer]
    refine ⟨plain.catchSuccs.1,fun h => ?_⟩
    simp [none]

theorem detourOuter (g : Graph) (i k : NodeId) (x : Node) :
    (g.detour i k x).preds = x.preds ∧ (g.detour i k x).catchPreds = x.catchPreds := by
  unfold detour
  dsimp only
  split <;> split <;> exact ⟨rfl,rfl⟩

def detoured (g : Graph) (i : NodeId) (last : Stmt) : Graph :=
  let n := g.node i
  let g' := (g.parted i last).modifyAll n.preds (Node.retarget i g.store.size)
  let g' := g'.modifyAll n.catchPreds (Node.retargetCatch i g.store.size)
  let g' := g'.modify i fun n => { n with preds := [], catchPreds := [] }
  g'.addEdge g.store.size i

def splitBody (g : Graph) (i : NodeId) (last : Stmt) : Graph :=
  let g' := g.detoured i last
  let handlers := (g'.node i).catchSuccs
  let g' := g'.addCatchEdges g.store.size handlers
  if last.canThrow then g'
  else
    (g'.modifyAll handlers fun h => { h with catchPreds := without i h.catchPreds }).modify i
      fun n => { n with catchSuccs := [] }

theorem splitTestBody (g : Graph) (i : NodeId) : (g.splitTest i = g ∧ g.Alone i) ∨
    ∃ last, (g.node i).stmts.getLast? = some last ∧
      ((g.node i).kind = .cond ∨ (g.node i).kind = .switch) ∧ 2 ≤ (g.node i).stmts.length ∧
      g.splitTest i = (g.splitBody i last).redirect i g.store.size := by
  obtain ⟨r,same⟩ : ∃ r, g.splitTest i = r := ⟨_,rfl⟩
  rw [same]
  unfold splitTest at same
  dsimp only at same
  split at same
  · rename_i none
    exact .inl ⟨same.symm,fun _ => by simp [List.getLast?_eq_none_iff.mp none]⟩
  · rename_i last ends
    split at same
    · rename_i whole
      refine .inl ⟨same.symm,fun kind => ?_⟩
      rcases kind with kind | kind <;> simp [kind] at whole <;> omega
    · rename_i parts
      simp only [Bool.or_eq_true,not_or,Bool.and_eq_true,bne_iff_ne,decide_eq_true_eq] at parts
      exact .inr ⟨last,ends,by tauto,by omega,same.symm⟩

theorem sizeDetoured (g : Graph) (i : NodeId) (last : Stmt) : (g.detoured i last).store.size = g.store.size + 1 := by
  unfold detoured
  dsimp only
  rw [(alikeAddEdge ..).size,sizeModify,sizeModifyAll,sizeModifyAll,parted,sizeModify]
  simp [addNode]

section
variable (plain : g.Plain (g.node i)) (inside : i < g.store.size)
include plain inside

theorem nodeDetoured (k : NodeId) : (g.detoured i last).node k =
    if k = g.store.size then { g.front i with succs := [i] }
    else if k = i then
      { g.detour i i { g.node i with stmts := [last], handler := false } with
        preds := [g.store.size], catchPreds := [] }
    else g.detour i k (g.node k) := by
  have size : (g.parted i last).store.size = g.store.size + 1 := by
    rw [parted,sizeModify]
    simp [addNode]
  have within : ∀ {t}, t < g.store.size → t < (g.parted i last).store.size := fun below =>
    size ▸ Nat.lt_succ_of_lt below
  have parts : ∀ k, (g.parted i last).node k = if k = g.store.size then g.front i
      else if k = i then { g.node i with stmts := [last], handler := false } else g.node k := by
    intro k
    rw [parted,nodeModified i k (by simpa [addNode] using Nat.lt_succ_of_lt inside),nodeAddNode]
    by_cases here : k = i
    · subst here
      simp [Nat.ne_of_lt inside]
    · simp [here]
  have last_ : ∀ {is : List NodeId}, (∀ t ∈ is, t < g.store.size) → g.store.size ∉ is :=
    fun below member => Nat.lt_irrefl _ (below _ member)
  obtain ⟨h,turned⟩ : ∃ h, ((g.parted i last).modifyAll (g.node i).preds
      (Node.retarget i g.store.size)).modifyAll (g.node i).catchPreds
        (Node.retargetCatch i g.store.size) = h := ⟨_,rfl⟩
  have sizeTurned : h.store.size = g.store.size + 1 := by
    rw [← turned,sizeModifyAll,sizeModifyAll,size]
  have turns : ∀ k, h.node k = if k = g.store.size then g.front i
      else g.detour i k ((g.parted i last).node k) := by
    intro k
    rw [← turned,nodeModifyAll plain.catchPreds.1 fun t member => by
        simpa [sizeModifyAll] using within (plain.catchPreds.2 t member),
      nodeModifyAll plain.preds.1 fun t member => within (plain.preds.2 t member)]
    by_cases new : k = g.store.size
    · subst new
      rw [if_neg (last_ plain.catchPreds.2),if_neg (last_ plain.preds.2),if_pos rfl,parts,if_pos rfl]
    · rw [if_neg new]
      rfl
  have unfolded : (g.detoured i last).node k = ((h.modify i fun n =>
      { n with preds := [], catchPreds := [] }).addEdge g.store.size i).node k := by
    rw [← turned]
    rfl
  rw [unfolded,nodeAddEdge (by simp [sizeTurned]) (by simp [sizeTurned,Nat.lt_succ_of_lt inside]),
    nodeModified i k (sizeTurned ▸ Nat.lt_succ_of_lt inside),turns]
  by_cases new : k = g.store.size
  · subst new
    simp [Nat.ne_of_gt inside,front,insertOnce]
  · by_cases here : k = i
    · subst here
      rw [parts]
      simp [new,insertOnce]
    · rw [parts]
      simp [new,here]

theorem handlersDetoured : ((g.detoured i last).node i).catchSuccs = g.handlersOfTest i := by
  rw [nodeDetoured plain inside,if_neg (Nat.ne_of_lt inside),if_pos rfl,handlersOfTest,detour,detour]
  dsimp only
  split <;> split <;> rfl

theorem nodeSplitBody (loops : i ∈ (g.node i).catchSuccs → i ∈ (g.node i).catchPreds) (k : NodeId) :
    (g.splitBody i last).node k =
    if k = g.store.size then
      { g.front i with
        succs := [i], catchSuccs := g.handlersOfTest i
        catchPreds := g.catchPredsParted i last k (g.node i).catchPreds }
    else if k = i then
      { g.detour i i { g.node i with stmts := [last], handler := false } with
        preds := [g.store.size], catchPreds := []
        catchSuccs := if last.canThrow then g.handlersOfTest i else [] }
    else { g.detour i k (g.node k) with
      catchPreds := g.catchPredsParted i last k (g.node k).catchPreds } := by
  obtain ⟨once,listed⟩ := handlersPlain plain
  have size := g.sizeDetoured i last
  have below : ∀ h ∈ g.handlersOfTest i, h < (g.detoured i last).store.size := by
    intro h member
    rw [size]
    rcases (listed h).mp member with ⟨old,-⟩ | ⟨rfl,-⟩
    · exact Nat.lt_succ_of_lt (plain.catchSuccs.2 h old)
    · exact Nat.lt_succ_self _
  have other : i ∉ g.handlersOfTest i := by
    intro member
    rcases (listed i).mp member with ⟨old,apart⟩ | ⟨same,-⟩
    · exact apart.elim (fun h => h rfl) fun h => h (loops old)
    · exact Nat.ne_of_lt inside same
  have first : g.store.size < (g.detoured i last).store.size := by
    rw [size]
    exact Nat.lt_succ_self _
  have added := nodeAddCatchEdges first below
  have sizeAdded := (framedAddCatchEdges (g.detoured i last) g.store.size (g.handlersOfTest i)).size.trans size
  -- What the exceptional edges are once those of a quiet test are gone.
  have body : (g.splitBody i last).node k =
      { (g.detoured i last).node k with
        catchSuccs := if k = g.store.size then insertAll (g.handlersOfTest i) ((g.detoured i last).node k).catchSuccs
          else if k = i ∧ last.canThrow = false then [] else ((g.detoured i last).node k).catchSuccs
        catchPreds := g.catchPredsParted i last k ((g.detoured i last).node k).catchPreds } := by
    unfold splitBody catchPredsParted
    dsimp only
    rw [handlersDetoured plain inside]
    cases throws : last.canThrow
    · rw [if_neg (by simp),nodeModified i k (by
          rw [sizeModifyAll,sizeAdded]
          exact Nat.lt_succ_of_lt inside),
        nodeModifyAll once fun h member => by
          rw [(framedAddCatchEdges ..).size]
          exact below h member,added]
      by_cases here : k = i
      · subst here
        simp [other,Nat.ne_of_lt inside]
      · simp only [here,if_false,false_and,Bool.false_eq_true]
        split <;> split <;> rfl
    · rw [if_pos rfl,added]
      simp
  rw [body,nodeDetoured plain inside]
  by_cases new : k = g.store.size
  · subst new
    simp only [if_true,front,insertAllNew once]
  · by_cases here : k = i
    · subst here
      have own := @handlersDetoured g k last plain inside
      rw [nodeDetoured plain inside,if_neg new,if_pos rfl] at own
      simp only [if_neg new,if_true,true_and,own,catchPredsParted,other,if_false,ite_self]
      cases last.canThrow <;> simp
    · simp only [if_neg new,here,false_and,if_false]
      rw [(g.detourOuter i k (g.node k)).2]

end

end Graph

end RegCode

/-! Parting a test from the statements in front of it keeps the fields of the nodes in agreement. -/
namespace RegCode

namespace Graph

variable {g : Graph} {i j k : NodeId}

theorem framedSplitBody (g : Graph) (i : NodeId) (last : Stmt) :
    Framed (g.addNode (g.front i)).1 (g.splitBody i last) := by
  have detoured : Framed (g.addNode (g.front i)).1 (g.detoured i last) :=
    (framedModify ..).trans ((framedModifyAll ..).trans ((framedModifyAll ..).trans
      ((framedModify ..).trans (framedAddEdge ..))))
  unfold splitBody
  dsimp only
  split
  · exact detoured.trans (framedAddCatchEdges ..)
  · exact detoured.trans ((framedAddCatchEdges ..).trans ((framedModifyAll ..).trans (framedModify ..)))

def split (g : Graph) (i : NodeId) (last : Stmt) : Graph :=
  (g.splitBody i last).redirect i g.store.size

theorem nodesSplit {last : Stmt} : (g.split i last).nodes = g.nodes ++ [g.store.size] := by
  show (g.splitBody i last).nodes = _
  rw [(g.framedSplitBody i last).rest]
  rfl

theorem sizeSplit {last : Stmt} : (g.split i last).store.size = g.store.size + 1 := by
  show (g.splitBody i last).store.size = _
  rw [(g.framedSplitBody i last).size]
  simp [addNode]

theorem entrySplit {last : Stmt} :
    (g.split i last).entry = g.entry.map fun e => if e = i then g.store.size else e := by
  show (g.splitBody i last).entry.map _ = _
  rw [(g.framedSplitBody i last).rest]
  rfl

theorem regionsSplit {last : Stmt} : (g.split i last).regions = g.regions.map fun r =>
    { r with handlers := r.handlers.map (redirectHandler i g.store.size) } := by
  show (g.splitBody i last).regions.map _ = _
  rw [(g.framedSplitBody i last).rest]
  rfl

theorem detourKept (g : Graph) (i k : NodeId) (x : Node) :
    (g.detour i k x).kind = x.kind ∧ (g.detour i k x).stmts = x.stmts ∧
      (g.detour i k x).region = x.region ∧ (g.detour i k x).handler = x.handler := by
  unfold detour
  dsimp only
  split <;> split <;> exact ⟨rfl,rfl,rfl,rfl⟩

section
variable (coherent : g.Coherent) (member : i ∈ g.nodes)
include coherent

theorem fresh : g.store.size ∉ g.nodes := fun old => Nat.lt_irrefl _ (coherent.inStore _ old)

theorem detourMem {a b : NodeId} {x : Node} (left : a ∈ g.nodes) (succs : x.succs = (g.node a).succs) :
    b ∈ (g.detour i a x).succs ↔
      (b ∈ (g.node a).succs ∧ b ≠ i) ∨ (b = g.store.size ∧ i ∈ (g.node a).succs) := by
  have outer : ∀ y : Node, (if a ∈ (g.node i).catchPreds then y.retargetCatch i g.store.size else y).succs =
      y.succs := fun y => by split <;> rfl
  rw [detour,outer,← succs]
  split
  · exact Node.retargetMem x i g.store.size b
  · rename_i apart
    have unrelated : i ∉ x.succs := fun leads => apart (coherent.normal.forth a left i (succs ▸ leads)).2
    grind

theorem detourCatchMem {a b : NodeId} {x : Node} (left : a ∈ g.nodes)
    (catchSuccs : x.catchSuccs = (g.node a).catchSuccs) :
    b ∈ (g.detour i a x).catchSuccs ↔
      (b ∈ (g.node a).catchSuccs ∧ b ≠ i) ∨ (b = g.store.size ∧ i ∈ (g.node a).catchSuccs) := by
  have inner : (if a ∈ (g.node i).preds then x.retarget i g.store.size else x).catchSuccs =
      (g.node a).catchSuccs := by split <;> exact catchSuccs
  unfold detour
  dsimp only
  split
  · rw [Node.retargetCatchMem,inner]
  · rename_i apart
    have unrelated : i ∉ (g.node a).catchSuccs :=
      fun leads => apart (coherent.raised.forth a left i leads).2
    rw [inner]
    grind

omit coherent in
theorem detourOnce {a : NodeId} {x : Node} (succs : x.succs.Nodup) (catchSuccs : x.catchSuccs.Nodup) :
    (g.detour i a x).succs.Nodup ∧ (g.detour i a x).catchSuccs.Nodup := by
  unfold detour
  dsimp only
  split <;> split
  · exact ⟨eraseDupsNodup _,eraseDupsNodup _⟩
  · exact ⟨succs,eraseDupsNodup _⟩
  · exact ⟨eraseDupsNodup _,catchSuccs⟩
  · exact ⟨succs,catchSuccs⟩

variable {last : Stmt}

include member

theorem nodeSplit (k : NodeId) : (g.split i last).node k =
    if k = g.store.size then
      { g.front i with
        succs := [i], catchSuccs := g.handlersOfTest i
        catchPreds := g.catchPredsParted i last k (g.node i).catchPreds }
    else if k = i then
      { g.detour i i { g.node i with stmts := [last], handler := false } with
        preds := [g.store.size], catchPreds := []
        catchSuccs := if last.canThrow then g.handlersOfTest i else [] }
    else { g.detour i k (g.node k) with
      catchPreds := g.catchPredsParted i last k (g.node k).catchPreds } :=
  nodeSplitBody (coherent.plain member) (coherent.inStore i member)
    (fun loops => (coherent.raised.forth i member i loops).2) k

theorem succsSplit {a b : NodeId} : b ∈ ((g.split i last).node a).succs ∧ a ∈ (g.split i last).nodes ↔
    (a = g.store.size ∧ b = i) ∨ (a ∈ g.nodes ∧
      ((b ∈ (g.node a).succs ∧ b ≠ i) ∨ (b = g.store.size ∧ i ∈ (g.node a).succs))) := by
  have new := fresh coherent
  rw [nodesSplit,List.mem_append,List.mem_singleton,nodeSplit coherent member]
  by_cases front : a = g.store.size
  · rw [if_pos front]
    simp [front,new]
  · rw [if_neg front]
    simp only [front,or_false,false_and,false_or]
    rw [and_comm]
    refine and_congr_right fun left => ?_
    split
    · rename_i same
      subst same
      exact detourMem coherent left rfl
    · exact detourMem coherent left rfl

theorem handlersMem {b : NodeId} : b ∈ g.handlersOfTest i ↔
    (b ∈ (g.node i).catchSuccs ∧ b ≠ i) ∨ (b = g.store.size ∧ i ∈ (g.node i).catchSuccs) :=
  detourCatchMem coherent member rfl

theorem catchSuccsSplit {a b : NodeId} :
    b ∈ ((g.split i last).node a).catchSuccs ∧ a ∈ (g.split i last).nodes ↔
      (a = g.store.size ∧ b ∈ g.handlersOfTest i) ∨
      (a ∈ g.nodes ∧ (a = i → last.canThrow = true) ∧
        ((b ∈ (g.node a).catchSuccs ∧ b ≠ i) ∨ (b = g.store.size ∧ i ∈ (g.node a).catchSuccs))) := by
  have new := fresh coherent
  rw [nodesSplit,List.mem_append,List.mem_singleton,nodeSplit coherent member]
  by_cases front : a = g.store.size
  · rw [if_pos front]
    simp [front,new]
  · rw [if_neg front]
    simp only [front,or_false,false_and,false_or]
    rw [and_comm]
    refine and_congr_right fun left => ?_
    split
    · rename_i same
      subst same
      dsimp only
      rw [← handlersMem coherent member]
      cases last.canThrow <;> simp
    · rename_i other
      exact (detourCatchMem coherent left rfl).trans (by simp [other])

theorem catchPredsPartedMem {a b : NodeId} {ps : List NodeId} : a ∈ g.catchPredsParted i last b ps ↔
    (a ∈ ps ∨ a = g.store.size ∧ b ∈ g.handlersOfTest i) ∧
      (a = i → b ∈ g.handlersOfTest i → last.canThrow = true) := by
  have new : g.store.size ≠ i := Nat.ne_of_gt (coherent.inStore i member)
  unfold catchPredsParted
  dsimp only
  by_cases handles : b ∈ g.handlersOfTest i
  · cases last.canThrow <;> simp [handles,insertOnceMem,withoutMem]
  · cases last.canThrow <;> simp [handles]

omit coherent member in
theorem catchPredsPartedOnce {b : NodeId} {ps : List NodeId} (once : ps.Nodup) :
    (g.catchPredsParted i last b ps).Nodup := by
  unfold catchPredsParted
  dsimp only
  split <;> split
  · exact insertOnceNodup once
  · exact once
  · exact withoutNodup (insertOnceNodup once)
  · exact once

theorem normalSplit : (g.split i last).Paired (·.succs) (·.preds) := by
  have new := fresh coherent
  have inside := coherent.inStore i member
  have node := @nodeSplit g i coherent member last
  have out := @succsSplit g i coherent member last
  have nodes : ∀ k, k ∈ (g.split i last).nodes ↔ k ∈ g.nodes ∨ k = g.store.size := fun k => by
    rw [nodesSplit,List.mem_append,List.mem_singleton]
  have forth : ∀ a b, a ∈ g.nodes → b ∈ (g.node a).succs → b ∈ g.nodes ∧ a ∈ (g.node b).preds :=
    fun a b left => coherent.normal.forth a left b
  have back : ∀ a b, b ∈ g.nodes → a ∈ (g.node b).preds → a ∈ g.nodes ∧ b ∈ (g.node a).succs :=
    fun a b right => coherent.normal.back b right a
  refine .ofEdges (fun a b => (a = g.store.size ∧ b = i) ∨ (a ∈ g.nodes ∧
      ((b ∈ (g.node a).succs ∧ b ≠ i) ∨ (b = g.store.size ∧ i ∈ (g.node a).succs))))
    (fun a here b => ?_) (fun b here a => ?_) (fun a here b leads => ?_) (fun a here => ?_)
    (fun b here => ?_)
  · rw [← out,and_iff_left here]
  · rw [nodes,node]
    have here := (nodes b).mp here
    split
    · rename_i front
      have := forth a g.store.size
      have := forth a i
      have := back a i member
      simp only [Graph.front]
      grind
    · split
      · rw [List.mem_singleton]
        grind
      · rw [(g.detourOuter i b (g.node b)).1]
        have := forth a b
        have := back a b
        grind
  · have := forth a b
    rw [nodes]
    grind
  · rw [node]
    split
    · exact List.nodup_singleton i
    · have old := ((nodes a).mp here).resolve_right ‹_›
      split
      · exact (detourOnce (x := { g.node i with stmts := [last], handler := false })
          (coherent.normal.forthOnce i member) (coherent.raised.forthOnce i member)).1
      · exact (detourOnce (coherent.normal.forthOnce a old) (coherent.raised.forthOnce a old)).1
  · rw [node]
    split
    · exact coherent.normal.backOnce i member
    · have old := ((nodes b).mp here).resolve_right ‹_›
      split
      · exact List.nodup_singleton _
      · rw [(g.detourOuter i b (g.node b)).1]
        exact coherent.normal.backOnce b old

theorem raisedSplit : (g.split i last).Paired (·.catchSuccs) (·.catchPreds) := by
  have new := fresh coherent
  have node := @nodeSplit g i coherent member last
  have raises := @catchSuccsSplit g i coherent member last
  have handlers := @handlersMem g i coherent member
  have nodes : ∀ k, k ∈ (g.split i last).nodes ↔ k ∈ g.nodes ∨ k = g.store.size := fun k => by
    rw [nodesSplit,List.mem_append,List.mem_singleton]
  have forth : ∀ a b, a ∈ g.nodes → b ∈ (g.node a).catchSuccs →
      b ∈ g.nodes ∧ a ∈ (g.node b).catchPreds := fun a b left => coherent.raised.forth a left b
  have back : ∀ a b, b ∈ g.nodes → a ∈ (g.node b).catchPreds →
      a ∈ g.nodes ∧ b ∈ (g.node a).catchSuccs := fun a b right => coherent.raised.back b right a
  refine .ofEdges (fun a b => (a = g.store.size ∧ b ∈ g.handlersOfTest i) ∨
      (a ∈ g.nodes ∧ (a = i → last.canThrow = true) ∧
        ((b ∈ (g.node a).catchSuccs ∧ b ≠ i) ∨ (b = g.store.size ∧ i ∈ (g.node a).catchSuccs))))
    (fun a here b => ?_) (fun b here a => ?_) (fun a here b leads => ?_) (fun a here => ?_)
    (fun b here => ?_)
  · rw [← raises,and_iff_left here]
  · rw [nodes,node]
    have here := (nodes b).mp here
    split
    · rename_i front
      have := forth a g.store.size
      have := forth a i
      have := back a i member
      rw [catchPredsPartedMem coherent member]
      grind
    · split
      · simp only [List.not_mem_nil,false_iff]
        have := forth a i
        grind
      · rw [catchPredsPartedMem coherent member]
        have := forth a b
        have := back a b
        grind
  · have := forth a b
    have := forth i b member
    rw [nodes]
    grind
  · rw [node]
    split
    · exact (handlersPlain (coherent.plain member)).1
    · have old := ((nodes a).mp here).resolve_right ‹_›
      split
      · dsimp only
        split
        · exact (handlersPlain (coherent.plain member)).1
        · exact List.nodup_nil
      · exact (detourOnce (coherent.normal.forthOnce a old) (coherent.raised.forthOnce a old)).2
  · rw [node]
    split
    · exact catchPredsPartedOnce (coherent.raised.backOnce i member)
    · have old := ((nodes b).mp here).resolve_right ‹_›
      split
      · exact List.nodup_nil
      · exact catchPredsPartedOnce (coherent.raised.backOnce b old)

theorem coherentSplit : (g.split i last).Coherent := by
  have new := fresh coherent
  have node := @nodeSplit g i coherent member last
  have nodes : ∀ k, k ∈ (g.split i last).nodes ↔ k ∈ g.nodes ∨ k = g.store.size := fun k => by
    rw [nodesSplit,List.mem_append,List.mem_singleton]
  refine ⟨⟨fun k here => ?_,?_,normalSplit coherent member,raisedSplit coherent member⟩,
    fun e here => ?_,fun none => ?_,fun k here => ?_,fun k here h leads => ?_⟩
  · rw [sizeSplit]
    rcases (nodes k).mp here with old | rfl
    · exact Nat.lt_succ_of_lt (coherent.inStore k old)
    · exact Nat.lt_succ_self _
  · rw [nodesSplit]
    exact List.nodup_append.mpr ⟨coherent.once,List.nodup_singleton _,fun a old b single same =>
      new (List.mem_singleton.mp single ▸ same ▸ old)⟩
  · rw [entrySplit] at here
    obtain ⟨e',first,rfl⟩ := Option.map_eq_some_iff.mp here
    rw [nodes]
    split
    · exact .inr rfl
    · exact .inl (coherent.entry e' first)
  · rw [entrySplit,Option.map_eq_none_iff] at none
    rw [coherent.empty none] at member
    contradiction
  · have detours : ∀ a ∈ g.nodes, ∀ x : Node, x.Formed → x.succs = (g.node a).succs →
        (g.detour i a x).Formed := by
      intro a old x formed succs
      have outer : ∀ y : Node, y.Formed →
          (if a ∈ (g.node i).catchPreds then y.retargetCatch i g.store.size else y).Formed := by
        intro y formed
        split
        · exact formed.congr rfl rfl rfl rfl rfl rfl
        · exact formed
      refine outer _ ?_
      split
      · refine formed.retarget fun _ leads => ?_
        exact new (coherent.normal.forth a old _ (succs ▸ leads)).1
      · exact formed
    rw [node]
    split
    · exact ⟨nofun,nofun,nofun,fun _ => Nat.le_refl 1⟩
    · have old := ((nodes k).mp here).resolve_right ‹_›
      split
      · refine (detours i member { g.node i with stmts := [last], handler := false } ?_ rfl).congr
          rfl rfl rfl rfl rfl rfl
        exact (coherent.formed i member).congr rfl rfl rfl rfl rfl rfl
      · exact (detours k old _ (coherent.formed k old) rfl).congr rfl rfl rfl rfl rfl rfl
  · have marks : ∀ a ∈ g.nodes, (h ∈ (g.node a).catchSuccs ∧ h ≠ i) ∨
        (h = g.store.size ∧ i ∈ (g.node a).catchSuccs) → ((g.split i last).node h).handler = true := by
      intro a left leads
      rw [node]
      rcases leads with ⟨raises,other⟩ | ⟨rfl,raises⟩
      · have old := (coherent.raised.forth a left h raises).1
        rw [if_neg fun same : h = g.store.size => new (same ▸ old),if_neg other]
        exact (g.detourKept i h _).2.2.2.trans (coherent.marked a left h raises)
      · rw [if_pos rfl]
        exact coherent.marked a left i raises
    rcases (catchSuccsSplit coherent member).mp ⟨leads,here⟩ with ⟨-,leads⟩ | ⟨left,-,leads⟩
    · exact marks i member ((handlersMem coherent member).mp leads)
    · exact marks k left leads

end

end Graph

end RegCode
