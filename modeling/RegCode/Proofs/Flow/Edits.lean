import RegCode.Flow.Simplify
import Mathlib.Data.List.Nodup

/-! What single edits do to the nodes of a graph. Most of them move edges and leave kind, statements
and protection of every node alone. -/
namespace RegCode

/-- Nodes that differ in nothing but their edges, their number, their role as handlers and the
locations of their statements. -/
structure Node.Alike (n m : Node) : Prop where
  kind : m.kind = n.kind
  acts : m.stmts.map Stmt.act = n.stmts.map Stmt.act
  region : m.region = n.region
  start : m.start = n.start

theorem Node.Alike.refl (n : Node) : n.Alike n := ⟨rfl,rfl,rfl,rfl⟩

theorem Node.Alike.trans {n m k : Node} (first : n.Alike m) (second : m.Alike k) : n.Alike k :=
  ⟨second.kind.trans first.kind,second.acts.trans first.acts,second.region.trans first.region,
    second.start.trans first.start⟩

namespace Graph

theorem nodeModify (g : Graph) (i j : NodeId) (f : Node → Node) :
    (g.modify i f).node j = if i = j ∧ j < g.store.size then f (g.node j) else g.node j := by
  simp only [node,modify,Array.getElem?_modify]
  by_cases same : i = j
  · subst same
    by_cases inside : i < g.store.size
    · simp [inside]
    · simp [inside]
  · simp [same]

@[simp] theorem sizeModify (g : Graph) (i : NodeId) (f : Node → Node) :
    (g.modify i f).store.size = g.store.size := by simp [modify]

theorem nodeOutside {g : Graph} {i : NodeId} (outside : g.store.size ≤ i) : g.node i = {} := by
  rw [node,Array.getElem?_eq_none outside,Option.getD_none]

theorem nodeAddNode (g : Graph) (n : Node) (i : NodeId) :
    (g.addNode n).1.node i = if i = g.store.size then n else g.node i := by
  simp only [node,addNode,Array.getElem?_push]
  split <;> rfl

/-- Graphs with the same regions whose nodes differ in nothing but their edges. -/
structure Alike (g h : Graph) : Prop where
  regions : h.regions = g.regions
  size : h.store.size = g.store.size
  nodes : ∀ i, (g.node i).Alike (h.node i)

variable {g h k : Graph}

theorem Alike.refl (g : Graph) : g.Alike g := ⟨rfl,rfl,fun _ => .refl _⟩

theorem Alike.trans (first : g.Alike h) (second : h.Alike k) : g.Alike k :=
  ⟨second.regions.trans first.regions,second.size.trans first.size,
    fun i => (first.nodes i).trans (second.nodes i)⟩

theorem alikeModify (g : Graph) (i : NodeId) {f : Node → Node} (alike : ∀ n : Node, n.Alike (f n)) :
    g.Alike (g.modify i f) := by
  refine ⟨rfl,g.sizeModify i f,fun j => ?_⟩
  rw [nodeModify]
  split
  · exact alike _
  · exact .refl _

theorem alikeFold {α : Type} {step : Graph → α → Graph} (alike : ∀ g a, Alike g (step g a))
    (as : List α) (g : Graph) : g.Alike (as.foldl step g) := by
  induction as generalizing g with
  | nil => exact .refl g
  | cons a as ih => exact (alike g a).trans (ih (step g a))

theorem alikeModifyAll (g : Graph) (is : List NodeId) {f : Node → Node}
    (alike : ∀ n : Node, n.Alike (f n)) : g.Alike (g.modifyAll is f) :=
  alikeFold (fun g i => g.alikeModify i alike) is g

theorem insertOnceMem {i j : NodeId} {is : List NodeId} : j ∈ insertOnce i is ↔ j ∈ is ∨ j = i := by
  unfold insertOnce
  split
  · rename_i old
    exact ⟨.inl,fun h => h.elim id fun same => same ▸ List.contains_iff_mem.mp old⟩
  · simp

theorem succsAddEdge {a b : NodeId} (member : a < g.store.size) (i j : NodeId) :
    j ∈ ((g.addEdge a b).node i).allSuccs ↔ j ∈ (g.node i).allSuccs ∨ i = a ∧ j = b := by
  simp only [addEdge,nodeModify,sizeModify,Node.allSuccs,List.mem_append]
  by_cases here : a = i
  · subst here
    split <;> simp [member,insertOnceMem,or_right_comm]
  · have other : i ≠ a := fun same => here same.symm
    split <;> simp [here,other]

theorem succsAddCatchEdge {a b : NodeId} (member : a < g.store.size) (i j : NodeId) :
    j ∈ ((g.addCatchEdge a b).node i).allSuccs ↔ j ∈ (g.node i).allSuccs ∨ i = a ∧ j = b := by
  simp only [addCatchEdge,nodeModify,sizeModify,Node.allSuccs,List.mem_append]
  by_cases here : a = i
  · subst here
    split <;> simp [member,insertOnceMem,or_assoc]
  · have other : i ≠ a := fun same => here same.symm
    split <;> simp [here,other]

theorem alikeAddEdge (g : Graph) (a b : NodeId) : g.Alike (g.addEdge a b) := by
  unfold addEdge
  refine .trans (alikeModify g a ?_) (alikeModify _ b ?_) <;> exact fun _ => ⟨rfl,rfl,rfl,rfl⟩

theorem alikeAddCatchEdge (g : Graph) (a b : NodeId) : g.Alike (g.addCatchEdge a b) := by
  unfold addCatchEdge
  refine .trans (alikeModify g a ?_) (alikeModify _ b ?_) <;> exact fun _ => ⟨rfl,rfl,rfl,rfl⟩

theorem alikeRemoveNode (g : Graph) (i : NodeId) : g.Alike (g.removeNode i) := by
  have start : g.Alike { g with nodes := without i g.nodes } := ⟨rfl,rfl,fun _ => .refl _⟩
  unfold removeNode
  refine start.trans (.trans (alikeModifyAll _ _ ?_) (.trans (alikeModifyAll _ _ ?_)
    (.trans (alikeModifyAll _ _ ?_) (alikeModifyAll _ _ ?_)))) <;> exact fun _ => ⟨rfl,rfl,rfl,rfl⟩

theorem alikeNumberFrom (g : Graph) (k : Nat) (is : List NodeId) : g.Alike (g.numberFrom k is) := by
  induction is generalizing g k with
  | nil => exact .refl g
  | cons i is ih =>
    refine .trans (alikeModify g i ?_) (ih _ _)
    exact fun _ => ⟨rfl,rfl,rfl,rfl⟩

theorem alikeRenumber (g : Graph) : g.Alike g.renumber := by
  unfold renumber
  split
  · exact .refl g
  · have gone : ∀ (g : Graph) i, g.Alike ((g.modify i fun n => { n with num := -1 }).removeNode i) := by
      intro g i
      refine .trans (alikeModify g i ?_) (alikeRemoveNode _ i)
      exact fun _ => ⟨rfl,rfl,rfl,rfl⟩
    have numbered := (alikeFold gone (g.nodes.filter fun i => !g.reversePostorder.contains i) g).trans
      (alikeNumberFrom _ 0 g.reversePostorder)
    exact ⟨numbered.regions,numbered.size,numbered.nodes⟩

theorem nodesRenumber (entry : g.entry ≠ none) : g.renumber.nodes = g.reversePostorder := by
  unfold renumber
  rw [if_neg (by simpa [isEmpty] using entry)]

end Graph

end RegCode

/-! Edges at both of their ends. A normal edge stands among the successors of one node and among the
predecessors of the other, an exceptional one likewise; what an edit does to one list it has to do
to the other. -/
namespace RegCode

def Node.own (n : Node) : Node := { n with num := -1, preds := [], catchPreds := [], handler := false }

namespace Graph

theorem insertOnceNodup {i : NodeId} {is : List NodeId} (once : is.Nodup) : (insertOnce i is).Nodup := by
  unfold insertOnce
  split
  · exact once
  · rename_i fresh
    refine List.nodup_append.mpr ⟨once,List.nodup_singleton i,fun a old b new same => fresh ?_⟩
    rw [List.contains_iff_mem]
    exact List.mem_singleton.mp new ▸ same ▸ old

theorem withoutMem {i j : NodeId} {is : List NodeId} : j ∈ without i is ↔ j ∈ is ∧ j ≠ i := by
  simp [without]

theorem withoutNodup {i : NodeId} {is : List NodeId} (once : is.Nodup) : (without i is).Nodup :=
  once.filter _

theorem withoutOther {i : NodeId} {is : List NodeId} (other : i ∉ is) : without i is = is :=
  List.filter_eq_self.mpr fun j member => by simpa using fun same : j = i => other (same ▸ member)

variable {g h : Graph}

theorem nodeModified (i k : NodeId) {f : Node → Node} (inside : i < g.store.size) :
    (g.modify i f).node k = if k = i then f (g.node k) else g.node k := by
  rw [nodeModify]
  by_cases same : i = k
  · subst same
    rw [if_pos ⟨rfl,inside⟩,if_pos rfl]
  · rw [if_neg fun both => same both.1,if_neg (Ne.symm same)]

theorem nodeAddEdge {a b : NodeId} (left : a < g.store.size) (right : b < g.store.size) (k : NodeId) :
    (g.addEdge a b).node k =
      { g.node k with
        succs := if k = a then insertOnce b (g.node k).succs else (g.node k).succs
        preds := if k = b then insertOnce a (g.node k).preds else (g.node k).preds } := by
  rw [addEdge,nodeModified b k (by simpa using right),nodeModified a k left]
  split <;> split <;> rfl

theorem nodeAddCatchEdge {a b : NodeId} (left : a < g.store.size) (right : b < g.store.size)
    (k : NodeId) :
    (g.addCatchEdge a b).node k =
      { g.node k with
        catchSuccs := if k = a then insertOnce b (g.node k).catchSuccs else (g.node k).catchSuccs
        catchPreds := if k = b then insertOnce a (g.node k).catchPreds else (g.node k).catchPreds } := by
  rw [addCatchEdge,nodeModified b k (by simpa using right),nodeModified a k left]
  split <;> split <;> rfl

/-- What lies among the `out` of one node of the graph has that node among its `into`. -/
structure Paired (g : Graph) (out into : Node → List NodeId) : Prop where
  forth : ∀ a ∈ g.nodes, ∀ b ∈ out (g.node a), b ∈ g.nodes ∧ a ∈ into (g.node b)
  back : ∀ b ∈ g.nodes, ∀ a ∈ into (g.node b), a ∈ g.nodes ∧ b ∈ out (g.node a)
  forthOnce : ∀ a ∈ g.nodes, (out (g.node a)).Nodup
  backOnce : ∀ b ∈ g.nodes, (into (g.node b)).Nodup

variable {out into : Node → List NodeId}

theorem Paired.iff (paired : g.Paired out into) {a b : NodeId} (left : a ∈ g.nodes)
    (right : b ∈ g.nodes) : b ∈ out (g.node a) ↔ a ∈ into (g.node b) :=
  ⟨fun leads => (paired.forth a left b leads).2,fun comes => (paired.back b right a comes).2⟩

theorem Paired.ofEdges (edge : NodeId → NodeId → Prop)
    (outIff : ∀ a ∈ h.nodes, ∀ b, b ∈ out (h.node a) ↔ edge a b)
    (intoIff : ∀ b ∈ h.nodes, ∀ a, a ∈ into (h.node b) ↔ edge a b ∧ a ∈ h.nodes)
    (closed : ∀ a ∈ h.nodes, ∀ b, edge a b → b ∈ h.nodes)
    (outOnce : ∀ a ∈ h.nodes, (out (h.node a)).Nodup)
    (intoOnce : ∀ b ∈ h.nodes, (into (h.node b)).Nodup) : h.Paired out into where
  forth a left b leads := by
    have edge := (outIff a left b).mp leads
    have right := closed a left b edge
    exact ⟨right,(intoIff b right a).mpr ⟨edge,left⟩⟩
  back b right a comes := by
    obtain ⟨edge,left⟩ := (intoIff b right a).mp comes
    exact ⟨left,(outIff a left b).mpr edge⟩
  forthOnce := outOnce
  backOnce := intoOnce

theorem Paired.congr (paired : g.Paired out into) (nodes : h.nodes = g.nodes)
    (same : ∀ i ∈ g.nodes, out (h.node i) = out (g.node i) ∧ into (h.node i) = into (g.node i)) :
    h.Paired out into := by
  refine .ofEdges (fun a b => a ∈ g.nodes ∧ b ∈ out (g.node a)) ?_ ?_ ?_ ?_ ?_ <;> rw [nodes]
  · intro a left b
    rw [(same a left).1]
    exact ⟨fun leads => ⟨left,leads⟩,And.right⟩
  · intro b right a
    rw [(same b right).2]
    refine ⟨fun comes => ?_,fun ⟨⟨left,leads⟩,_⟩ => (paired.forth a left b leads).2⟩
    obtain ⟨left,leads⟩ := paired.back b right a comes
    exact ⟨⟨left,leads⟩,left⟩
  · exact fun a left b leads => (paired.forth a left b leads.2).1
  · exact fun a left => (same a left).1 ▸ paired.forthOnce a left
  · exact fun b right => (same b right).2 ▸ paired.backOnce b right

theorem Paired.insert {a b : NodeId} (paired : g.Paired out into) (left : a ∈ g.nodes)
    (right : b ∈ g.nodes) (nodes : h.nodes = g.nodes)
    (outs : ∀ k ∈ g.nodes, out (h.node k) = if k = a then insertOnce b (out (g.node k)) else out (g.node k))
    (intos : ∀ k ∈ g.nodes,
      into (h.node k) = if k = b then insertOnce a (into (g.node k)) else into (g.node k)) :
    h.Paired out into := by
  refine .ofEdges (fun x y => y ∈ out (g.node x) ∨ x = a ∧ y = b) (fun x there y => ?_)
    (fun y there x => ?_) (fun x there y leads => ?_) (fun x there => ?_) fun y there => ?_
  all_goals rw [nodes] at there
  · rw [outs x there]
    split
    · rename_i here
      simp [insertOnceMem,here]
    · rename_i other
      simp [other]
  · have back := paired.back y there x
    have forth := fun here => (paired.forth x here y · |>.2)
    rw [intos y there,nodes]
    split
    · rw [insertOnceMem]
      constructor
      · rintro (comes | rfl)
        · exact ⟨.inl (back comes).2,(back comes).1⟩
        · exact ⟨.inr ⟨rfl,‹_›⟩,left⟩
      · rintro ⟨leads | ⟨rfl,-⟩,here⟩
        · exact .inl (forth here leads)
        · exact .inr rfl
    · rename_i other
      constructor
      · exact fun comes => ⟨.inl (back comes).2,(back comes).1⟩
      · rintro ⟨leads | ⟨-,same⟩,here⟩
        · exact forth here leads
        · exact absurd same other
  · rw [nodes]
    rcases leads with leads | ⟨-,rfl⟩
    · exact (paired.forth x there y leads).1
    · exact right
  · rw [outs x there]
    split
    · exact insertOnceNodup (paired.forthOnce x there)
    · exact paired.forthOnce x there
  · rw [intos y there]
    split
    · exact insertOnceNodup (paired.backOnce y there)
    · exact paired.backOnce y there

theorem Paired.addNode {n : Node} (paired : g.Paired out into) (fresh : g.store.size ∉ g.nodes)
    (outs : out n = []) (intos : into n = []) : (g.addNode n).1.Paired out into := by
  have nodes : ∀ k, k ∈ (g.addNode n).1.nodes ↔ k ∈ g.nodes ∨ k = g.store.size := fun k => by
    simp [Graph.addNode]
  have old : ∀ {k}, k ∈ g.nodes → (g.addNode n).1.node k = g.node k := fun {k} member => by
    rw [nodeAddNode,if_neg fun same : k = g.store.size => fresh (same ▸ member)]
  have new : (g.addNode n).1.node g.store.size = n := by rw [nodeAddNode,if_pos rfl]
  refine ⟨fun a left b leads => ?_,fun b right a comes => ?_,fun a left => ?_,fun b right => ?_⟩
  · rcases (nodes a).mp left with member | rfl
    · rw [old member] at leads
      obtain ⟨there,comes⟩ := paired.forth a member b leads
      exact ⟨(nodes b).mpr (.inl there),by rwa [old there]⟩
    · rw [new,outs] at leads
      contradiction
  · rcases (nodes b).mp right with member | rfl
    · rw [old member] at comes
      obtain ⟨there,leads⟩ := paired.back b member a comes
      exact ⟨(nodes a).mpr (.inl there),by rwa [old there]⟩
    · rw [new,intos] at comes
      contradiction
  · rcases (nodes a).mp left with member | rfl
    · exact old member ▸ paired.forthOnce a member
    · rw [new,outs]
      exact List.nodup_nil
  · rcases (nodes b).mp right with member | rfl
    · exact old member ▸ paired.backOnce b member
    · rw [new,intos]
      exact List.nodup_nil

end Graph

/-! Nodes of a graph after each change that simplifying makes, field by field. The changes are made of
many edits of single nodes, and edges of a node to itself are edited at both ends at once. -/

namespace Graph

def insertAll (ts is : List NodeId) : List NodeId := ts.foldl (fun is t => insertOnce t is) is

variable {g : Graph} {i j k : NodeId} {is ts : List NodeId}

theorem insertAllMem : k ∈ insertAll ts is ↔ k ∈ is ∨ k ∈ ts := by
  induction ts generalizing is with
  | nil => simp [insertAll]
  | cons t ts ih =>
    rw [insertAll,List.foldl_cons,← insertAll,ih,insertOnceMem,List.mem_cons,or_assoc]

theorem insertAllNodup (once : is.Nodup) : (insertAll ts is).Nodup := by
  induction ts generalizing is with
  | nil => exact once
  | cons t ts ih => exact ih (insertOnceNodup once)

theorem insertOnceNew (fresh : i ∉ is) : insertOnce i is = is ++ [i] := by
  rw [insertOnce,if_neg (by simpa using fresh)]

theorem insertAllNew (once : ts.Nodup) : insertAll ts [] = ts := by
  suffices all : ∀ is, (is ++ ts).Nodup → insertAll ts is = is ++ ts from all [] once
  clear once
  induction ts with
  | nil => exact fun is _ => (List.append_nil is).symm
  | cons t ts ih =>
    intro is once
    rw [List.append_cons] at once ⊢
    have fresh : t ∉ is := by
      have := (List.nodup_append.mp (List.nodup_append.mp once).1).2.2
      exact fun old => this t old t (List.mem_singleton_self t) rfl
    rw [insertAll,List.foldl_cons,insertOnceNew fresh]
    exact ih _ once

structure Framed (g h : Graph) : Prop where
  rest : h = { g with store := h.store }
  size : h.store.size = g.store.size

theorem Framed.refl (g : Graph) : g.Framed g := ⟨rfl,rfl⟩

theorem Framed.trans {g h h' : Graph} (first : g.Framed h) (second : h.Framed h') : g.Framed h' :=
  ⟨by rw [second.rest,first.rest],second.size.trans first.size⟩

theorem framedFold {α : Type} {step : Graph → α → Graph} (framed : ∀ g a, Framed g (step g a))
    (as : List α) (g : Graph) : g.Framed (as.foldl step g) := by
  induction as generalizing g with
  | nil => exact .refl g
  | cons a as ih => exact (framed g a).trans (ih (step g a))

theorem framedModify (g : Graph) (i : NodeId) (f : Node → Node) : g.Framed (g.modify i f) :=
  ⟨rfl,g.sizeModify i f⟩

theorem framedModifyAll (g : Graph) (is : List NodeId) (f : Node → Node) :
    g.Framed (g.modifyAll is f) := framedFold (fun g i => g.framedModify i f) is g

theorem framedAddEdge (g : Graph) (a b : NodeId) : g.Framed (g.addEdge a b) :=
  (framedModify ..).trans (framedModify ..)

theorem framedAddCatchEdge (g : Graph) (a b : NodeId) : g.Framed (g.addCatchEdge a b) :=
  (framedModify ..).trans (framedModify ..)

theorem sizeModifyAll (g : Graph) (is : List NodeId) (f : Node → Node) :
    (g.modifyAll is f).store.size = g.store.size := (g.framedModifyAll is f).size

theorem nodeModifyAll {f : Node → Node} (once : is.Nodup) (inside : ∀ i ∈ is, i < g.store.size)
    (k : NodeId) : (g.modifyAll is f).node k = if k ∈ is then f (g.node k) else g.node k := by
  induction is generalizing g with
  | nil => simp [modifyAll]
  | cons i is ih =>
    obtain ⟨fresh,once⟩ := List.nodup_cons.mp once
    rw [modifyAll,List.foldl_cons,← modifyAll,
      ih once fun t member => (g.sizeModify i f).symm ▸ inside t (List.mem_cons_of_mem i member),
      nodeModified i k (inside i (List.mem_cons_self ..))]
    by_cases here : k = i
    · subst here
      simp [fresh]
    · simp [here]

def takeEdges (g : Graph) (i j : NodeId) (ts : List NodeId) : Graph :=
  ts.foldl (fun g t => (g.modify t fun n => { n with preds := without j n.preds }).addEdge i t) g

def takeCatchEdges (g : Graph) (i j : NodeId) (ts : List NodeId) : Graph :=
  ts.foldl (fun g t =>
    (g.modify t fun n => { n with catchPreds := without j n.catchPreds }).addCatchEdge i t) g

theorem nodeTakeEdges (once : ts.Nodup) (source : i < g.store.size) (inside : ∀ t ∈ ts, t < g.store.size)
    (k : NodeId) : (g.takeEdges i j ts).node k =
      { g.node k with
        succs := if k = i then insertAll ts (g.node k).succs else (g.node k).succs
        preds := if k ∈ ts then insertOnce i (without j (g.node k).preds) else (g.node k).preds } := by
  induction ts generalizing g with
  | nil => simp [takeEdges,insertAll]
  | cons t ts ih =>
    obtain ⟨fresh,once⟩ := List.nodup_cons.mp once
    have target := inside t (List.mem_cons_self ..)
    obtain ⟨h,step⟩ : ∃ h, (g.modify t fun n => { n with preds := without j n.preds }).addEdge i t = h :=
      ⟨_,rfl⟩
    have size : h.store.size = g.store.size := by
      rw [← step,(alikeAddEdge _ i t).size,sizeModify]
    have node : h.node k = { g.node k with
        succs := if k = i then insertOnce t (g.node k).succs else (g.node k).succs
        preds := if k = t then insertOnce i (without j (g.node k).preds) else (g.node k).preds } := by
      rw [← step,nodeAddEdge (by simpa using source) (by simpa using target),nodeModified t k target]
      split <;> rfl
    rw [takeEdges,List.foldl_cons,step,← takeEdges,ih once (size ▸ source)
      fun u member => size ▸ inside u (List.mem_cons_of_mem t member),node]
    by_cases here : k = t
    · subst here
      simp only [if_neg fresh,List.mem_cons,true_or,if_true]
      split <;> rfl
    · simp only [List.mem_cons,here,false_or,if_false]
      split <;> rfl

theorem nodeTakeCatchEdges (once : ts.Nodup) (source : i < g.store.size)
    (inside : ∀ t ∈ ts, t < g.store.size) (k : NodeId) : (g.takeCatchEdges i j ts).node k =
      { g.node k with
        catchSuccs := if k = i then insertAll ts (g.node k).catchSuccs else (g.node k).catchSuccs
        catchPreds := if k ∈ ts then insertOnce i (without j (g.node k).catchPreds)
          else (g.node k).catchPreds } := by
  induction ts generalizing g with
  | nil => simp [takeCatchEdges,insertAll]
  | cons t ts ih =>
    obtain ⟨fresh,once⟩ := List.nodup_cons.mp once
    have target := inside t (List.mem_cons_self ..)
    obtain ⟨h,step⟩ : ∃ h,
        (g.modify t fun n => { n with catchPreds := without j n.catchPreds }).addCatchEdge i t = h :=
      ⟨_,rfl⟩
    have size : h.store.size = g.store.size := by
      rw [← step,(alikeAddCatchEdge _ i t).size,sizeModify]
    have node : h.node k = { g.node k with
        catchSuccs := if k = i then insertOnce t (g.node k).catchSuccs else (g.node k).catchSuccs
        catchPreds := if k = t then insertOnce i (without j (g.node k).catchPreds)
          else (g.node k).catchPreds } := by
      rw [← step,nodeAddCatchEdge (by simpa using source) (by simpa using target),
        nodeModified t k target]
      split <;> rfl
    rw [takeCatchEdges,List.foldl_cons,step,← takeCatchEdges,ih once (size ▸ source)
      fun u member => size ▸ inside u (List.mem_cons_of_mem t member),node]
    by_cases here : k = t
    · subst here
      simp only [if_neg fresh,List.mem_cons,true_or,if_true]
      split <;> rfl
    · simp only [List.mem_cons,here,false_or,if_false]
      split <;> rfl

theorem framedTakeEdges (g : Graph) (i j : NodeId) (ts : List NodeId) :
    g.Framed (g.takeEdges i j ts) :=
  framedFold (fun g t => (g.framedModify t _).trans (framedAddEdge _ i t)) ts g

theorem framedTakeCatchEdges (g : Graph) (i j : NodeId) (ts : List NodeId) :
    g.Framed (g.takeCatchEdges i j ts) :=
  framedFold (fun g t => (g.framedModify t _).trans (framedAddCatchEdge _ i t)) ts g

theorem framedMerge (g : Graph) (i j : NodeId) :
    Framed { g with nodes := without j g.nodes } (g.merge i j) := by
  have parts : ∀ {h : Graph}, g.Framed h →
      Framed { g with nodes := without j g.nodes } { h with nodes := without j h.nodes } := by
    intro h framed
    refine ⟨?_,framed.size⟩
    rw [framed.rest]
  exact parts ((g.framedModify i _).trans ((framedTakeEdges _ i j _).trans
    ((framedTakeCatchEdges _ i j _).trans (framedModify _ j _))))

/-- Edge lists of the graph lead inside the store and list every node once. -/
structure Plain (g : Graph) (n : Node) : Prop where
  succs : n.succs.Nodup ∧ ∀ t ∈ n.succs, t < g.store.size
  preds : n.preds.Nodup ∧ ∀ t ∈ n.preds, t < g.store.size
  catchSuccs : n.catchSuccs.Nodup ∧ ∀ t ∈ n.catchSuccs, t < g.store.size
  catchPreds : n.catchPreds.Nodup ∧ ∀ t ∈ n.catchPreds, t < g.store.size

theorem nodeMerge (plain : g.Plain (g.node j)) (left : i < g.store.size) (right : j < g.store.size)
    (apart : i ≠ j) (k : NodeId) (other : k ≠ j) : (g.merge i j).node k =
      { g.node k with
        stmts := if k = i then (g.node i).stmts ++ (g.node j).stmts else (g.node k).stmts
        kind := if k = i then (g.node j).kind else (g.node k).kind
        succs := if k = i then (g.node j).succs else (g.node k).succs
        preds := if k ∈ (g.node j).succs then insertOnce i (without j (g.node k).preds)
          else (g.node k).preds
        catchSuccs := if k = i then insertAll (g.node j).catchSuccs (g.node i).catchSuccs
          else (g.node k).catchSuccs
        catchPreds := if k ∈ (g.node j).catchSuccs then insertOnce i (without j (g.node k).catchPreds)
          else (g.node k).catchPreds } := by
  obtain ⟨g₁,first⟩ : ∃ g₁, g.modify i (fun n => { n with
      stmts := n.stmts ++ (g.node j).stmts, kind := (g.node j).kind, succs := [] }) = g₁ := ⟨_,rfl⟩
  have size₁ : g₁.store.size = g.store.size := first ▸ g.sizeModify i _
  have size₂ : (g₁.takeEdges i j (g.node j).succs).store.size = g.store.size :=
    (framedTakeEdges ..).size.trans size₁
  have size₃ : ((g₁.takeEdges i j (g.node j).succs).takeCatchEdges i j (g.node j).catchSuccs).store.size =
      g.store.size := (framedTakeCatchEdges ..).size.trans size₂
  have unfolded : (g.merge i j).node k =
      (((g₁.takeEdges i j (g.node j).succs).takeCatchEdges i j (g.node j).catchSuccs).modify j
        fun n => { n with succs := [], catchSuccs := [], preds := [] }).node k := by
    rw [← first]
    rfl
  rw [unfolded,nodeModified j k (size₃ ▸ right),if_neg other,
    nodeTakeCatchEdges plain.catchSuccs.1 (size₂ ▸ left) (size₂ ▸ plain.catchSuccs.2),
    nodeTakeEdges plain.succs.1 (size₁ ▸ left) (size₁ ▸ plain.succs.2),← first,nodeModified i k left]
  by_cases here : k = i
  · subst here
    simp only [if_true,insertAllNew plain.succs.1]
  · simp only [if_neg here]

def leadAll (g : Graph) (i j : NodeId) (ps : List NodeId) : Graph :=
  ps.foldl (fun g p => (g.modify p (Node.retarget i j)).modify j fun s =>
    { s with preds := insertOnce p s.preds }) g

theorem framedLeadAll (g : Graph) (i j : NodeId) (ps : List NodeId) : g.Framed (g.leadAll i j ps) :=
  framedFold (fun g p => (g.framedModify p _).trans (framedModify _ j _)) ps g

theorem framedBypass (g : Graph) (i j : NodeId) :
    Framed { g with nodes := without i g.nodes, entry := g.entry.map fun e => if e = i then j else e }
      (g.bypass i j) := by
  have parts : ∀ {h : Graph}, g.Framed h → Framed { g with
      nodes := without i g.nodes, entry := g.entry.map fun e => if e = i then j else e }
      { ({ h with entry := h.entry.map fun e => if e = i then j else e } : Graph).modify i fun n =>
        { n with preds := [], succs := [], catchSuccs := [] } with nodes := without i h.nodes } := by
    intro h framed
    refine ⟨?_,(sizeModify ..).trans framed.size⟩
    rw [framed.rest]
    rfl
  exact parts ((g.framedModify j _).trans ((framedLeadAll _ i j _).trans (framedModifyAll _ _ _)))

theorem nodeLeadAll {ps : List NodeId} (once : ps.Nodup) (target : j < g.store.size)
    (inside : ∀ p ∈ ps, p < g.store.size) (k : NodeId) : (g.leadAll i j ps).node k =
      { (if k ∈ ps then (g.node k).retarget i j else g.node k) with
        preds := if k = j then insertAll ps (g.node k).preds else (g.node k).preds } := by
  induction ps generalizing g with
  | nil => simp [leadAll,insertAll]
  | cons p ps ih =>
    obtain ⟨fresh,once⟩ := List.nodup_cons.mp once
    have source := inside p (List.mem_cons_self ..)
    obtain ⟨h,step⟩ : ∃ h, ((g.modify p (Node.retarget i j)).modify j fun s =>
        { s with preds := insertOnce p s.preds }) = h := ⟨_,rfl⟩
    have size : h.store.size = g.store.size := by rw [← step,sizeModify,sizeModify]
    have node : h.node k = { (if k = p then (g.node k).retarget i j else g.node k) with
        preds := if k = j then insertOnce p (g.node k).preds else (g.node k).preds } := by
      rw [← step,nodeModified j k (by simpa using target),nodeModified p k source]
      split <;> split <;> rfl
    rw [leadAll,List.foldl_cons,step,← leadAll,ih once (size ▸ target)
      fun q member => size ▸ inside q (List.mem_cons_of_mem p member),node]
    by_cases here : k = p
    · subst here
      simp only [if_neg fresh,if_true,List.mem_cons,true_or]
      split <;> rfl
    · simp only [List.mem_cons,here,false_or,if_false]
      split <;> split <;> rfl

theorem nodeBypass (plain : g.Plain (g.node i)) (left : i < g.store.size) (right : j < g.store.size)
    (k : NodeId) (other : k ≠ i) : (g.bypass i j).node k =
      { (if k ∈ (g.node i).preds then (g.node k).retarget i j else g.node k) with
        preds := if k = j then insertAll (g.node i).preds (without i (g.node j).preds)
          else (g.node k).preds
        catchPreds := if k ∈ (g.node i).catchSuccs then without i (g.node k).catchPreds
          else (g.node k).catchPreds } := by
  obtain ⟨g₁,first⟩ : ∃ g₁, g.modify j (fun s => { s with preds := without i s.preds }) = g₁ := ⟨_,rfl⟩
  have size₁ : g₁.store.size = g.store.size := first ▸ g.sizeModify j _
  have size₂ : (g₁.leadAll i j (g.node i).preds).store.size = g.store.size :=
    (framedLeadAll ..).size.trans size₁
  obtain ⟨g₃,third⟩ : ∃ g₃, (g₁.leadAll i j (g.node i).preds).modifyAll (g.node i).catchSuccs
      (fun h => { h with catchPreds := without i h.catchPreds }) = g₃ := ⟨_,rfl⟩
  have size₃ : g₃.store.size = g.store.size := third ▸ (sizeModifyAll _ _ _).trans size₂
  have unfolded : (g.bypass i j).node k =
      (g₃.modify i fun n => { n with preds := [], succs := [], catchSuccs := [] }).node k := by
    rw [← third,← first]
    rfl
  rw [unfolded,nodeModified i k (size₃ ▸ left),if_neg other,← third,
    nodeModifyAll plain.catchSuccs.1 (size₂ ▸ plain.catchSuccs.2),
    nodeLeadAll plain.preds.1 (size₁ ▸ right) (size₁ ▸ plain.preds.2),← first,nodeModified j k right]
  by_cases here : k = j
  · subst here
    simp only [if_true]
    split <;> split <;> rfl
  · simp only [if_neg here]
    split <;> split <;> rfl

theorem eraseDupsNodup (is : List NodeId) : is.eraseDups.Nodup := by
  match is with
  | [] => exact List.nodup_nil
  | i :: is =>
    rw [List.eraseDups_cons]
    refine List.nodup_cons.mpr ⟨fun again => ?_,eraseDupsNodup _⟩
    simpa using List.mem_eraseDups.mp again
termination_by is.length
decreasing_by exact Nat.lt_succ_of_le (List.length_filter_le ..)

def addCatchEdges (g : Graph) (a : NodeId) (hs : List NodeId) : Graph :=
  hs.foldl (fun g h => g.addCatchEdge a h) g

theorem framedAddCatchEdges (g : Graph) (a : NodeId) (hs : List NodeId) :
    g.Framed (g.addCatchEdges a hs) := framedFold (fun g h => g.framedAddCatchEdge a h) hs g

theorem nodeAddCatchEdges {hs : List NodeId} (source : i < g.store.size)
    (inside : ∀ h ∈ hs, h < g.store.size) (k : NodeId) : (g.addCatchEdges i hs).node k =
      { g.node k with
        catchSuccs := if k = i then insertAll hs (g.node k).catchSuccs else (g.node k).catchSuccs
        catchPreds := if k ∈ hs then insertOnce i (g.node k).catchPreds else (g.node k).catchPreds } := by
  induction hs generalizing g with
  | nil => simp [addCatchEdges,insertAll]
  | cons t hs ih =>
    have target := inside t (List.mem_cons_self ..)
    have size := (g.alikeAddCatchEdge i t).size
    have again : ∀ is : List NodeId, insertOnce i (insertOnce i is) = insertOnce i is := fun is => by
      rw [insertOnce,if_pos (by simp [insertOnceMem])]
    rw [addCatchEdges,List.foldl_cons,← addCatchEdges,ih (size ▸ source)
      fun u member => size ▸ inside u (List.mem_cons_of_mem t member),nodeAddCatchEdge source target]
    by_cases here : k = t
    · subst here
      simp only [List.mem_cons,true_or,if_true,again,ite_self]
      split <;> rfl
    · simp only [List.mem_cons,here,false_or,if_false]
      split <;> rfl

end Graph

end RegCode
