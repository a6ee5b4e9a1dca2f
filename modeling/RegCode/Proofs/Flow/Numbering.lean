import RegCode.Proofs.Flow.Coherence
import RegCode.Proofs.Flow.Search

/-! Numbering drops what the entry does not lead to, and with it edges into the nodes that stay. -/
namespace RegCode

namespace Node

def cut (gone : List NodeId) (n : Node) : Node :=
  let stays (i : NodeId) : Bool := !gone.contains i
  { n with
    succs := n.succs.filter stays, preds := n.preds.filter stays
    catchSuccs := n.catchSuccs.filter stays, catchPreds := n.catchPreds.filter stays }

theorem cutNone (n : Node) : n.cut [] = n := by simp [cut]

theorem cutAppend (n : Node) (first second : List NodeId) :
    (n.cut first).cut second = n.cut (first ++ second) := by
  have both : ∀ is : List NodeId, (is.filter fun k => !first.contains k).filter (fun k => !second.contains k) =
      is.filter fun k => !(first ++ second).contains k := by
    intro is
    rw [List.filter_filter]
    refine List.filter_congr fun k _ => ?_
    rw [Bool.eq_iff_iff]
    simp [and_comm]
  simp only [cut,both]

end Node

namespace Graph

variable {g h : Graph} {i e : NodeId} {gone order : List NodeId}

theorem withoutCut (i : NodeId) (is : List NodeId) : without i is = is.filter fun k => !([i].contains k) := by
  refine List.filter_congr fun k _ => ?_
  rw [Bool.eq_iff_iff]
  simp

/-- Each edge between the nodes stands at both of its ends, any number of times. -/
structure Mirrored (g : Graph) : Prop where
  inStore : ∀ i ∈ g.nodes, i < g.store.size
  succs : ∀ i ∈ g.nodes, ∀ j ∈ (g.node i).succs, j ∈ g.nodes ∧ i ∈ (g.node j).preds
  preds : ∀ j ∈ g.nodes, ∀ i ∈ (g.node j).preds, i ∈ g.nodes ∧ j ∈ (g.node i).succs
  catchSuccs : ∀ i ∈ g.nodes, ∀ j ∈ (g.node i).catchSuccs, j ∈ g.nodes ∧ i ∈ (g.node j).catchPreds
  catchPreds : ∀ j ∈ g.nodes, ∀ i ∈ (g.node j).catchPreds, i ∈ g.nodes ∧ j ∈ (g.node i).catchSuccs

theorem Netted.mirrored (netted : g.Netted) : g.Mirrored :=
  ⟨netted.inStore,netted.normal.forth,netted.normal.back,netted.raised.forth,netted.raised.back⟩

theorem framedRemoveNode (g : Graph) (i : NodeId) :
    Framed { g with nodes := without i g.nodes } (g.removeNode i) :=
  (framedModifyAll ..).trans ((framedModifyAll ..).trans ((framedModifyAll ..).trans (framedModifyAll ..)))

theorem nodeModifyAgain {f : Node → Node} (again : ∀ n, f (f n) = f n) (blank : f {} = {}) (is : List NodeId)
    (k : NodeId) : (g.modifyAll is f).node k = if k ∈ is then f (g.node k) else g.node k := by
  induction is generalizing g with
  | nil => rw [modifyAll,List.foldl_nil,if_neg List.not_mem_nil]
  | cons i is ih =>
    have first : (g.modify i f).node k = if k = i then f (g.node k) else g.node k := by
      by_cases inside : i < g.store.size
      · exact nodeModified i k inside
      · rw [nodeModify,if_neg (by rintro ⟨rfl,below⟩; exact inside below)]
        split
        · rename_i here
          rw [here,node,Array.getElem?_eq_none (Nat.le_of_not_lt inside),Option.getD_none,blank]
        · rfl
    rw [modifyAll,List.foldl_cons,← modifyAll,ih,first]
    by_cases here : k = i <;> by_cases later : k ∈ is <;> simp [here,later,again]

theorem nodeRemoveNode (g : Graph) (i k : NodeId) : (g.removeNode i).node k =
    { g.node k with
      preds := if k ∈ (g.node i).succs then without i (g.node k).preds else (g.node k).preds
      catchPreds := if k ∈ (g.node i).catchSuccs then without i (g.node k).catchPreds else (g.node k).catchPreds
      succs := if k ∈ (g.node i).preds then without i (g.node k).succs else (g.node k).succs
      catchSuccs := if k ∈ (g.node i).catchPreds then without i (g.node k).catchSuccs
        else (g.node k).catchSuccs } := by
  have twice : ∀ is : List NodeId, without i (without i is) = without i is := fun is => by simp [without]
  unfold removeNode
  dsimp only
  rw [nodeModifyAgain (fun n => by rw [twice]) rfl,nodeModifyAgain (fun n => by rw [twice]) rfl,
    nodeModifyAgain (fun n => by rw [twice]) rfl,nodeModifyAgain (fun n => by rw [twice]) rfl]
  split <;> split <;> split <;> split <;> rfl

def removeAll (g : Graph) (gone : List NodeId) : Graph :=
  gone.foldl (fun g i => (g.modify i fun n => { n with num := -1 }).removeNode i) g

theorem removedAll (mirrored : g.Mirrored) (member : ∀ i ∈ gone, i ∈ g.nodes) :
    (g.removeAll gone) = { g with nodes := (g.removeAll gone).nodes, store := (g.removeAll gone).store } ∧
      (g.removeAll gone).store.size = g.store.size ∧
      (∀ k, k ∈ (g.removeAll gone).nodes ↔ k ∈ g.nodes ∧ k ∉ gone) ∧
      ∀ k ∈ (g.removeAll gone).nodes, (g.removeAll gone).node k = (g.node k).cut gone := by
  induction gone using List.reverseRecOn with
  | nil => exact ⟨rfl,rfl,fun k => by simp [removeAll],fun k _ => (Node.cutNone _).symm⟩
  | append_singleton gone i ih =>
    obtain ⟨rest,size,nodes,node⟩ := ih fun k listed => member k (List.mem_append_left _ listed)
    obtain ⟨h,before⟩ : ∃ h, g.removeAll gone = h := ⟨_,rfl⟩
    rw [before] at rest size nodes node
    obtain ⟨h₁,first⟩ : ∃ h₁, h.modify i (fun n => { n with num := -1 }) = h₁ := ⟨_,rfl⟩
    have edges : ∀ k, (h₁.node k).succs = (h.node k).succs ∧ (h₁.node k).preds = (h.node k).preds ∧
        (h₁.node k).catchSuccs = (h.node k).catchSuccs ∧
        (h₁.node k).catchPreds = (h.node k).catchPreds := fun k => by
      rw [← first,nodeModify]
      split <;> exact ⟨rfl,rfl,rfl,rfl⟩
    have unfolded : g.removeAll (gone ++ [i]) = h₁.removeNode i := by
      rw [← first,← before,removeAll,List.foldl_append]
      rfl
    have framed := h₁.framedRemoveNode i
    have nodes₁ : ∀ k, k ∈ (h₁.removeNode i).nodes ↔ k ∈ h.nodes ∧ k ≠ i := fun k => by
      rw [framed.rest,← first]
      exact withoutMem
    rw [unfolded]
    refine ⟨?_,?_,fun k => ?_,fun k listed => ?_⟩
    · rw [framed.rest,← first,rest]
      rfl
    · rw [framed.size,← first,← size]
      exact h.sizeModify i _
    · rw [nodes₁,nodes,List.mem_append,List.mem_singleton,not_or,and_assoc]
    · obtain ⟨stays,other⟩ := (nodes₁ k).mp listed
      obtain ⟨old,kept⟩ := (nodes k).mp stays
      have same : h₁.node k = h.node k := by rw [← first,nodeModify,if_neg fun both => other both.1.symm]
      -- Edges that are left stand at the node that is taken out too, unless it was taken out before.
      have drop : ∀ {is l : List NodeId} {c : Prop} [Decidable c], is = l.filter (fun k => !gone.contains k) →
          (i ∈ l → i ∉ gone → c) → (if c then without i is else is) = is.filter fun k => !([i].contains k) := by
        intro is l c _ left only
        split
        · exact withoutCut i is
        · rename_i absent
          rw [← withoutCut,withoutOther]
          intro there
          rw [left,List.mem_filter] at there
          exact absent (only there.1 (by simpa using there.2))
      have last : i ∉ gone → h₁.node i = { (g.node i).cut gone with num := (h₁.node i).num } := fun fresh => by
        rw [← first,nodeModify,← node i ((nodes i).mpr ⟨member i (by simp),fresh⟩)]
        split <;> rfl
      have stayed : ∀ {is : List NodeId}, k ∈ is → k ∈ is.filter fun j => !gone.contains j := fun there =>
        List.mem_filter.mpr ⟨there,by simpa using kept⟩
      have preds := drop (l := (g.node k).preds) (c := k ∈ (h₁.node i).succs) rfl fun comes fresh => by
        rw [last fresh]
        exact stayed (mirrored.preds k old i comes).2
      have catchPreds := drop (l := (g.node k).catchPreds) (c := k ∈ (h₁.node i).catchSuccs) rfl
        fun comes fresh => by
          rw [last fresh]
          exact stayed (mirrored.catchPreds k old i comes).2
      have succs := drop (l := (g.node k).succs) (c := k ∈ (h₁.node i).preds) rfl fun leads fresh => by
        rw [last fresh]
        exact stayed (mirrored.succs k old i leads).2
      have catchSuccs := drop (l := (g.node k).catchSuccs) (c := k ∈ (h₁.node i).catchPreds) rfl
        fun leads fresh => by
          rw [last fresh]
          exact stayed (mirrored.catchSuccs k old i leads).2
      rw [nodeRemoveNode,same,node k stays,← Node.cutAppend]
      simp only [Node.cut,preds,catchPreds,succs,catchSuccs]

theorem framedNumberFrom (g : Graph) (k : Nat) (is : List NodeId) : g.Framed (g.numberFrom k is) := by
  induction is generalizing g k with
  | nil => exact .refl g
  | cons i is ih => exact (g.framedModify i _).trans (ih _ _)

theorem nodeNumberFrom (g : Graph) (k : Nat) (is : List NodeId) (i : NodeId) :
    ∃ num, (g.numberFrom k is).node i = { g.node i with num } := by
  induction is generalizing g k with
  | nil => exact ⟨(g.node i).num,rfl⟩
  | cons j is ih =>
    obtain ⟨num,same⟩ := ih (g.modify j fun n => { n with num := k }) (k + 1)
    refine ⟨num,?_⟩
    rw [numberFrom,same,nodeModify]
    split <;> rfl

theorem numNumberFrom (g : Graph) (k : Nat) (is : List NodeId) (inside : ∀ i ∈ is, i < g.store.size)
    (once : is.Nodup) : (∀ i ∉ is, ((g.numberFrom k is).node i).num = (g.node i).num) ∧
      ∀ (j : Nat) i, is[j]? = some i → ((g.numberFrom k is).node i).num = k + j := by
  induction is generalizing g k with
  | nil => exact ⟨fun _ _ => rfl,fun j i here => by simp at here⟩
  | cons n is ih =>
    obtain ⟨fresh,once⟩ := List.nodup_cons.mp once
    have bound := inside n (List.mem_cons_self ..)
    obtain ⟨others,placed⟩ := ih (g.modify n fun m => { m with num := k }) (k + 1)
      (fun i member => (g.sizeModify n _).symm ▸ inside i (List.mem_cons_of_mem n member)) once
    refine ⟨fun i outside => ?_,fun j i here => ?_⟩
    · obtain ⟨other,outside⟩ := not_or.mp (List.mem_cons.not.mp outside)
      rw [numberFrom,others i outside,nodeModified n i bound,if_neg other]
    · cases j with
      | zero =>
        cases Option.some.inj here
        rw [numberFrom,others n fresh,nodeModified n n bound,if_pos rfl]
        simp
      | succ j =>
        rw [numberFrom,placed j i here]
        push_cast
        omega

theorem renumberNumbered (entry : g.entry = some e) : g.renumber =
    { (g.removeAll (g.nodes.filter fun i => !g.reversePostorder.contains i)).numberFrom 0 g.reversePostorder with
      rpo := g.reversePostorder, nodes := g.reversePostorder } := by
  unfold renumber
  rw [if_neg (by simp [isEmpty,entry])]
  rfl

structure Numbered (g h : Graph) : Prop where
  rest : h = { g with store := h.store, nodes := h.nodes, rpo := h.nodes }
  size : h.store.size = g.store.size
  once : h.nodes.Nodup
  old : ∀ k ∈ h.nodes, k ∈ g.nodes
  reached : ∀ e, g.entry = some e → ∀ k, k ∈ h.nodes ↔ g.Trail (fun _ => True) e k
  node : ∀ k ∈ h.nodes, ∃ num, h.node k =
    { g.node k with
      num
      preds := (g.node k).preds.filter (h.nodes.contains ·)
      catchPreds := (g.node k).catchPreds.filter (h.nodes.contains ·) }

theorem Mirrored.numbered (mirrored : g.Mirrored) (entry : g.entry = some e) (member : e ∈ g.nodes) :
    g.Numbered g.renumber := by
  have closed : ∀ i, i ∈ g.nodes → ∀ j ∈ (g.node i).allSuccs, j ∈ g.nodes := by
    intro i here j out
    rcases List.mem_append.mp out with out | out
    · exact (mirrored.succs i here j out).1
    · exact (mirrored.catchSuccs i here j out).1
  obtain ⟨once,reached⟩ := reversePostorderWithin closed mirrored.inStore entry member
  have old : ∀ k ∈ g.reversePostorder, k ∈ g.nodes := fun k listed => by
    have way := (reached k).mp listed
    induction way with
    | stay fits => exact member
    | on way out fits ih => exact closed _ (ih ((reached _).mpr way)) _ out
  have leads : ∀ i ∈ g.reversePostorder, ∀ j ∈ (g.node i).allSuccs, j ∈ g.reversePostorder :=
    fun i listed j out => (reached j).mpr (.on ((reached i).mp listed) out trivial)
  obtain ⟨gone,cuts⟩ : ∃ gone, (g.nodes.filter fun i => !g.reversePostorder.contains i) = gone := ⟨_,rfl⟩
  have goneIff : ∀ k ∈ g.nodes, (!gone.contains k) = g.reversePostorder.contains k := fun k here => by
    rw [← cuts,Bool.eq_iff_iff]
    simp [here]
  obtain ⟨rest,size,nodes,node⟩ := removedAll mirrored
    fun i (listed : i ∈ gone) => (List.mem_filter.mp (cuts ▸ listed)).1
  have renumbered := cuts ▸ renumberNumbered entry
  have framed := (g.removeAll gone).framedNumberFrom 0 g.reversePostorder
  have nodes_ := nodesRenumber (g := g) (by simp [entry])
  refine ⟨?_,?_,nodes_ ▸ once,nodes_ ▸ old,fun e' first k => ?_,fun k listed => ?_⟩
  · rw [renumbered,framed.rest,rest]
  · rw [renumbered]
    exact framed.size.trans size
  · rw [nodes_,Option.some.inj (first.symm.trans entry)]
    exact reached k
  · rw [nodes_] at listed ⊢
    have here := old k listed
    have stays : k ∈ (g.removeAll gone).nodes := by
      refine (nodes k).mpr ⟨here,fun member => ?_⟩
      have := goneIff k here
      simp [listed,member] at this
    obtain ⟨num,same⟩ := nodeNumberFrom (g.removeAll gone) 0 g.reversePostorder k
    refine ⟨num,?_⟩
    have whole : g.renumber.node k = ((g.removeAll gone).numberFrom 0 g.reversePostorder).node k := by
      rw [renumbered]
      rfl
    have all : ∀ is : List NodeId, (∀ j ∈ is, j ∈ g.reversePostorder) →
        is.filter (fun j => !gone.contains j) = is := fun is inside =>
      List.filter_eq_self.mpr fun j listed => by
        rw [goneIff j (old j (inside j listed))]
        simpa using inside j listed
    have some_ : ∀ is : List NodeId, (∀ j ∈ is, j ∈ g.nodes) →
        is.filter (fun j => !gone.contains j) = is.filter (g.reversePostorder.contains ·) :=
      fun is inside => List.filter_congr fun j listed => goneIff j (inside j listed)
    rw [whole,same,node k stays,Node.cut]
    simp only [all _ fun j out => leads k listed j (List.mem_append_left _ out),
      all _ fun j out => leads k listed j (List.mem_append_right _ out),
      some_ _ fun j comes => (mirrored.preds k here j comes).1,
      some_ _ fun j comes => (mirrored.catchPreds k here j comes).1]

theorem Netted.numbered (netted : g.Netted) (entry : g.entry = some e) (member : e ∈ g.nodes) :
    g.Numbered g.renumber := netted.mirrored.numbered entry member

theorem Coherent.numbered (coherent : g.Coherent) (entry : g.entry = some e) : g.Numbered g.renumber :=
  coherent.toNetted.numbered entry (coherent.entry e entry)

def Reachable (g : Graph) : Prop := ∀ k ∈ g.nodes, ∃ e, g.entry = some e ∧ g.Trail (fun _ => True) e k

section
variable (coherent : g.Coherent) (entry : g.entry = some e) (numbered : g.Numbered h)
include entry numbered

theorem Numbered.closed {a b : NodeId} (left : a ∈ h.nodes) (out : b ∈ (g.node a).allSuccs) : b ∈ h.nodes :=
  (numbered.reached e entry b).mpr (.on ((numbered.reached e entry a).mp left) out trivial)

omit entry in
theorem Numbered.succs {a : NodeId} (left : a ∈ h.nodes) : (h.node a).succs = (g.node a).succs ∧
    (h.node a).catchSuccs = (g.node a).catchSuccs := by
  obtain ⟨num,same⟩ := numbered.node a left
  rw [same]
  exact ⟨rfl,rfl⟩

theorem Numbered.mirrored (mirrored : g.Mirrored) : h.Mirrored := by
  refine ⟨fun k here => numbered.size ▸ mirrored.inStore k (numbered.old k here),fun i left j out => ?_,
    fun j right i comes => ?_,fun i left j out => ?_,fun j right i comes => ?_⟩
  · rw [(numbered.succs left).1] at out
    have right := numbered.closed entry left (List.mem_append_left _ out)
    obtain ⟨num,same⟩ := numbered.node j right
    rw [same]
    exact ⟨right,List.mem_filter.mpr ⟨(mirrored.succs i (numbered.old i left) j out).2,by simpa using left⟩⟩
  · obtain ⟨num,same⟩ := numbered.node j right
    rw [same] at comes
    obtain ⟨comes,left⟩ := List.mem_filter.mp comes
    have left := List.contains_iff_mem.mp left
    rw [(numbered.succs left).1]
    exact ⟨left,(mirrored.preds j (numbered.old j right) i comes).2⟩
  · rw [(numbered.succs left).2] at out
    have right := numbered.closed entry left (List.mem_append_right _ out)
    obtain ⟨num,same⟩ := numbered.node j right
    rw [same]
    exact ⟨right,List.mem_filter.mpr ⟨(mirrored.catchSuccs i (numbered.old i left) j out).2,by simpa using left⟩⟩
  · obtain ⟨num,same⟩ := numbered.node j right
    rw [same] at comes
    obtain ⟨comes,left⟩ := List.mem_filter.mp comes
    have left := List.contains_iff_mem.mp left
    rw [(numbered.succs left).2]
    exact ⟨left,(mirrored.catchPreds j (numbered.old j right) i comes).2⟩

theorem Numbered.netted (netted : g.Netted) : h.Netted := by
  have preds : ∀ a b, b ∈ h.nodes → (a ∈ (h.node b).preds ↔ a ∈ (g.node b).preds ∧ a ∈ h.nodes) := by
    intro a b right
    obtain ⟨num,same⟩ := numbered.node b right
    simp [same]
  have catchPreds : ∀ a b, b ∈ h.nodes →
      (a ∈ (h.node b).catchPreds ↔ a ∈ (g.node b).catchPreds ∧ a ∈ h.nodes) := by
    intro a b right
    obtain ⟨num,same⟩ := numbered.node b right
    simp [same]
  refine ⟨fun k here => numbered.size ▸ netted.inStore k (numbered.old k here),numbered.once,
    .ofEdges (fun a b => b ∈ (g.node a).succs) (fun a left b => ?_) (fun b right a => ?_)
      (fun a left b out => numbered.closed entry left (List.mem_append_left _ out)) (fun a left => ?_)
      fun b right => ?_,
    .ofEdges (fun a b => b ∈ (g.node a).catchSuccs) (fun a left b => ?_) (fun b right a => ?_)
      (fun a left b out => numbered.closed entry left (List.mem_append_right _ out)) (fun a left => ?_)
      fun b right => ?_⟩
  · rw [(numbered.succs left).1]
  · rw [preds a b right]
    exact and_congr_left fun left => (netted.normal.iff (numbered.old a left) (numbered.old b right)).symm
  · rw [(numbered.succs left).1]
    exact netted.normal.forthOnce a (numbered.old a left)
  · obtain ⟨num,same⟩ := numbered.node b right
    rw [same]
    exact (netted.normal.backOnce b (numbered.old b right)).filter _
  · rw [(numbered.succs left).2]
  · rw [catchPreds a b right]
    exact and_congr_left fun left => (netted.raised.iff (numbered.old a left) (numbered.old b right)).symm
  · rw [(numbered.succs left).2]
    exact netted.raised.forthOnce a (numbered.old a left)
  · obtain ⟨num,same⟩ := numbered.node b right
    rw [same]
    exact (netted.raised.backOnce b (numbered.old b right)).filter _

include coherent in
theorem coherentNumbered : h.Coherent := by
  have netted := numbered.netted entry coherent.toNetted
  have same : h.entry = g.entry := by rw [numbered.rest]
  refine { netted with
    entry := fun e' here => (numbered.reached e entry e').mpr ?_
    empty := fun none => ?_
    formed := fun k here => ?_
    marked := fun k here t leads => ?_ }
  · rw [same,entry] at here
    rw [Option.some.inj here]
    exact .stay trivial
  · rw [same,entry] at none
    contradiction
  · obtain ⟨num,node⟩ := numbered.node k here
    rw [node]
    exact (coherent.formed k (numbered.old k here)).congr rfl rfl rfl rfl rfl rfl
  · rw [(numbered.succs here).2] at leads
    obtain ⟨num,node⟩ := numbered.node t
      (numbered.closed entry here (List.mem_append_right _ leads))
    rw [node]
    exact coherent.marked k (numbered.old k here) t leads

theorem Numbered.reachable : h.Reachable := by
  have same : h.entry = g.entry := by rw [numbered.rest]
  intro k here
  refine ⟨e,same.trans entry,?_⟩
  have way := (numbered.reached e entry k).mp here
  induction way with
  | stay fits => exact .stay trivial
  | on way out fits ih =>
    have left := (numbered.reached e entry _).mpr way
    refine .on (ih left) ?_ trivial
    rw [Node.allSuccs,(numbered.succs left).1,(numbered.succs left).2]
    exact out

end

theorem coherentRenumber (coherent : g.Coherent) : g.renumber.Coherent := by
  cases entry : g.entry with
  | none =>
    rw [renumber,if_pos (by simp [isEmpty,entry])]
    exact coherent
  | some e => exact coherentNumbered coherent entry (coherent.numbered entry)

theorem reachableRenumber (coherent : g.Coherent) : g.renumber.Reachable := by
  cases entry : g.entry with
  | none =>
    rw [renumber,if_pos (by simp [isEmpty,entry])]
    intro k here
    rw [coherent.empty entry] at here
    contradiction
  | some e => exact (coherent.numbered entry).reachable entry

end Graph

end RegCode
