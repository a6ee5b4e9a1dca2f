import RegCode.Proofs.Flow.Numbering
import RegCode.Proofs.Flow.Rendering
import RegCode.Proofs.Flow.Splitting

/-! What is done to a graph once all blocks are worked off: an empty node in front of an entry that
control can come back to, parents of regions, locations of statements, and numbers of nodes. -/
namespace RegCode

namespace Graph

variable {g h : Graph}

theorem Coherent.restate (coherent : g.Coherent) (entry : h.entry = g.entry) (nodes : h.nodes = g.nodes)
    (size : h.store.size = g.store.size)
    (node : ∀ i, h.node i = { g.node i with stmts := (h.node i).stmts }) : h.Coherent where
  inStore := by
    rw [nodes,size]
    exact coherent.inStore
  once := nodes ▸ coherent.once
  normal := coherent.normal.congr nodes fun i _ => by
    rw [node]
    exact ⟨rfl,rfl⟩
  raised := coherent.raised.congr nodes fun i _ => by
    rw [node]
    exact ⟨rfl,rfl⟩
  entry := by
    rw [entry,nodes]
    exact coherent.entry
  empty := by
    rw [entry,nodes]
    exact coherent.empty
  formed i member := by
    rw [node]
    exact (coherent.formed i (nodes ▸ member)).congr rfl rfl rfl rfl rfl rfl
  marked i member t leads := by
    rw [node] at leads ⊢
    exact coherent.marked i (nodes ▸ member) t leads

end Graph

namespace Flow

variable {m : Method} {blocks met : List Block} {b : Builder} {g : Graph}

theorem addKeyTargets (key : Int) (t : NodeId) (cases : List SwitchCase) :
    (addKey key t cases).map (·.target) = Graph.insertOnce t (cases.map (·.target)) := by
  induction cases with
  | nil => rfl
  | cons c cs ih =>
    unfold addKey
    split
    · rename_i same
      rw [List.map_cons,List.map_cons,Graph.insertOnce,if_pos (by simp [same])]
    · rename_i other
      rw [List.map_cons,ih,List.map_cons]
      simp only [Graph.insertOnce,List.contains_cons,beq_false_of_ne (Ne.symm other),Bool.false_or]
      split <;> rfl

theorem casesAtTargets (place : Int → Option NodeId) (keys : List (Int × Int)) (cases : List SwitchCase) :
    (casesAt place keys cases).map (·.target) =
      Graph.insertAll (targetsAt place keys) (cases.map (·.target)) := by
  induction keys generalizing cases with
  | nil => rfl
  | cons key keys ih =>
    obtain ⟨key,offset⟩ := key
    unfold casesAt targetsAt
    rw [List.filterMap_cons]
    cases found : place offset with
    | none => exact ih cases
    | some t =>
      dsimp only
      rw [ih,addKeyTargets]
      rfl

theorem drawnFormed {place : Int → Option NodeId} {k : Block} {last : Instruction} {ss : List Stmt}
    (test : Lower.IsTest last → place last.target = place (k.fall.getD (-1)) ∨
      (place last.target).isSome ∧ (place (k.fall.getD (-1))).isSome) :
    (drawn place k last { start := k.start, stmts := ss }).Formed := by
  have exits : ∀ x : Node, x.kind ≠ .cond → x.kind ≠ .switch → x.kind ≠ .stmt → x.succs = [] → x.Formed :=
    fun x cond switch stmt none => ⟨fun h => absurd h cond,fun h => absurd h switch,fun _ => none,
      fun h => absurd h stmt⟩
  have straight : ∀ (x : Node) t, x.kind = .stmt → x.succs = [] → (x.reach t).Formed := by
    intro x t kind none
    cases t with
    | none =>
      refine ⟨fun h => ?_,fun h => ?_,fun h => ?_,fun _ => ?_⟩
      all_goals simp_all [Node.reach,NodeKind.isExit]
    | some t =>
      refine ⟨fun h => ?_,fun h => ?_,fun h => ?_,fun _ => ?_⟩
      all_goals simp_all [Node.reach,NodeKind.isExit,Graph.insertOnce]
  unfold drawn
  dsimp only
  split
  case h_1 | h_2 | h_3 => exact exits _ (by simp) (by simp) (by simp) rfl
  case h_4 | h_9 => exact straight _ _ rfl rfl
  case h_5 family | h_6 family =>
    split
    · exact straight _ _ rfl rfl
    · rename_i differ
      obtain ⟨here,there⟩ := (test (by simp [Lower.IsTest,family])).resolve_left differ
      obtain ⟨t,here⟩ := Option.isSome_iff_exists.mp here
      obtain ⟨f,there⟩ := Option.isSome_iff_exists.mp there
      rw [here,there] at differ ⊢
      have differ : t ≠ f := fun same => differ (congrArg some same)
      refine ⟨fun _ => ⟨t,f,differ,rfl,rfl,fun j => ?_⟩,fun h => ?_,fun h => ?_,fun h => ?_⟩
      case' refine_2 | refine_3 | refine_4 => contradiction
      simp [Node.reach,Graph.insertOnce,Ne.symm differ]
  case h_7 | h_8 =>
    have targets : ((casesAt place (keysOf last) []).map sortKeys).map (·.target) =
        Graph.insertAll (targetsAt place (keysOf last)) [] := by
      rw [List.map_map]
      exact casesAtTargets place (keysOf last) []
    have once := @Graph.insertAllNodup [] (targetsAt place (keysOf last)) List.nodup_nil
    cases place (k.fall.getD (-1)) with
    | none =>
      refine ⟨fun h => ?_,fun _ => ⟨targets ▸ once,fun j => ?_⟩,fun h => ?_,fun h => ?_⟩
      case' refine_1 | refine_3 | refine_4 => contradiction
      simp only [Node.fallTo,targets]
      simp
    | some f =>
      refine ⟨fun h => ?_,fun _ => ⟨targets ▸ once,fun j => ?_⟩,fun h => ?_,fun h => ?_⟩
      case' refine_1 | refine_3 | refine_4 => contradiction
      simp only [Node.fallTo,targets,Graph.insertOnceMem,Option.some.injEq]
      exact or_congr_right eq_comm

theorem Standing.sites (standing : Standing m blocks met b) :
    Sites blocks met (fun o => b.known.lookup o) where
  here o i there := (standing.known.known o i).mpr there
  nowhere o none := by
    by_contra found
    obtain ⟨i,found⟩ := Option.ne_none_iff_exists'.mp found
    obtain ⟨k,here,start⟩ := (standing.known.known o i).mp found
    exact none k (standing.known.inside k (List.mem_of_getElem? here)) start

theorem Drawn.coherent (drawn : Drawn m blocks met met.length b) (laid : Laid none [] b) :
    b.graph.Coherent := by
  have woven := drawn.standing.woven
  have renders : ∀ i ∈ b.graph.nodes, ∃ k last ss region entries,
      Renders m blocks met b.graph i k last ss region entries := by
    intro i member
    have inside : i < met.length := drawn.standing.known.size ▸ woven.mem.mp member
    obtain ⟨last,ss,region,entries,renders⟩ := drawn.built i _ inside (List.getElem?_eq_getElem inside)
    exact ⟨_,last,ss,region,entries,renders⟩
  refine ⟨⟨fun i member => woven.mem.mp member,woven.listed ▸ List.nodup_range,woven.normal,
    woven.raised⟩,fun e entry => ?_,fun none => ?_,fun i member => ?_,fun i member t leads => ?_⟩
  · cases Option.some.inj (laid.entry.symm.trans entry)
    exact woven.mem.mpr laid.first
  · rw [laid.entry] at none
    contradiction
  · obtain ⟨k,last,ss,region,entries,renders⟩ := renders i member
    have own := renders.node _ drawn.standing.sites
    have formed : (b.graph.node i).own.Formed := by
      rw [own]
      exact (drawnFormed fun test => renders.test test _ drawn.standing.sites).congr
        rfl rfl rfl rfl rfl rfl
    exact formed.congr rfl rfl rfl rfl rfl rfl
  · obtain ⟨k,last,ss,region,entries,renders⟩ := renders i member
    have own := renders.node _ drawn.standing.sites
    have catchSuccs : (b.graph.node i).catchSuccs = entries :=
      show (b.graph.node i).own.catchSuccs = entries by rw [own]
    rw [catchSuccs] at leads
    have sheltered := renders.sheltered
    unfold Sheltered at sheltered
    split at sheltered
    · rw [sheltered.2] at leads
      contradiction
    · obtain ⟨r,q,-,found,same,-⟩ := sheltered
      rw [same] at leads
      obtain ⟨c,listed,rfl⟩ := List.mem_map.mp
        ((Graph.insertAllMem.mp leads).resolve_left List.not_mem_nil)
      exact woven.marked q (Array.mem_of_getElem? found) c listed

structure Guarded (g h : Graph) (e : NodeId) : Prop where
  rest : h = { g with store := h.store, nodes := g.nodes ++ [g.store.size], entry := some g.store.size }
  size : h.store.size = g.store.size + 1
  old : ∀ k < g.store.size, h.node k =
    { g.node k with
      preds := if k = e then Graph.insertOnce g.store.size (g.node k).preds else (g.node k).preds }
  new : h.node g.store.size = { start := (g.node e).start, succs := [e] }

theorem guardedEntry {e : NodeId} (coherent : g.Coherent) (entry : g.entry = some e) :
    guardEntry g = g ∧ (g.node e).allPreds = [] ∨ Guarded g (guardEntry g) e := by
  have inside := coherent.inStore e (coherent.entry e entry)
  unfold guardEntry
  rw [entry]
  dsimp only
  split
  · rename_i none
    exact .inl ⟨rfl,List.isEmpty_iff.mp none⟩
  · obtain ⟨h,added⟩ : ∃ h, g.addNode { start := (g.node e).start } = (h,g.store.size) := ⟨_,rfl⟩
    have same : h = (g.addNode { start := (g.node e).start }).1 := congrArg Prod.fst added.symm
    have size : h.store.size = g.store.size + 1 := by rw [same]; simp [Graph.addNode]
    have node := fun k => Graph.nodeAddEdge (g := h) (a := g.store.size) (b := e)
      (Nat.lt_of_lt_of_eq (Nat.lt_succ_self _) size.symm)
      (Nat.lt_of_lt_of_eq (Nat.lt_succ_of_lt inside) size.symm) k
    rw [added]
    refine .inr ⟨by rw [same]; rfl,(h.framedAddEdge g.store.size e).size.trans size,fun k old => ?_,?_⟩
    · refine (node k).trans ?_
      have other := Nat.ne_of_lt old
      rw [same,Graph.nodeAddNode,if_neg other,if_neg other]
    · refine (node _).trans ?_
      rw [same,Graph.nodeAddNode,if_pos rfl,if_pos rfl,if_neg (Nat.ne_of_gt inside)]
      rfl

namespace Guarded

variable {e : NodeId} (guarded : Guarded g h e) (coherent : g.Coherent) (entry : g.entry = some e)
include guarded coherent

omit coherent in
theorem mem {k : NodeId} : k ∈ h.nodes ↔ k ∈ g.nodes ∨ k = g.store.size := by
  rw [guarded.rest]
  simp

theorem netted (entry : g.entry = some e) : h.Netted := by
  have fresh := Graph.fresh coherent
  have first := coherent.entry e entry
  have added := Graph.nodeAddNode g { start := (g.node e).start }
  have mem := fun {k} => guarded.mem (k := k)
  have nodes : h.nodes = (g.addNode { start := (g.node e).start }).1.nodes := by
    rw [guarded.rest]
    rfl
  have left : g.store.size ∈ (g.addNode { start := (g.node e).start }).1.nodes :=
    nodes ▸ mem.mpr (.inr rfl)
  have right : e ∈ (g.addNode { start := (g.node e).start }).1.nodes := nodes ▸ mem.mpr (.inl first)
  have other : e ≠ g.store.size := fun same => fresh (same ▸ first)
  have node : ∀ k ∈ h.nodes, h.node k =
      let n := (g.addNode { start := (g.node e).start }).1.node k
      { n with
        succs := if k = g.store.size then Graph.insertOnce e n.succs else n.succs
        preds := if k = e then Graph.insertOnce g.store.size n.preds else n.preds } := by
    intro k member
    rw [added]
    rcases mem.mp member with old | rfl
    · have apart : k ≠ g.store.size := fun same => fresh (same ▸ old)
      simp only [if_neg apart]
      exact guarded.old k (coherent.inStore k old)
    · simp only [if_true,if_neg other.symm]
      exact guarded.new
  refine ⟨fun k member => ?_,?_,?_,?_⟩
  · rw [guarded.size]
    rcases mem.mp member with old | rfl
    · exact Nat.lt_succ_of_lt (coherent.inStore k old)
    · exact Nat.lt_succ_self _
  · rw [guarded.rest]
    exact List.nodup_append.mpr ⟨coherent.once,List.nodup_singleton _,fun a old b single same =>
      fresh (List.mem_singleton.mp single ▸ same ▸ old)⟩
  · refine (coherent.normal.addNode fresh rfl rfl).insert left right nodes (fun k member => ?_)
      fun k member => ?_
    all_goals rw [node k (nodes ▸ member)]
  · refine (coherent.raised.addNode fresh rfl rfl).congr nodes fun k member => ?_
    rw [node k (nodes ▸ member)]
    exact ⟨rfl,rfl⟩

theorem coherent' (entry : g.entry = some e) : h.Coherent := by
  have netted := guarded.netted coherent entry
  have mem := fun {k} => guarded.mem (k := k)
  refine { netted with
    entry := fun e' here => mem.mpr (.inr ?_)
    empty := fun none => ?_
    formed := fun k member => ?_
    marked := fun k member t leads => ?_ }
  · rw [guarded.rest] at here
    exact (Option.some.inj here).symm
  · rw [guarded.rest] at none
    contradiction
  · rcases mem.mp member with old | rfl
    · rw [guarded.old k (coherent.inStore k old)]
      exact (coherent.formed k old).congr rfl rfl rfl rfl rfl rfl
    · rw [guarded.new]
      exact ⟨nofun,nofun,nofun,fun _ => Nat.le_refl 1⟩
  · rcases mem.mp member with old | rfl
    · rw [guarded.old k (coherent.inStore k old)] at leads
      have there := (coherent.raised.forth k old t leads).1
      rw [guarded.old t (coherent.inStore t there)]
      exact coherent.marked k old t leads
    · rw [guarded.new] at leads
      contradiction

end Guarded

structure Located (g h : Graph) (is : List NodeId) : Prop where
  rest : h = { g with store := h.store, nextLoc := h.nextLoc }
  size : h.store.size = g.store.size
  node : ∀ k, h.node k = { g.node k with stmts := (h.node k).stmts }
  acts : ∀ k, (h.node k).stmts.map Stmt.act = (g.node k).stmts.map Stmt.act
  others : ∀ k, k ∉ is → h.node k = g.node k
  once : (is.flatMap fun i => (h.node i).stmts.map (·.loc)).Nodup
  next : g.nextLoc ≤ h.nextLoc
  between : ∀ i ∈ is, ∀ s ∈ (h.node i).stmts, g.nextLoc ≤ s.loc ∧ s.loc < h.nextLoc

theorem numberStmtsLocs (k : Loc) (ss : List Stmt) :
    ((numberStmts k ss).map (·.loc)).Nodup ∧
      ∀ s ∈ numberStmts k ss, k ≤ s.loc ∧ s.loc < k + ss.length := by
  induction ss generalizing k with
  | nil => exact ⟨List.nodup_nil,nofun⟩
  | cons s ss ih =>
    obtain ⟨once,between⟩ := ih (k + 1)
    rw [numberStmts,List.map_cons,List.nodup_cons,List.length_cons]
    refine ⟨⟨fun twice => ?_,once⟩,List.forall_mem_cons.mpr ⟨⟨Int.le_refl k,?_⟩,fun t member => ?_⟩⟩
    · obtain ⟨t,member,same⟩ := List.mem_map.mp twice
      have after : k < t.loc := Int.lt_of_add_one_le (between t member).1
      exact absurd same (Int.ne_of_gt after)
    · exact Int.lt_add_of_pos_right k (Int.natCast_pos.mpr (Nat.succ_pos _))
    · obtain ⟨after,before⟩ := between t member
      refine ⟨Int.le_of_lt (Int.lt_of_add_one_le after),?_⟩
      rwa [Int.natCast_succ,Int.add_comm _ 1,← Int.add_assoc]

theorem locatedNumberStatements {is : List NodeId} (g : Graph) (once : is.Nodup)
    (inside : ∀ i ∈ is, i < g.store.size) :
    Located g (is.foldl (fun g i =>
      let stmts := (g.node i).stmts
      { g.modify i (fun n => { n with stmts := numberStmts g.nextLoc stmts }) with
        nextLoc := g.nextLoc + stmts.length }) g) is := by
  induction is generalizing g with
  | nil => exact ⟨rfl,rfl,fun _ => rfl,fun _ => rfl,fun _ _ => rfl,List.nodup_nil,Int.le_refl _,nofun⟩
  | cons i is ih =>
    obtain ⟨fresh,once⟩ := List.nodup_cons.mp once
    obtain ⟨h,first⟩ : ∃ h : Graph, { g.modify i (fun n =>
      { n with stmts := numberStmts g.nextLoc (g.node i).stmts }) with
        nextLoc := g.nextLoc + (g.node i).stmts.length } = h := ⟨_,rfl⟩
    have node : ∀ k, h.node k =
        if k = i then { g.node k with stmts := numberStmts g.nextLoc (g.node i).stmts } else g.node k := by
      intro k
      rw [← first]
      exact Graph.nodeModified i k (inside i (List.mem_cons_self ..))
    have size : h.store.size = g.store.size := first ▸ g.sizeModify i _
    have rest := ih h once fun k member => size ▸ inside k (List.mem_cons_of_mem i member)
    rw [List.foldl_cons,first]
    have next : h.nextLoc = g.nextLoc + (g.node i).stmts.length := by rw [← first]
    have here : (h.node i).stmts = numberStmts g.nextLoc (g.node i).stmts := by rw [node,if_pos rfl]
    obtain ⟨apart,within⟩ := numberStmtsLocs g.nextLoc (g.node i).stmts
    have later := rest.next
    have grown : g.nextLoc ≤ h.nextLoc := next ▸ Int.le_add_of_nonneg_right (Int.natCast_nonneg _)
    refine ⟨?_,rest.size.trans size,fun k => ?_,fun k => ?_,fun k other => ?_,?_,?_,
      List.forall_mem_cons.mpr ⟨fun s member => ?_,fun k member s stands => ?_⟩⟩
    · rw [rest.rest,← first]
      rfl
    · rw [rest.node k,node]
      split <;> rfl
    · rw [rest.acts,node]
      split
      · rename_i same
        rw [numberStmtsActs,same]
      · rfl
    · rw [List.mem_cons,not_or] at other
      rw [rest.others k other.2,node,if_neg other.1]
    · rw [List.flatMap_cons,rest.others i fresh,here,List.nodup_append']
      refine ⟨apart,rest.once,fun l left right => ?_⟩
      obtain ⟨s,stands,rfl⟩ := List.mem_map.mp left
      obtain ⟨k,member,right⟩ := List.mem_flatMap.mp right
      obtain ⟨t,there,same⟩ := List.mem_map.mp right
      have before : s.loc < h.nextLoc := next ▸ (within s stands).2
      exact absurd same (Int.ne_of_gt (Int.lt_of_lt_of_le before (rest.between k member t there).1))
    · exact Int.le_trans grown later
    · rw [rest.others i fresh,here] at member
      obtain ⟨after,before⟩ := within s member
      exact ⟨after,Int.lt_of_lt_of_le (next ▸ before) later⟩
    · obtain ⟨after,before⟩ := rest.between k member s stands
      exact ⟨Int.le_trans grown after,before⟩

end Flow

namespace Graph

def Sourceless (g : Graph) : Prop := ∀ e, g.entry = some e → (g.node e).preds = [] ∧ (g.node e).catchPreds = []

structure Finished (g h : Graph) : Prop where
  coherent : h.Coherent
  reachable : h.Reachable
  sourceless : h.Sourceless
  rpo : h.rpo = h.nodes
  distinct : h.LocsDistinct
  vars : h.vars = g.vars
  size : g.store.size ≤ h.store.size
  regions : h.regions.size = g.regions.size
  handlers : h.handlersOf = g.handlersOf
  nodes : ∀ k < g.store.size, (h.node k).own = { (g.node k).own with stmts := (h.node k).stmts } ∧
    (h.node k).stmts.map Stmt.act = (g.node k).stmts.map Stmt.act ∧
    (h.node k).handler = (g.node k).handler
  front : h.entry = some 0 ∧ h.store.size = g.store.size ∨
    h.entry = some g.store.size ∧ h.store.size = g.store.size + 1 ∧
      (h.node g.store.size).own = Node.own { start := (g.node 0).start, succs := [0] } ∧
      (h.node g.store.size).handler = false

end Graph

namespace Flow

variable {g h : Graph}

theorem Located.distinct {is : List NodeId} (located : Located g h is) {order : List NodeId}
    (once : order.Nodup) (among : ∀ i ∈ order, i ∈ is) :
    (order.flatMap fun i => (h.node i).stmts.map (·.loc)).Nodup := by
  refine List.nodup_flatMap.mpr ⟨fun i member => (List.nodup_flatMap.mp located.once).1 i (among i member),?_⟩
  refine once.imp_of_mem fun {i j} left right other l inLeft inRight => other ?_
  exact Graph.nodeOfLoc located.once (among i left) (among j right) inLeft inRight

theorem frontedGuardEntry (coherent : g.Coherent) (entry : g.entry = some 0) (guard : guardEntry g = h) :
    h.Coherent ∧ h.Sourceless ∧ (h.regions = g.regions ∧ h.vars = g.vars) ∧
      (∀ i < g.store.size, ∃ preds, h.node i = { g.node i with preds }) ∧
      (h.entry = some 0 ∧ h.store.size = g.store.size ∨
        h.entry = some g.store.size ∧ h.store.size = g.store.size + 1 ∧
          h.node g.store.size = { start := (g.node 0).start, succs := [0] }) := by
  rcases guardedEntry coherent entry with ⟨same,none⟩ | guarded
  · obtain rfl : g = h := same.symm.trans guard
    refine ⟨coherent,fun e here => ?_,⟨rfl,rfl⟩,fun i _ => ⟨_,rfl⟩,.inl ⟨entry,rfl⟩⟩
    cases Option.some.inj (entry.symm.trans here)
    exact List.append_eq_nil_iff.mp none
  · rw [guard] at guarded
    refine ⟨guarded.coherent' coherent entry,fun e here => ?_,?_,fun i inside => ⟨_,guarded.old i inside⟩,
      .inr ⟨?_,guarded.size,guarded.new⟩⟩
    · rw [guarded.rest] at here
      rw [← Option.some.inj here,guarded.new]
      exact ⟨rfl,rfl⟩
    · rw [guarded.rest]
      exact ⟨rfl,rfl⟩
    · rw [guarded.rest]

theorem finished (coherent : g.Coherent) (entry : g.entry = some 0)
    (made : (numberStatements (linkRegions (guardEntry g))).renumber = h)
    (listed : ∀ i < h.store.size, i ∈ h.nodes) : g.Finished h := by
  obtain ⟨h₁,guard⟩ : ∃ h₁, guardEntry g = h₁ := ⟨_,rfl⟩
  obtain ⟨h₂,number⟩ : ∃ h₂, numberStatements (linkRegions h₁) = h₂ := ⟨_,rfl⟩
  rw [guard,number] at made
  obtain ⟨coherent₁,sourceless,⟨regions,vars⟩,nodes,front⟩ := frontedGuardEntry coherent entry guard
  have located : Located (linkRegions h₁) h₂ h₁.nodes := by
    rw [← number]
    exact locatedNumberStatements (linkRegions h₁) coherent₁.once coherent₁.inStore
  have entry₂ : h₂.entry = h₁.entry := by rw [located.rest]; rfl
  have coherent₂ : h₂.Coherent :=
    coherent₁.restate entry₂ (by rw [located.rest]; rfl) located.size located.node
  obtain ⟨e,first⟩ : ∃ e, h₁.entry = some e := by
    rcases front with ⟨first,-⟩ | ⟨first,-⟩ <;> exact ⟨_,first⟩
  have numbered : h₂.Numbered h := made ▸ coherent₂.numbered (entry₂.trans first)
  have size : h.store.size = h₁.store.size := numbered.size.trans located.size
  -- All that numbering and locations change is the statements of a node and what leads to it.
  have node : ∀ i < h.store.size, (h.node i).own = { (h₁.node i).own with stmts := (h.node i).stmts } ∧
      (h.node i).stmts.map Stmt.act = (h₁.node i).stmts.map Stmt.act ∧
      (h.node i).handler = (h₁.node i).handler := by
    intro i inside
    obtain ⟨num,same⟩ := numbered.node i (listed i inside)
    have acts : (h₂.node i).stmts.map Stmt.act = (h₁.node i).stmts.map Stmt.act := located.acts i
    rw [same]
    refine ⟨?_,acts,?_⟩
    · rw [located.node i]
      rfl
    · rw [located.node i]
      rfl
  have linked : h.regions = (linkRegions h₁).regions := by rw [numbered.rest,located.rest]
  have within : ∀ i < g.store.size, i < h.store.size := fun i inside => by
    rcases front with ⟨-,same⟩ | ⟨-,same,-⟩ <;> omega
  have entry' : h.entry = h₁.entry := by
    rw [numbered.rest]
    exact entry₂
  refine ⟨Graph.coherentNumbered coherent₂ (entry₂.trans first) numbered,numbered.reachable (entry₂.trans first),
    fun e here => ?_,by rw [numbered.rest],?_,?_,?_,?_,?_,fun i inside => ?_,?_⟩
  · obtain ⟨num,same⟩ := numbered.node e (numbered.reached e (entry₂.trans (entry' ▸ here)) e |>.mpr (.stay trivial))
    obtain ⟨preds,catchPreds⟩ := sourceless e (entry' ▸ here)
    have stated : h₂.node e = { h₁.node e with stmts := (h₂.node e).stmts } := located.node e
    rw [same,stated]
    simp [preds,catchPreds]
  · rw [Graph.LocsDistinct,show h.rpo = h.nodes by rw [numbered.rest]]
    refine Eq.mp (congrArg List.Nodup (List.flatMap_congr fun i member => ?_))
      (located.distinct numbered.once fun i member => ?_)
    · obtain ⟨num,same⟩ := numbered.node i member
      rw [same]
    · have among := numbered.old i member
      rw [located.rest] at among
      exact among
  · rw [numbered.rest,located.rest]
    exact vars
  · rcases front with ⟨-,same⟩ | ⟨-,same,-⟩ <;> omega
  · rw [linked,← regions]
    exact Array.size_map
  · funext r
    rw [Graph.handlersOf,Graph.handlersOf,Graph.region?,Graph.region?,linked,← regions]
    simp only [linkRegions,Array.getElem?_map]
    cases h₁.regions[r]? <;> rfl
  · obtain ⟨preds,same⟩ := nodes i inside
    have := node i (within i inside)
    rw [same] at this
    exact this
  · rcases front with ⟨first,same⟩ | ⟨first,same,new⟩
    · exact .inl ⟨entry'.trans first,size.trans same⟩
    · obtain ⟨own,acts,handler⟩ := node g.store.size (by omega)
      rw [new] at own acts handler
      refine .inr ⟨entry'.trans first,size.trans same,?_,handler⟩
      rw [own,List.map_eq_nil_iff.mp acts]
      rfl

end Flow

namespace Graph

variable {m : Method} {g : Graph}

open RegCode.Flow in
theorem finishedOfMethod (made : ofMethod m = .ok g) :
    Block.split m = [] ∧ g = { vars := g.vars, params := g.params } ∨
    ∃ first rest more b, Block.split m = first :: rest ∧
      Drawn m (Block.split m) (first :: more) (first :: more).length b ∧ b.graph.Coherent ∧
        b.graph.Finished g := by
  have built := builtOfMethod made
  rcases ofMethodParts made with ⟨none,rfl⟩ | ⟨none,rfl⟩ | ⟨first,rest,u,b,blocks,queued,done⟩
  · exact .inl ⟨by rw [Block.split,if_neg (by simp [Method.hasCode,none])],rfl⟩
  · exact .inl ⟨none,rfl⟩
  · have laid := didBuildQueue queued (.start first rfl rfl rfl)
    obtain ⟨more,drawn⟩ := didBuildQueueDrawn queued (.start m (List.mem_cons_self ..) rfl rfl rfl) rfl
    have coherent := drawn.coherent laid
    exact .inr ⟨first,rest,more,b,blocks,blocks.symm ▸ drawn,coherent,
      finished coherent laid.entry done built.listed⟩

end Graph

end RegCode
