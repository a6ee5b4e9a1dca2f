import RegCode.Proofs.Flow.Entrance
import RegCode.Proofs.Flow.Folding

/-! Simplifying keeps the executions of a graph: each change that it makes is a folding. -/
namespace RegCode

theorem Node.leaveFixed {n : Node} {f : NodeId → NodeId} (formed : n.Formed)
    (fixed : ∀ t ∈ n.succs, f t = t) (c : Option Choice) : n.leave c = (n.leave c).map (Way.map f) := by
  cases leaves : n.leave c with
  | none => rfl
  | some w =>
    cases w with
    | into t => rw [Option.map_some,Way.map,fixed t (formed.leads leaves)]
    | _ => rfl

theorem Node.leavePlain {n m : Node} (kind : m.kind = n.kind) (succs : m.succs = n.succs)
    (plain : n.kind ≠ .cond ∧ n.kind ≠ .switch) (c : Option Choice) : m.leave c = n.leave c := by
  unfold Node.leave
  rw [kind,succs]
  split <;> first | rfl | simp_all

namespace Graph

variable {g h : Graph} {i j k : NodeId} {p q : Point} {c : Option Choice} {s : Stmt}

theorem Shielded.catcher (shielded : g.Shielded) (member : i ∈ g.nodes) (here : s ∈ (g.node i).stmts)
    (throws : s.canThrow = true) :
    g.catcher i k = (g.node i).region.bind fun r => ((g.handlersOf r)[k]?).map (·.entry) := by
  have full : g.Full i := (shielded.shields i member).resolve_right fun ⟨p,stripped⟩ => by
    rw [stripped.quiet s here] at throws
    contradiction
  rw [Graph.catcher]
  cases raises : (g.node i).region.bind fun r => ((g.handlersOf r)[k]?).map (·.entry) with
  | none => rfl
  | some t =>
    obtain ⟨r,region,found⟩ := Option.bind_eq_some_iff.mp raises
    obtain ⟨c,listed,entry⟩ := Option.map_eq_some_iff.mp found
    rw [Option.filter_some,if_pos]
    simpa using (full t).mpr ⟨r,region,c,List.mem_of_getElem? listed,entry⟩

theorem Coherent.handles (coherent : g.Coherent) (member : i ∈ g.nodes)
    (plain : (g.node j).handler = false) : j ∉ (g.node i).catchSuccs := fun raises => by
  rw [coherent.marked i member j raises] at plain
  contradiction

theorem innerCases (inner : g.Inner ⟨i,k⟩) : (∃ s, (g.node i).stmts[k]? = some s) ∨
    (g.node i).stmts[k]? = none ∧ k = (g.node i).stmts.length := by
  rcases Nat.lt_or_eq_of_le inner.2 with inside | ends
  · exact .inl ⟨_,List.getElem?_eq_getElem inside⟩
  · exact .inr ⟨List.getElem?_eq_none (Nat.le_of_eq ends.symm),ends⟩

theorem slipsEnd (kind : (g.node i).kind = .stmt) (succs : (g.node i).succs = [j])
    (here : (g.node i).stmts[k]? = none) : g.Slips ⟨i,k⟩ ⟨j,0⟩ := by
  intro c
  rw [moveEnd here]
  cases c with
  | none => simp [Node.leave,kind,succs,Way.after]
  | some c => simp [Node.leave,kind]

def pointMerged (g : Graph) (i j : NodeId) (p : Point) : Point :=
  if p.node = j then ⟨i,(g.node i).stmts.length + p.index⟩ else p

theorem pointMergedOther {x : Nat} (other : k ≠ j) : g.pointMerged i j ⟨k,x⟩ = ⟨k,x⟩ := if_neg other

theorem pointMergedLower {x : Nat} :
    g.pointMerged i j ⟨j,x⟩ = ⟨i,(g.node i).stmts.length + x⟩ := if_pos rfl

theorem foldsMerge (shielded : g.Shielded) (member : i ∈ g.nodes) (fits : g.Merges i j) :
    g.Folds (g.merge i j) (g.pointMerged i j) := by
  have coherent := shielded.toCoherent
  have merged := shieldedMerge shielded member fits
  have listed := fits.inside coherent member
  have node := fun {k} => fits.node coherent member (k := k)
  have upper : i ∈ (g.merge i j).nodes := nodesMerge.mpr ⟨member,fits.other.symm⟩
  have raised : ∀ a ∈ g.nodes, ∀ t ∈ (g.node a).catchSuccs,
      g.pointMerged i j ⟨t,0⟩ = ⟨id t,0⟩ := fun a here t raises =>
    pointMergedOther fun same => coherent.handles here fits.handler (same ▸ raises)
  -- Both nodes stand in one region, so that the whole has the handlers of either.
  have catches : ∀ {a b s}, a ∈ g.nodes → b ∈ (g.merge i j).nodes → s ∈ (g.node a).stmts →
      s ∈ ((g.merge i j).node b).stmts → ((g.merge i j).node b).region = (g.node a).region →
      s.canThrow = true → ∀ k, (g.merge i j).catcher b k = (g.catcher a k).map id := by
    intro a b s left right here there region throws k
    rw [Option.map_id,id,shielded.catcher left here throws,merged.catcher right there throws,region,
      handlersMerge]
  have whole : ((g.merge i j).node i).stmts = (g.node i).stmts ++ (g.node j).stmts := by
    rw [node fits.other.symm]
    simp
  have region : ((g.merge i j).node i).region = (g.node i).region := by rw [node fits.other.symm]
  have lower : ∀ x, g.Inner ⟨j,x⟩ → g.Echoes (g.merge i j) (g.pointMerged i j) ⟨j,x⟩ := by
    intro x inner
    have there : ((g.merge i j).node i).stmts[(g.node i).stmts.length + x]? = (g.node j).stmts[x]? := by
      rw [whole,List.getElem?_append_right (Nat.le_add_right ..),Nat.add_sub_cancel_left]
    rcases innerCases inner with ⟨s,here⟩ | ⟨here,ends⟩
    · rw [here] at there
      exact echoesAt pointMergedLower here there pointMergedLower
        (catches listed upper (List.mem_of_getElem? here) (List.mem_of_getElem? there)
          (region.trans fits.region)) (raised j listed)
    · refine echoesEnd (f := id) pointMergedLower here (there.trans here) (coherent.formed j listed)
        (fun c => ?_) fun t leads => pointMergedOther fun same => fits.loops (same ▸ leads)
      rw [Node.leavePlain (n := g.node j) (by rw [node fits.other.symm]; simp)
        (by rw [node fits.other.symm]; simp) ⟨fits.cond,fits.switch⟩]
      exact Node.leaveFixed (coherent.formed j listed) (fun _ _ => rfl) c
  refine ⟨?_,fun ⟨k,x⟩ inner => ?_⟩
  · rw [entryMerge]
    refine Option.map_congr fun e entry => (pointMergedOther fun same => ?_).symm
    exact fits.entry (same ▸ entry)
  · obtain ⟨old,index⟩ := inner
    by_cases last : k = j
    · subst last
      exact .inl (lower x ⟨old,index⟩)
    · have place := fun y => pointMergedOther (g := g) (i := i) (x := y) last
      by_cases first : k = i
      · subst first
        rcases innerCases ⟨old,index⟩ with ⟨s,here⟩ | ⟨here,ends⟩
        · have there : ((g.merge k j).node k).stmts[x]? = some s := by
            rw [whole,List.getElem?_append_left (List.getElem?_eq_some_iff.mp here).1,here]
          exact .inl (echoesAt (place x) here there (place (x + 1))
            (catches old upper (List.mem_of_getElem? here) (List.mem_of_getElem? there) region)
            (raised k old))
        · refine .inr ⟨⟨j,0⟩,slipsEnd fits.kind fits.succs here,?_,lower 0 ⟨listed,Nat.zero_le _⟩⟩
          rw [place,pointMergedLower,ends,Nat.add_zero]
      · have stays : k ∈ (g.merge i j).nodes := nodesMerge.mpr ⟨old,last⟩
        have stmts : ((g.merge i j).node k).stmts = (g.node k).stmts := by
          rw [node last]
          exact if_neg first
        rcases innerCases ⟨old,index⟩ with ⟨s,here⟩ | ⟨here,ends⟩
        · have there := (congrArg (·[x]?) stmts).trans here
          exact .inl (echoesAt (place x) here there (place (x + 1))
            (catches old stays (List.mem_of_getElem? here) (List.mem_of_getElem? there)
              (by rw [node last])) (raised k old))
        · refine .inl (echoesEnd (f := id) (place x) here ((congrArg (·[x]?) stmts).trans here)
            (coherent.formed k old) (fun c => ?_) fun t leads => pointMergedOther fun same => ?_)
          · rw [node last]
            simp only [if_neg first]
            exact (Node.leaveCongr rfl rfl rfl rfl rfl rfl c).trans
              (Node.leaveFixed (coherent.formed k old) (fun _ _ => rfl) c)
          · have comes := (coherent.normal.forth k old t leads).2
            rw [same,fits.only coherent member] at comes
            exact first (List.mem_singleton.mp comes)

def pointPassed (i j : NodeId) (p : Point) : Point := if p.node = i then ⟨j,0⟩ else p

theorem pointPassedOther {x : Nat} (other : k ≠ i) : pointPassed i j ⟨k,x⟩ = ⟨k,x⟩ := if_neg other

theorem foldsBypass (shielded : g.Shielded) (member : i ∈ g.nodes) (fits : g.Bypasses i j) :
    g.Folds (g.bypass i j) (pointPassed i j) := by
  have coherent := shielded.toCoherent
  have passed := shieldedBypass shielded member fits
  have node := fun {k} => fits.node coherent member (k := k)
  have targets : ∀ t, pointPassed i j ⟨t,0⟩ = ⟨if t = i then j else t,0⟩ := fun t => by
    unfold pointPassed
    split <;> rfl
  have others : ∀ x k, k ≠ i → g.Inner ⟨k,x⟩ → g.Echoes (g.bypass i j) (pointPassed i j) ⟨k,x⟩ := by
    intro x k other inner
    have place := fun y => pointPassedOther (j := j) (x := y) other
    have stmts : ((g.bypass i j).node k).stmts = (g.node k).stmts := by
      rw [node other]
      dsimp only
      split <;> rfl
    have region : ((g.bypass i j).node k).region = (g.node k).region := by
      rw [node other]
      dsimp only
      split <;> rfl
    have old : k ∈ g.nodes := inner.1
    rcases innerCases inner with ⟨s,here⟩ | ⟨here,ends⟩
    · have there := (congrArg (·[x]?) stmts).trans here
      refine echoesAt (place x) here there (place (x + 1)) (fun throws k' => ?_) fun t _ => targets t
      have same : (g.bypass i j).catcher k k' = g.catcher k k' := by
        rw [passed.catcher (nodesBypass.mpr ⟨old,other⟩) (List.mem_of_getElem? there) throws,region,
          handlersBypass,shielded.catcher old (List.mem_of_getElem? here) throws]
      rw [same]
      cases raises : g.catcher k k' with
      | none => rfl
      | some t =>
        rw [Option.map_some,if_neg]
        rintro rfl
        exact coherent.handles old fits.handler (caught raises)
    · refine echoesEnd (place x) here ((congrArg (·[x]?) stmts).trans here)
        (coherent.formed k old) (fun c => ?_) fun t _ => targets t
      rw [node other]
      by_cases leads : k ∈ (g.node i).preds
      · simp only [if_pos leads]
        exact (Node.leaveCongr rfl rfl rfl rfl rfl rfl c).trans ((g.node k).leaveRetarget i j c)
      · simp only [if_neg leads]
        refine (Node.leaveCongr rfl rfl rfl rfl rfl rfl c).trans
          (Node.leaveFixed (coherent.formed k old) (fun t out => if_neg ?_) c)
        rintro rfl
        exact leads (coherent.normal.forth k old t out).2
  refine ⟨?_,fun ⟨k,x⟩ inner => ?_⟩
  · rw [entryBypass,Option.map_map]
    exact Option.map_congr fun e _ => (targets e).symm
  · by_cases here : k = i
    · subst here
      have inside := fits.inside coherent member
      refine .inr ⟨⟨j,0⟩,slipsEnd fits.kind fits.succs (by simp [fits.stmts]),?_,
        others 0 j fits.other ⟨inside,Nat.zero_le _⟩⟩
      rw [pointPassedOther fits.other]
      exact (if_pos rfl).symm
    · exact .inl (others x k here inner)

def pointParted (g : Graph) (i : NodeId) (p : Point) : Point :=
  if p.node = g.store.size then ⟨i,p.index⟩
  else if p.node = i then ⟨i,(g.node i).stmts.length - 1 + p.index⟩
  else p

theorem leaveDetour (x : Node) : (g.detour i k x).leave c =
    if k ∈ (g.node i).preds then (x.leave c).map (Way.map fun t => if t = i then g.store.size else t)
    else x.leave c := by
  have outer : ∀ y : Node,
      (if k ∈ (g.node i).catchPreds then y.retargetCatch i g.store.size else y).leave c = y.leave c := by
    intro y
    split
    · exact Node.leaveCongr rfl rfl rfl rfl rfl rfl c
    · rfl
  unfold detour
  dsimp only
  rw [outer]
  split
  · exact x.leaveRetarget i g.store.size c
  · rfl

section
variable {last : Stmt} (shielded : g.Shielded) (member : i ∈ g.nodes) (parts : g.Parts i last)
include shielded member

theorem leaveSplit (old : k ∈ g.nodes) (c : Option Choice) : (g.node k).leave c =
    (((g.split i last).node k).leave c).map (Way.map fun t => if t = g.store.size then i else t) := by
  have coherent := shielded.toCoherent
  have new := fresh coherent
  have here : ((g.split i last).node k).leave c = (g.detour i k (g.node k)).leave c := by
    have congr : ∀ x : Node, (∀ c, x.leave c = (g.node k).leave c) →
        (g.detour i k x).leave c = (g.detour i k (g.node k)).leave c := fun x same => by
      rw [leaveDetour,leaveDetour,same]
    rw [nodeSplit coherent member,if_neg fun same : k = g.store.size => new (same ▸ old)]
    split
    · rename_i same
      subst same
      exact (Node.leaveCongr rfl rfl rfl rfl rfl rfl c).trans
        (congr _ fun c => Node.leaveCongr rfl rfl rfl rfl rfl rfl c)
    · exact Node.leaveCongr rfl rfl rfl rfl rfl rfl c
  have formed := coherent.formed k old
  have apart : ∀ t ∈ (g.node k).succs, t ≠ g.store.size := fun t leads same =>
    new (same ▸ (coherent.normal.forth k old t leads).1)
  rw [here,leaveDetour]
  split
  · have undone : ∀ w : Way, (w.map fun t => if t = i then g.store.size else t).map
        (fun t => if t = g.store.size then i else t) = w.map fun t =>
          if (if t = i then g.store.size else t) = g.store.size then i else if t = i then g.store.size else t :=
      fun w => by cases w <;> rfl
    rw [Option.map_map,Function.comp_def]
    simp only [undone]
    refine Node.leaveFixed formed (fun t leads => ?_) c
    have := apart t leads
    split <;> simp_all
  · exact Node.leaveFixed formed (fun t leads => if_neg (apart t leads)) c

theorem catcherSplit {a b : NodeId} {x x' : Nat} (parts : g.Parts i last) (left : a ∈ (g.split i last).nodes)
    (right : b ∈ g.nodes) (here : ((g.split i last).node a).stmts[x]? = some s)
    (there : (g.node b).stmts[x']? = some s)
    (region : ((g.split i last).node a).region = (g.node b).region) (throws : s.canThrow = true) :
    g.catcher b k = ((g.split i last).catcher a k).map fun t => if t = g.store.size then i else t := by
  have coherent := shielded.toCoherent
  have parted := shieldedSplit shielded member parts
  have before := shielded.catcher (k := k) right (List.mem_of_getElem? there) throws
  rw [before,parted.catcher left (List.mem_of_getElem? here) throws,region]
  cases within : (g.node b).region with
  | none => rfl
  | some r =>
    simp only [Option.bind_some,handlersSplit,List.getElem?_map]
    cases listed : (g.handlersOf r)[k]? with
    | none => rfl
    | some h =>
      rw [within,Option.bind_some,listed,Option.map_some] at before
      have apart : h.entry ≠ g.store.size := fun same =>
        fresh coherent (same ▸ (coherent.raised.forth b right _ (caught before)).1)
      simp only [Option.map_some,redirectHandler]
      split <;> simp_all

include parts in
theorem foldsSplit : (g.split i last).Folds g (g.pointParted i) := by
  have coherent := shielded.toCoherent
  have parted := shieldedSplit shielded member parts
  have new := fresh coherent
  have node := @nodeSplit g i coherent member last
  have differ : i ≠ g.store.size := fun same => new (same ▸ member)
  have nodes : ∀ k, k ∈ (g.split i last).nodes ↔ k ∈ g.nodes ∨ k = g.store.size := fun k => by
    rw [nodesSplit,List.mem_append,List.mem_singleton]
  have test := parts.ends
  rw [List.getLast?_eq_getElem?] at test
  -- Nothing but the node in front leads to the test itself.
  have targets : ∀ t ≠ i, g.pointParted i ⟨t,0⟩ = ⟨if t = g.store.size then i else t,0⟩ := by
    intro t other
    unfold pointParted
    dsimp only
    rw [if_neg other]
    split <;> rfl
  have raised : ∀ a ∈ (g.split i last).nodes, ∀ t ∈ ((g.split i last).node a).catchSuccs,
      g.pointParted i ⟨t,0⟩ = ⟨if t = g.store.size then i else t,0⟩ := by
    intro a here t raises
    refine targets t ?_
    have place : ∀ is : List NodeId, (t ∈ is ∧ t ≠ i) ∨ (t = g.store.size ∧ i ∈ is) → t ≠ i := by
      rintro is (⟨-,other⟩ | ⟨rfl,-⟩)
      · exact other
      · exact differ.symm
    rcases (catchSuccsSplit coherent member).mp ⟨raises,here⟩ with ⟨-,leads⟩ | ⟨-,-,leads⟩
    · exact place _ ((handlersMem coherent member).mp leads)
    · exact place _ leads
  have out : ∀ a ∈ g.nodes, ∀ t ∈ ((g.split i last).node a).succs,
      g.pointParted i ⟨t,0⟩ = ⟨if t = g.store.size then i else t,0⟩ := by
    intro a old t leads
    refine targets t ?_
    rintro rfl
    rcases (succsSplit coherent member).mp ⟨leads,(nodes a).mpr (.inl old)⟩ with
      ⟨same,-⟩ | ⟨-,⟨-,other⟩ | ⟨same,-⟩⟩
    · exact new (same ▸ old)
    · exact other rfl
    · exact differ same
  have front : ∀ x, g.pointParted i ⟨g.store.size,x⟩ = ⟨i,x⟩ := fun x => if_pos rfl
  have back : ∀ x, g.pointParted i ⟨i,x⟩ = ⟨i,(g.node i).stmts.length - 1 + x⟩ := fun x =>
    (if_neg differ).trans (if_pos rfl)
  have rest : ∀ k x, k ≠ g.store.size → k ≠ i → g.pointParted i ⟨k,x⟩ = ⟨k,x⟩ := fun k x apart other =>
    (if_neg apart).trans (if_neg other)
  have lower : ∀ x, (g.split i last).Inner ⟨i,x⟩ → (g.split i last).Echoes g (g.pointParted i) ⟨i,x⟩ := by
    intro x inner
    have here : ((g.split i last).node i).stmts = [last] ∧
        ((g.split i last).node i).region = (g.node i).region := by
      rw [node,if_neg differ,if_pos rfl]
      exact ⟨(g.detourKept i i _).2.1,(g.detourKept i i _).2.2.1⟩
    rcases innerCases inner with ⟨s,at_⟩ | ⟨at_,ends⟩
    · have there : (g.node i).stmts[(g.node i).stmts.length - 1 + x]? = some s := by
        rw [here.1] at at_
        obtain ⟨short,rfl⟩ := List.getElem?_eq_some_iff.mp at_
        obtain rfl : x = 0 := by simpa using short
        exact test
      exact echoesAt (back x) at_ there (back (x + 1))
        (fun throws _ => catcherSplit shielded member parts inner.1 member at_ there here.2 throws)
        (raised i inner.1)
    · have there : (g.node i).stmts[(g.node i).stmts.length - 1 + x]? = none := by
        rw [ends,here.1]
        exact List.getElem?_eq_none (by simp; omega)
      exact echoesEnd (back x) at_ there (parted.formed i inner.1)
        (fun c => leaveSplit shielded member member c) (out i member)
  refine ⟨?_,fun ⟨k,x⟩ inner => ?_⟩
  · rw [entrySplit,Option.map_map]
    refine Option.map_congr fun e entry => ?_
    show _ = g.pointParted i ⟨if e = i then g.store.size else e,0⟩
    split
    · rename_i same
      rw [front,same]
    · rename_i other
      exact (rest e 0 (fun same => new (same ▸ coherent.entry e entry)) other).symm
  · by_cases ahead : k = g.store.size
    · subst ahead
      have here : (g.split i last).node g.store.size = { g.front i with
          succs := [i], catchSuccs := g.handlersOfTest i
          catchPreds := g.catchPredsParted i last g.store.size (g.node i).catchPreds } := by
        rw [node,if_pos rfl]
      have stmts : ((g.split i last).node g.store.size).stmts = (g.node i).stmts.dropLast := by
        rw [here]
        rfl
      rcases innerCases inner with ⟨s,at_⟩ | ⟨at_,ends⟩
      · have there : (g.node i).stmts[x]? = some s := by
          rw [stmts,List.getElem?_dropLast] at at_
          split at at_
          · exact at_
          · contradiction
        refine .inl (echoesAt (front x) at_ there (front (x + 1))
          (fun throws _ => catcherSplit shielded member parts inner.1 member at_ there ?_ throws)
          (raised _ inner.1))
        rw [here]
        rfl
      · have single : (g.split i last).Inner ⟨i,0⟩ := ⟨(nodes i).mpr (.inl member),Nat.zero_le _⟩
        refine .inr ⟨⟨i,0⟩,slipsEnd ?_ ?_ at_,?_,lower 0 single⟩
        · rw [here]
          rfl
        · rw [here]
        · rw [front,back,ends,stmts,List.length_dropLast,Nat.add_zero]
    · have old : k ∈ g.nodes := ((nodes k).mp inner.1).resolve_right ahead
      by_cases same : k = i
      · subst same
        exact .inl (lower x inner)
      · have place := fun y => rest k y ahead same
        obtain ⟨stmts,region⟩ : ((g.split i last).node k).stmts = (g.node k).stmts ∧
            ((g.split i last).node k).region = (g.node k).region := by
          rw [node,if_neg ahead,if_neg same]
          exact ⟨(g.detourKept i k _).2.1,(g.detourKept i k _).2.2.1⟩
        rcases innerCases inner with ⟨s,at_⟩ | ⟨at_,ends⟩
        · have there := (congrArg (·[x]?) stmts).symm.trans at_
          exact .inl (echoesAt (place x) at_ there (place (x + 1))
            (fun throws _ => catcherSplit shielded member parts inner.1 old at_ there region throws)
            (raised k inner.1))
        · exact .inl (echoesEnd (place x) at_ ((congrArg (·[x]?) stmts).symm.trans at_)
            (parted.formed k inner.1) (fun c => leaveSplit shielded member old c) (out k old))

end

theorem foldsRenumber (coherent : g.Coherent) : g.renumber.Folds g id := by
  cases entry : g.entry with
  | none =>
    rw [renumber,if_pos (by simp [isEmpty,entry])]
    exact ⟨rfl,fun p _ => .inl fun c => by cases moves : g.move p c <;> simp [moves]⟩
  | some e =>
    have numbered := coherent.numbered entry
    refine ⟨by rw [entryRenumber]; rfl,fun p inner => .inl ?_⟩
    obtain ⟨k,x⟩ := p
    obtain ⟨num,node⟩ := numbered.node k inner.1
    have handlers : g.renumber.handlersOf = g.handlersOf := by
      funext r
      rw [handlersOf,region?,numbered.rest]
      rfl
    rcases innerCases inner with ⟨s,here⟩ | ⟨here,-⟩
    · have there : (g.node k).stmts[x]? = some s := by rwa [node] at here
      refine echoesAt (f := id) rfl here there rfl (fun _ k' => ?_) fun _ _ => rfl
      rw [Option.map_id,id,catcher,catcher,node,handlers]
    · have there : (g.node k).stmts[x]? = none := by rwa [node] at here
      have formed := (coherentRenumber coherent).formed k inner.1
      refine echoesEnd (f := id) rfl here there formed (fun c => ?_) fun _ _ => rfl
      refine Eq.trans ?_ (Node.leaveFixed formed (fun _ _ => rfl) c)
      rw [node]
      exact Node.leaveCongr rfl rfl rfl rfl rfl rfl c

variable {m : Method} {cs : List Choice} {ls : List Loc} {ends : Bool}

/-- A graph of the method after passes over what its nodes state. -/
inductive Prepared (m : Method) : Graph → Prop where
  | built {g : Graph} (made : ofMethod m = .ok g) : Prepared m g
  | analysed {a b : Analysed} (before : Prepared m a.graph) (pass : a.Pass b) : Prepared m b.graph

theorem Prepared.full (prepared : Prepared m g) : g.Coherent ∧ ∀ i ∈ g.nodes, g.Full i := by
  induction prepared with
  | built made => exact fullOfMethod made
  | @analysed a b before pass ih =>
    have restated := pass.restated
    refine ⟨ih.1.restate (by rw [restated.rest]) (by rw [restated.rest]) restated.size restated.nodes,
      fun i member => ?_⟩
    have old : i ∈ a.graph.nodes := by rwa [restated.rest] at member
    refine (ih.2 i old).congr (fun j => ?_) ?_ ?_
    · rw [restated.nodes]
    · rw [restated.nodes]
    · funext r
      rw [handlersOf,region?,restated.rest]
      rfl

theorem executesSplitTests (shielded : g.Shielded) :
    g.Executes cs ls ends ↔ g.splitTests.Executes cs ls ends := by
  have kept : g.splitTests.Shielded ∧ (g.Executes cs ls ends ↔ g.splitTests.Executes cs ls ends) :=
    keptSplitTests (P := fun h => h.Shielded ∧ (g.Executes cs ls ends ↔ h.Executes cs ls ends))
      (fun h i last before member parts =>
        have parted := shieldedSplit before.1 member parts
        ⟨parted,before.2.trans ((foldsSplit before.1 member parts).executes parted.toCoherent).symm⟩)
      ⟨shielded,.rfl⟩
  exact kept.2

theorem executesSimplify (shielded : g.Shielded) :
    g.Executes cs ls ends ↔ g.simplify.Executes cs ls ends := by
  have kept : g.simplify.Shielded ∧ (g.Executes cs ls ends ↔ g.simplify.Executes cs ls ends) :=
    keptSimplify (P := fun h => h.Shielded ∧ (g.Executes cs ls ends ↔ h.Executes cs ls ends))
      (fun h i j before member fits => ⟨shieldedMerge before.1 member fits,
        before.2.trans ((foldsMerge before.1 member fits).executes before.1.toCoherent)⟩)
      (fun h i j before member fits => ⟨shieldedBypass before.1 member fits,
        before.2.trans ((foldsBypass before.1 member fits).executes before.1.toCoherent)⟩)
      (fun h before =>
        have numbered := shieldedRenumber before.1
        ⟨numbered,before.2.trans ((foldsRenumber before.1.toCoherent).executes numbered.toCoherent).symm⟩)
      ⟨shielded,.rfl⟩
  exact kept.2

/-- Parting the tests of a graph and simplifying it keeps what it executes: choices under which one of
the graphs comes by statements, and to an end or not, lead the other by the same ones. -/
theorem execution (prepared : Prepared m g) (cs : List Choice) :
    (∀ ls ends, g.Executes cs ls ends ↔ g.splitTests.simplify.Executes cs ls ends) ∧
      ∀ ls ls' ends, g.Executes cs ls true → g.splitTests.simplify.Executes cs ls' ends →
        ls' <+: ls ∧ (ends = true → ls' = ls) := by
  obtain ⟨coherent,full⟩ := prepared.full
  have shielded : g.Shielded := ⟨coherent,fun i member => .inl (full i member)⟩
  have same : ∀ ls ends, g.Executes cs ls ends ↔ g.splitTests.simplify.Executes cs ls ends := fun _ _ =>
    (executesSplitTests shielded).trans (executesSimplify (shieldedSplitTests shielded))
  refine ⟨same,fun ls ls' ends left right => ?_⟩
  obtain ⟨e,entry,course⟩ := left
  obtain ⟨e',entry',course'⟩ := (same ls' ends).mpr right
  cases entry.symm.trans entry'
  exact course.settled rfl course'

set_option maxRecDepth 100000 in
theorem retriedMoves : (match ofMethod .retried with
    | .ok g => g.entry == some 3 && g.move ⟨3,0⟩ none == some ([],some ⟨0,0⟩) &&
        g.move ⟨0,0⟩ (some .pass) == some ([0],some ⟨0,1⟩) &&
        g.move ⟨0,1⟩ none == some ([1],some ⟨0,2⟩) &&
        g.move ⟨0,2⟩ (some (.branch true)) == some ([],some ⟨0,0⟩) &&
        g.move ⟨0,0⟩ (some (.raise 0)) == some ([0],some ⟨2,0⟩) &&
        g.move ⟨2,0⟩ none == some ([3],some ⟨2,1⟩) && g.move ⟨2,1⟩ none == some ([],none)
    | .error _ => false) = true := by
  simp -zeta only [ofMethod,Block.split,Block.starts,TryTable.ascending,renumber,reversePostorder,
    Flow.exploreNested,sortByHalves]
  decide +kernel

/-- The call of `retried` returns, is made again and raises, parted from its test or not. -/
theorem executionRetried : ∃ g, ofMethod .retried = .ok g ∧
    g.Executes [.pass,.branch true,.raise 0] [0,1,0,3] true ∧
    g.splitTests.simplify.Executes [.pass,.branch true,.raise 0] [0,1,0,3] true := by
  have moves := retriedMoves
  cases made : ofMethod .retried with
  | error fault =>
    rw [made] at moves
    contradiction
  | ok g =>
    simp only [made,Bool.and_eq_true,beq_iff_eq] at moves
    obtain ⟨⟨⟨⟨⟨⟨⟨entry,first⟩,call⟩,test⟩,again⟩,raises⟩,handler⟩,out⟩ := moves
    have course : g.Executes [.pass,.branch true,.raise 0] [0,1,0,3] true :=
      ⟨3,entry,.step first (.step call (.step test (.step again (.step raises
        (.step handler (.leave out))))))⟩
    exact ⟨g,rfl,course,((execution (.built made) _).1 _ _).mp course⟩

end Graph

end RegCode
