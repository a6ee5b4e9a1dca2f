import RegCode.Proofs.Flow.Spacing
import RegCode.Proofs.Recovery.Covering
import RegCode.Proofs.Recovery.Meeting

/-! Writing stays in the graph. What the plan of a graph names is in the graph, so all that is written
is, and protected code is begun for regions of nodes of the graph only. -/
namespace RegCode

structure LoopShape.Inside (g : Graph) (shape : LoopShape) : Prop where
  follow : ∀ x, shape.follow = some x → x ∈ g.rpo
  start : shape.kind = .pretest → shape.start ∈ g.rpo
  test : ∀ t, shape.test = some t → t ∈ g.rpo

theorem LoopShape.insideEndless {g : Graph} {l : Loop} (edged : g.Edged) (natural : l.Natural g) :
    (endless g l).Inside g := by
  refine ⟨fun x follow => ?_,nofun,nofun⟩
  obtain ⟨-,w,inside,out⟩ := (fitsEndless natural).follow x follow
  exact (edged.succs w (natural.inside w inside).1 x out).1

namespace Recovery

variable {p : Plan} {f : Frame} {n t x : NodeId} {s s' : State} {r : RegionId}

structure Listed (p : Plan) : Prop where
  edged : p.graph.Edged
  formed : ∀ n ∈ p.graph.rpo, (p.graph.node n).Formed
  handlers : ∀ n ∈ p.graph.rpo, ∀ r ∈ p.graph.regionsAround (p.graph.node n).region,
    ∀ h ∈ ownHandlers p.graph r, h.entry ∈ p.graph.rpo
  branches : ∀ n x, p.branchFollows.get? n = some x → x ∈ p.graph.rpo
  switches : ∀ n x, p.switchFollows.get? n = some x → x ∈ p.graph.rpo
  shapes : ∀ s ∈ p.shapes, s.loop.Natural p.graph ∧ s.Inside p.graph

def InUse (g : Graph) (r : RegionId) : Prop := ∃ n ∈ g.rpo, r ∈ g.regionsAround (g.node n).region

theorem groupEntries {order : HandlerOrder} {hs : List CatchEntry} {a : Group}
    (member : a ∈ groupHandlers order hs) : ∃ h ∈ hs, h.entry = a.entry := by
  obtain ⟨groups,found⟩ : ∃ groups, hs.foldl (fun as h => addHandler h as) [] = groups := ⟨_,rfl⟩
  have kept : ∃ b ∈ groups, b.entry = a.entry := by
    unfold groupHandlers at member
    rw [found] at member
    obtain ⟨b,inside,same⟩ : ∃ b ∈ groups,
        (if b.catchAll then { b with types := [anyThrown] } else b) = a := by
      cases order with
      | table => exact List.mem_map.mp member
      | catchAllLast =>
        rcases List.mem_append.mp member with member | member <;>
          exact List.mem_map.mp (List.mem_filter.mp member).1
    refine ⟨b,inside,?_⟩
    rw [← same]
    split <;> rfl
  obtain ⟨b,inside,same⟩ := kept
  have order := (groupedHandlers (fun _ => false) hs).order (· == a.entry)
  rw [found] at order
  have some : ((groups.map (·.entry)).find? (· == a.entry)).isSome :=
    List.find?_isSome.mpr ⟨b.entry,List.mem_map_of_mem inside,by simpa using same⟩
  rw [order] at some
  obtain ⟨e,listed,here⟩ := List.find?_isSome.mp some
  obtain ⟨h,member,rfl⟩ := List.mem_map.mp listed
  exact ⟨h,member,by simpa using here⟩

theorem pendingAround (outside : pendingRegion? p f n = some r) :
    r ∈ p.graph.regionsAround (p.graph.node n).region :=
  (List.takeWhile_sublist _).subset (List.mem_of_getLast? outside)

theorem exitOf {inside : NodeId → Bool} (member : x ∈ Plan.exitsOf p.graph inside) :
    ∃ n ∈ p.graph.rpo, x ∈ (p.graph.node n).succs := by
  rw [Plan.exitsOf,List.mem_eraseDups,List.mem_flatMap] at member
  obtain ⟨n,here,out⟩ := member
  exact ⟨n,(List.mem_filter.mp here).1,(List.mem_filter.mp out).1⟩

namespace Listed

variable (listed : Listed p)
include listed

theorem exit {inside : NodeId → Bool} (member : x ∈ Plan.exitsOf p.graph inside) : x ∈ p.graph.rpo := by
  obtain ⟨n,here,out⟩ := exitOf member
  exact (listed.edged.succs n here x out).1

theorem followOfRegion {entries : List NodeId} (found : followOfRegion p s f r entries = some x) :
    x ∈ p.graph.rpo := by
  have member := (List.mem_filter.mp (LoopShape.earliestMem found)).1
  rcases List.mem_append.mp member with exits | handled
  · exact listed.exit exits
  · obtain ⟨e,-,exits⟩ := List.mem_flatMap.mp handled
    exact listed.exit exits

theorem sides (member : n ∈ p.graph.rpo) (kind : (p.graph.node n).kind = .cond) {follow : Option NodeId}
    {cond : Test} {first second : Option NodeId}
    (sides : orient p s f (p.graph.node n) follow = (cond,first,second)) :
    ∀ x, first = some x ∨ second = some x → x ∈ p.graph.rpo := by
  obtain ⟨t,e,-,onTrue,onFalse,succs⟩ := (listed.formed n member).cond kind
  have inside : ∀ x, x = t ∨ x = e → x ∈ p.graph.rpo := fun x either =>
    (listed.edged.succs n member x ((succs x).mpr either)).1
  have ways := orientCases sides
  rw [onTrue,onFalse] at ways
  intro x here
  refine inside x ?_
  grind

theorem arms (member : n ∈ p.graph.rpo) (kind : (p.graph.node n).kind = .switch) :
    ∀ a ∈ switchArms p f n, a.target ∈ p.graph.rpo := by
  intro a here
  have gathered := armsGathered p.graph (p.graph.node n) (switchFollow p f n)
  refine (listed.edged.succs n member a.target (((listed.formed n member).switch kind).2 _ |>.mpr ?_)).1
  rcases (gathered.targets a.target).mp (List.mem_map_of_mem here) with ⟨c,inside,same⟩ | ⟨default,-⟩
  · exact .inl (List.mem_map.mpr ⟨c,inside,same⟩)
  · exact .inr default

theorem settled {found shape : LoopShape} (starts : shapeAt? p f n = some found)
    (settled : settleShape p s found = shape) : shape.Inside p.graph := by
  obtain ⟨natural,inside⟩ :=
    listed.shapes found (List.mem_of_find?_eq_some (Option.filter_eq_some_iff.mp starts).1)
  unfold settleShape at settled
  split at settled
  · split at settled
    · exact settled ▸ inside
    · exact settled ▸ LoopShape.insideEndless listed.edged natural
  · exact settled ▸ inside

theorem heads {s₀ s₁ : State} {heads : List CatchHead} (member : n ∈ p.graph.rpo)
    (outside : pendingRegion? p f n = some r)
    (clauses : (openClauses p.graph (ownGroups p r)).from s₀ = (heads,s₁)) :
    ∀ h ∈ heads, h.node ∈ p.graph.rpo := by
  intro h inside
  have fits := (openClausesFits p.graph (ownGroups p r) s₀).1
  rw [clauses] at fits
  have here : (h.types,h.node) ∈ heads.map fun h => (h.types,h.node) := List.mem_map_of_mem inside
  rw [fits] at here
  obtain ⟨a,group,same⟩ := List.mem_map.mp here
  obtain ⟨c,own,entry⟩ := groupEntries group
  rw [← (Prod.mk.inj same).2,← entry]
  exact listed.handlers n member r (pendingAround outside) c own

end Listed

def Frame.Listed (p : Plan) (f : Frame) : Prop := ∀ x, f.stop = some x → x ∈ p.graph.rpo

theorem Frame.Listed.side {follow : Option NodeId} (stops : f.Listed p)
    (meets : ∀ x, follow = some x → x ∈ p.graph.rpo) : (sideFrame f follow).Listed p := by
  unfold sideFrame
  split
  · exact meets
  · exact stops

theorem armJobsListed {ss : List Scope} {arms : List Arm} (targets : ∀ a ∈ arms, a.target ∈ p.graph.rpo) :
    ∀ j ∈ armJobs ss arms, j.2 ∈ p.graph.rpo ∧ j.1.Listed p := by
  induction arms with
  | nil => exact fun _ member => absurd member List.not_mem_nil
  | cons a arms ih =>
    obtain ⟨here,later⟩ := List.forall_mem_cons.mp targets
    exact List.forall_mem_cons.mpr ⟨⟨here,nofun⟩,ih later⟩

def Guards (p : Plan) (ds : List (List Cover × Deed)) : Prop :=
  ∀ k c, (k,.guard c) ∈ ds → InUse p.graph c.region

namespace Guards

variable {xs ys : List (List Cover × Deed)}

theorem nil : Guards p [] := fun _ _ member => absurd member List.not_mem_nil

theorem append (first : Guards p xs) (second : Guards p ys) : Guards p (xs ++ ys) := fun k c member =>
  (List.mem_append.mp member).elim (first k c) (second k c)

theorem cons {k : List Cover} {d : Deed} (here : ∀ c, d = .guard c → InUse p.graph c.region)
    (rest : Guards p xs) : Guards p ((k,d) :: xs) := fun k' c member =>
  (List.mem_cons.mp member).elim (fun same => here c (Prod.mk.inj same).2.symm) (rest k' c)

end Guards

def Job.InGraph (p : Plan) : Job → Prop
  | .emit f n out => n ∈ p.graph.rpo → f.Listed p → ∀ k, Guards p (Tree.deedsAll k out)
  | .go f t out => (∀ x, t = some x → x ∈ p.graph.rpo) → f.Listed p → ∀ k, Guards p (Tree.deedsAll k out)
  | .goOn f _ t more =>
    (∀ x, t = some x → x ∈ p.graph.rpo) → f.Listed p → ∀ k, Guards p (Tree.deedsAll k more)
  | .each jobs outs =>
    (∀ j ∈ jobs, j.2 ∈ p.graph.rpo ∧ j.1.Listed p) → ∀ k, Guards p (Tree.deedsAll k outs.flatten)

theorem leadNone {lead : List Piece} {s₀ : State} (shaped : p.graph.Shaped)
    (kind : (p.graph.node n).kind = .cond ∨ (p.graph.node n).kind = .switch)
    (start : s.lead n (p.graph.node n).stmts = (lead,s₀)) : lead = [] ∧ s₀ = s := by
  rw [State.lead,if_pos (shaped.alone n kind)] at start
  cases start
  exact ⟨rfl,rfl⟩

theorem guardsStatement (s : State) (n : NodeId) (ss : List Stmt) (k : List Cover) :
    Guards p (Tree.deedsAll k [(s.statement n ss).1]) := by
  rw [deedsStatement]
  exact .cons nofun .nil

theorem Writes.inGraph {job : Job} (listed : Listed p) (shaped : p.graph.Shaped)
    (writes : Writes p job s s') : job.InGraph p := by
  have follow : ∀ {n t}, p.graph.rpo.contains n → t ∈ (p.graph.node n).succs → t ∈ p.graph.rpo :=
    fun {n t} member out => (listed.edged.succs n (by simpa using member) t out).1
  induction writes with
  | nowhere => exact fun _ _ _ => .nil
  | inline way rest ih => exact fun inside stops => ih (inside _ rfl) stops
  | falls way => exact fun _ _ _ => .nil
  | breaks way => exact fun _ _ _ => .nil
  | continues way => exact fun _ _ _ => .nil
  | jumps way => exact fun _ _ _ => .nil
  | nothing => exact fun _ _ => .nil
  | each first rest ihFirst ihRest =>
    intro jobs k
    obtain ⟨here,later⟩ := List.forall_mem_cons.mp jobs
    rw [List.flatten_cons,Tree.deedsAppend]
    exact (ihFirst (fun x same => Option.some.inj same ▸ here.1) here.2 k).append (ihRest later k)
  | ends => exact fun _ _ _ => .nil
  | never jump way => exact fun _ _ _ => .nil
  | behind jump way rest ih => exact fun inside stops => ih (inside _ rfl) stops
  | on passes rest ih => exact ih
  | last bare noBranch noSwitch alone => exact fun _ _ k => guardsStatement _ _ _ k
  | @plain f n t out s s' bare kind succ rest ih =>
    intro member stops k
    have next : t ∈ p.graph.rpo := follow (by simpa using member) (succ ▸ List.mem_singleton_self t)
    exact (guardsStatement s n _ k).append (ih (fun x same => Option.some.inj same ▸ next) stops k)
  | @branch f n cond first second lead onTrue onFalse more s s₀ s₁ s₂ s₃ bare kind sides start left
      right rest ihLeft ihRight ihRest =>
    intro member stops k
    obtain ⟨rfl,rfl⟩ := leadNone shaped (.inl kind) start
    have targets := listed.sides member kind sides
    have meets := listed.branches n
    have inner := stops.side meets
    rw [List.nil_append,Tree.deedsAppend,deedsBranch]
    exact .append (.cons nofun ((ihLeft (fun x same => targets x (.inl same)) inner k).append
      (ihRight (fun x same => targets x (.inr same)) inner k))) (ihRest meets stops k)
  | @switch f n lead bodies more s s₀ s₁ s₂ bare kind start arms rest ihArms ihRest =>
    intro member stops k
    obtain ⟨rfl,rfl⟩ := leadNone shaped (.inr kind) start
    have meets : ∀ x, switchFollow p f n = some x → x ∈ p.graph.rpo := fun x same =>
      (Option.or_eq_some_iff.mp same).elim (listed.switches n x) fun both => stops x both.2
    rw [List.nil_append,Tree.deedsAppend,deedsSwitch arms]
    exact .append (.cons nofun (ihArms (armJobsListed (listed.arms member kind)) k)) (ihRest meets stops k)
  | @pretest f n found shape body more s s₁ s₂ outside starts settled kind inner rest ihInner ihRest =>
    intro member stops k
    have form := listed.settled starts settled
    rw [← List.singleton_append,Tree.deedsAppend,deedsLoop,realNode]
    refine .append (.cons nofun (ihInner (fun x same => Option.some.inj same ▸ form.start kind) ?_ k))
      (ihRest form.follow stops k)
    exact fun x same => Option.some.inj same ▸ member
  | @posttest f n found shape latch body more s s₁ s₂ outside starts settled kind test inner rest
      ihInner ihRest =>
    intro member stops k
    have form := listed.settled starts settled
    rw [← List.singleton_append,Tree.deedsAppend,deedsLoop,realNode]
    refine .append (.cons nofun (ihInner member ?_ k)) (ihRest form.follow stops k)
    exact fun x same => Option.some.inj same ▸ form.test latch test
  | @endless f n found shape body more s s₁ s₂ outside starts settled kind test inner rest ihInner
      ihRest =>
    intro member stops k
    have form := listed.settled starts settled
    rw [← List.singleton_append,Tree.deedsAppend,deedsLoop]
    exact .append (ihInner member nofun k) (ihRest form.follow stops k)
  | @cleanup f n r entry code copy body more s s₁ s₂ outside first clean inner rest ihInner ihRest =>
    intro member stops k
    have follows : ∀ x, guardFollow p s f r = some x → x ∈ p.graph.rpo := fun x => listed.followOfRegion
    rw [← List.singleton_append,Tree.deedsAppend,deedsGuarded]
    refine .append (.append (.cons (fun c same => ?_) (ihInner member follows _)) .nil)
      (ihRest follows stops k)
    exact Deed.guard.inj same ▸ ⟨n,member,pendingAround outside⟩
  | @catches f n r heads body bodies more s s₀ s₁ s₂ s₃ outside first noCleanup clauses inner handlers
      rest ihInner ihHandlers ihRest =>
    intro member stops k
    have follows : ∀ x, guardFollow p s f r = some x → x ∈ p.graph.rpo := fun x => listed.followOfRegion
    have same : bodies.length = heads.length := by rw [bodiesLength handlers,List.length_map]
    rw [← List.singleton_append,Tree.deedsAppend,deedsGuarded,Tree.deedsZipCatches _ _ same]
    refine .append (.append (.cons (fun c same => ?_) (ihInner member follows _)) (ihHandlers ?_ k))
      (ihRest follows stops k)
    · exact Deed.guard.inj same ▸ ⟨n,member,pendingAround outside⟩
    · intro j here
      obtain ⟨h,inside,rfl⟩ := List.mem_map.mp here
      exact ⟨listed.heads member outside clauses h inside,follows⟩
  | @again f n r c catches body more s s₀ s₁ s₂ outside known clauses inner rest ihInner ihRest =>
    intro member stops k
    have follows : ∀ x, followOfRegion p s f r [] = some x → x ∈ p.graph.rpo := fun x => listed.followOfRegion
    have empty := deedsRepeatClauses (k := k) p.graph c (s.openGuard n (followOfRegion p s f r []))
    rw [clauses] at empty
    rw [← List.singleton_append,Tree.deedsAppend,deedsGuarded,empty]
    refine .append (.append (.cons (fun c same => ?_) (ihInner member follows _)) .nil)
      (ihRest follows stops k)
    exact Deed.guard.inj same ▸ ⟨n,member,pendingAround outside⟩

theorem remainsInGraph {ns : List NodeId} {out : List Piece} (listed : Listed p) (shaped : p.graph.Shaped)
    (remains : Remains p ns out s s') (members : ∀ n ∈ ns, n ∈ p.graph.rpo) (k : List Cover) :
    Guards p (Tree.deedsAll k out) := by
  induction remains with
  | none => exact .nil
  | met met rest ih => exact ih fun n inside => members n (List.mem_cons_of_mem _ inside)
  | @more n ns out outs s s₁ s₂ free here rest ih =>
    rw [Tree.deedsAppend]
    exact (here.inGraph listed shaped (members n (List.mem_cons_self ..)) nofun k).append
      (ih fun m inside => members m (List.mem_cons_of_mem _ inside))

theorem draftInGraph {entry : NodeId} {w : Draft} (listed : Listed p) (shaped : p.graph.Shaped)
    (drafted : Drafted p entry w) (member : entry ∈ p.graph.rpo) (k : List Cover) :
    Guards p (Tree.deedsAll k w.body) := by
  obtain ⟨out,rest,s,here,remains,body⟩ := drafted
  rw [body,Tree.deedsAppend]
  exact (here.inGraph listed shaped member nofun k).append
    (remainsInGraph listed shaped remains (fun _ => id) k)

end Recovery

namespace Graph

open Recovery

variable {g : Graph} {l : Loop} {shape : LoopShape} {n t x : NodeId}

theorem Readied.ways (readied : g.Readied) (member : n ∈ g.rpo) (kind : (g.node n).kind = .cond) :
    ∃ t f, (g.node n).onTrue = some t ∧ (g.node n).onFalse = some f ∧ t ∈ g.rpo ∧ f ∈ g.rpo := by
  obtain ⟨t,f,-,onTrue,onFalse,succs⟩ := (readied.shielded.formed n (readied.rpo ▸ member)).cond kind
  exact ⟨t,f,onTrue,onFalse,(readied.edged.succs n member t ((succs t).mpr (.inl rfl))).1,
    (readied.edged.succs n member f ((succs f).mpr (.inr rfl))).1⟩

theorem Readied.insidePretest (readied : g.Readied) (natural : l.Natural g)
    (found : LoopShape.pretest? g l = some shape) : shape.Inside g := by
  have header := (natural.inside _ natural.header).1
  unfold LoopShape.pretest? at found
  dsimp only at found
  split at found
  · contradiction
  · rename_i cond
    obtain ⟨t,f,onTrue,onFalse,inTrue,inFalse⟩ := readied.ways header (by simpa using cond)
    simp only [onTrue,onFalse,Option.bind_eq_bind,Option.bind_some] at found
    split at found
    · contradiction
    · cases Option.some.inj found
      refine ⟨fun x same => ?_,fun _ => ?_,fun u same => Option.some.inj same ▸ header⟩
      · rw [← Option.some.inj same]
        split <;> assumption
      · dsimp only
        split <;> assumption

theorem Readied.insidePosttest (readied : g.Readied) (natural : l.Natural g)
    (found : LoopShape.posttest? g l = some shape) : shape.Inside g := by
  unfold LoopShape.posttest? at found
  split at found
  · rename_i latch latches
    have inside := (natural.inside latch
      (natural.latches latch (latches ▸ List.mem_singleton_self latch)).1).1
    dsimp only at found
    split at found
    · contradiction
    · rename_i proper
      obtain ⟨t,f,onTrue,onFalse,inTrue,inFalse⟩ := readied.ways inside (not_not.mp (not_or.mp proper).2)
      rw [onTrue,onFalse] at found
      split at found
      case' isFalse => split at found
      case isFalse.isFalse => contradiction
      all_goals
        rw [Option.bind_eq_bind,Option.bind_some] at found
        split at found
        · contradiction
        · cases Option.some.inj found
          refine ⟨fun x same => ?_,nofun,fun u same => Option.some.inj same ▸ inside⟩
          rw [← Option.some.inj same]
          assumption
  · contradiction

theorem Readied.insideOfLoop (readied : g.Readied) (natural : l.Natural g) (policy : LoopPolicy) :
    (LoopShape.ofLoop g policy l).Inside g := by
  rcases LoopShape.ofLoopForm g policy l with form | form | form
  · rw [form]
    exact LoopShape.insideEndless readied.edged natural
  · exact readied.insidePretest natural form
  · exact readied.insidePosttest natural form

theorem Readied.switches (readied : g.Readied) {d : Dominators} (loops : LoopForest)
    (found : (Plan.followsOfSwitches g d loops).get? n = some x) : x ∈ g.rpo := by
  refine (List.foldlRecOn _ _ (motive := fun t : Table NodeId NodeId => ∀ u f, t.get? u = some f → f ∈ g.rpo)
    (fun _ _ here => by simp at here) fun t good u member => ?_) n x found
  obtain ⟨member,kind⟩ := List.mem_filter.mp member
  split
  · rename_i f follow
    have inside : f ∈ g.rpo := by
      rcases Option.or_eq_some_iff.mp follow with meets | ⟨-,default⟩
      · have meeting := (List.mem_filter.mp (latestMem meets)).1
        exact (List.mem_filter.mp (List.mem_filter.mp meeting).1).1
      · have formed := (readied.shielded.formed u (readied.rpo ▸ member)).switch (by simpa using kind)
        exact (readied.edged.succs u member f
          ((formed.2 f).mpr (.inr (Option.filter_eq_some_iff.mp default).1))).1
    intro v y here
    rw [Table.get?_insert] at here
    split at here
    · exact Option.some.inj here ▸ inside
    · exact good v y here
  · exact good

theorem Readied.handlers (readied : g.Readied) (member : n ∈ g.rpo) {r : RegionId}
    (around : r ∈ g.regionsAround (g.node n).region) :
    ∀ h ∈ ownHandlers g r, h.entry ∈ g.rpo := by
  intro h own
  cases here : (g.node n).region with
  | none =>
    rw [here,aroundNone] at around
    contradiction
  | some q =>
    rw [here] at around
    have handlers := handlersAround readied.shaped.nested (readied.shaped.inside n q here)
    rw [readied.rpo]
    refine (readied.shielded.handles (readied.rpo ▸ member) here (c := h) ?_).1
    rw [handlers]
    exact List.mem_flatMap.mpr ⟨r,around,own⟩

theorem Readied.listed (readied : g.Readied) (policy : Policy) :
    Listed (Plan.ofGraph g (Dominators.ofGraph g) policy) := by
  obtain ⟨natural,-⟩ := LoopForest.naturalOfGraph readied.ranked readied.edged
  refine
    { edged := readied.edged
      formed := fun n member => readied.shielded.formed n (readied.rpo ▸ member)
      handlers := fun n member r around => readied.handlers member around
      branches := fun n x found => (Plan.branchesUnder readied.ranked readied.edged _ _ found).1
      switches := fun n x found => readied.switches _ found
      shapes := fun s member => ?_ }
  obtain ⟨l,found,rfl⟩ := List.mem_map.mp member
  refine ⟨?_,readied.insideOfLoop (natural l found) policy.loop⟩
  rw [Plan.loopOfShape]
  exact natural l found

end Graph

end RegCode
