import RegCode.Proofs.Recovery.Order
import RegCode.Proofs.Recovery.Bound

/-! Writing meets nodes in order: what holds where a job begins holds where it ends. -/
namespace RegCode.Recovery

variable {p : Plan} {f : Frame} {ss : List Scope} {a b : LoopShape} {n t u x y : NodeId}
  {s s₀ s₁ s₂ s' : State}

namespace State

theorem Ready.mono {g : Graph} (ready : s.Ready g x) (more : ∀ m, s.Seen m → s'.Seen m) : s'.Ready g x :=
  fun d other dom => more d (ready d other dom)

theorem Sure.mono {g : Graph} (sure : s.Sure g x) (more : ∀ m, s.Seen m → s'.Seen m) : s'.Sure g x :=
  ⟨sure.1,sure.2.imp (more x) fun ready => ready.mono more⟩

theorem seenSetMark {m : Mark} (met : m ≠ .unvisited) (k : NodeId) :
    (s.setMark n m).Seen k ↔ s.Seen k ∨ k = n := by
  rw [Seen,markSetMark]
  split
  · rename_i here
    exact iff_of_true met (.inr here)
  · rename_i other
    exact (or_iff_left other).symm

theorem seenPlace {key : Key} (k : NodeId) : (s.place n key).Seen k ↔ s.Seen k := by
  rw [Seen,Seen,mark,mark,(s.placeFields n key).1]

theorem seenStatement (ss : List Stmt) (k : NodeId) : (s.statement n ss).2.Seen k ↔ s.Seen k ∨ k = n :=
  (seenSetMark (by decide) k).trans (or_congr (seenPlace k) Iff.rfl)

theorem seenEnter (own : String) (follow : Option NodeId) (k : NodeId) :
    (s.enter n own follow).Seen k ↔ s.Seen k ∨ k = n :=
  (seenSetMark (s := s.bump.place n (s.key own)) (by decide) k).trans (or_congr (seenPlace k) Iff.rfl)

theorem seenLeave (follow : Option NodeId) (k : NodeId) :
    (s.leave n follow).Seen k ↔ s.Seen k ∨ k = n := seenSetMark (s := s.release follow) (by decide) k

theorem reservedStatement (ss : List Stmt) : (s.statement n ss).2.reserved = s.reserved :=
  (s.bump.placeRest n (s.key "")).2.2.1

theorem reservedEnter (own : String) (follow : Option NodeId) :
    (s.enter n own follow).reserved = follow.toList ++ s.reserved :=
  congrArg (follow.toList ++ ·) (s.bump.placeRest n (s.key own)).2.2.1

theorem reservedLeave {follow : Option NodeId} {held : List NodeId}
    (same : s.reserved = follow.toList ++ held) : (s.leave n follow).reserved = held := by
  show follow.toList.foldl List.erase s.reserved = held
  rw [same]
  cases follow with
  | none => rfl
  | some x => simp

end State

theorem leadAlone {stmts : List Stmt} {lead : List Piece} (alone : stmts.length ≤ 1)
    (start : s.lead n stmts = (lead,s₀)) : lead = [] ∧ s₀ = s := by
  rw [State.lead,if_pos alone] at start
  cases start
  exact ⟨rfl,rfl⟩

theorem sureOfUnder {g : Graph} (under : g.Under x n) (met : s.Seen n) (ready : s.Ready g n) :
    s.Sure g x := by
  refine ⟨under.1,.inr fun d other dom => ?_⟩
  by_cases here : d = n
  · exact here ▸ met
  · exact ready d here (under.2 d other dom)

namespace Orderly

theorem grow (orderly : Orderly p ss s) (more : ∀ m, s.Seen m → s'.Seen m)
    (new : ∀ k, s'.Seen k → s.Seen k ∨ s.Ready p.graph k ∧
      ∀ a ∈ p.shapes, a.loop.header = k → isLoopOpen ss k = true)
    (reserved : ∀ x ∈ s'.reserved, x ∈ s.reserved ∨ s'.Seen x ∨ s'.Ready p.graph x) :
    Orderly p ss s' where
  loops := orderly.loops
  switches n follow key member := (orderly.switches n follow key member).imp (more n) id
  unguarded := orderly.unguarded
  names := orderly.names
  tests t member := more t (orderly.tests t member)
  above m met other := ((new m met).elim (fun old => orderly.above m old other) (·.1)).mono more
  closed a shape met outside y inside := by
    rcases new _ met with old | ⟨-,starts⟩
    · exact more y (orderly.closed a shape old outside y inside)
    · rw [starts a shape rfl] at outside
      contradiction
  reserved x member := (reserved x member).elim
    (fun old => (orderly.reserved x old).imp (more x) fun ready => ready.mono more) id
  meets n x key member := (orderly.meets n x key member).imp (more x) fun ready => ready.mono more

theorem openSwitch {follow : Option NodeId} {key : Key} (orderly : Orderly p ss s) (met : s.Seen n)
    (own : key.own = switchName n) (new : ∀ follow key, .switch n follow key ∉ ss)
    (meets : ∀ x, follow = some x → s.Seen x ∨ s.Ready p.graph x) :
    Orderly p (.switch n follow key :: ss) s where
  loops shape k member := orderly.loops shape k ((List.mem_cons.mp member).resolve_left nofun)
  switches m follow' k member := by
    rcases List.mem_cons.mp member with same | member
    · cases same
      exact ⟨met,own⟩
    · exact orderly.switches m follow' k member
  unguarded r member := orderly.unguarded r ((List.mem_cons.mp member).resolve_left nofun)
  names := by
    rw [List.map_cons]
    refine List.nodup_cons.mpr ⟨fun member => ?_,orderly.names⟩
    obtain ⟨z,member,same⟩ := List.mem_map.mp member
    match z,same with
    | .loop shape k,same =>
      exact (namesApart _ _ 0).1 ((orderly.loops shape k member).2.symm.trans (same.trans own))
    | .switch m follow' k,same =>
      have here := switchNameInj ((orderly.switches m follow' k member).2.symm.trans (same.trans own))
      exact new follow' k (here ▸ member)
    | .guarded r,same => exact orderly.unguarded r member
  tests t := by
    rintro ⟨shape,k,member,test⟩
    exact orderly.tests t ⟨shape,k,(List.mem_cons.mp member).resolve_left nofun,test⟩
  above m met other := orderly.above m met fun ⟨shape,k,member,test⟩ =>
    other ⟨shape,k,List.mem_cons_of_mem _ member,test⟩
  closed := orderly.closed
  reserved := orderly.reserved
  meets m x k member := by
    rcases List.mem_cons.mp member with same | member
    · cases same
      exact meets x rfl
    · exact orderly.meets m x k member

theorem closeSwitch {follow : Option NodeId} {key : Key} (orderly : Orderly p (.switch n follow key :: ss) s) :
    Orderly p ss s where
  loops shape k member := orderly.loops shape k (List.mem_cons_of_mem _ member)
  switches m follow' k member := orderly.switches m follow' k (List.mem_cons_of_mem _ member)
  unguarded r member := orderly.unguarded r (List.mem_cons_of_mem _ member)
  names := (List.nodup_cons.mp orderly.names).2
  tests t := fun ⟨shape,k,member,test⟩ => orderly.tests t ⟨shape,k,List.mem_cons_of_mem _ member,test⟩
  above m met other := orderly.above m met fun ⟨shape,k,member,test⟩ =>
    other ⟨shape,k,(List.mem_cons.mp member).resolve_left nofun,test⟩
  closed := orderly.closed
  reserved := orderly.reserved
  meets m x k member := orderly.meets m x k (List.mem_cons_of_mem _ member)

end Orderly

theorem loopOpenCons {key : Key} : isLoopOpen (.loop a key :: ss) n = true ↔
    a.loop.header = n ∨ isLoopOpen ss n = true := by
  simp [isLoopOpen]

theorem Fresh.begin (fresh : Fresh p ss s a) (sound : p.Sound) (ready : s.Ready p.graph a.loop.header)
    {key : Key} (own : key.own = loopName a.loop.header) (more : ∀ m, s.Seen m → s₀.Seen m)
    (new : ∀ k, s₀.Seen k → s.Seen k ∨ k = a.loop.header ∨ a.kind = .posttest ∧ a.test = some k)
    (tested : ∀ t, a.kind = .posttest → a.test = some t → s₀.Seen t)
    (reserved : s₀.reserved = s.reserved) : Orderly p (.loop a key :: ss) s₀ where
  loops shape k member := by
    rcases List.mem_cons.mp member with same | member
    · cases same
      exact ⟨fresh.shape,own⟩
    · exact fresh.orderly.loops shape k member
  switches m follow k member :=
    (fresh.orderly.switches m follow k ((List.mem_cons.mp member).resolve_left nofun)).imp (more m) id
  unguarded r member := fresh.orderly.unguarded r ((List.mem_cons.mp member).resolve_left nofun)
  names := by
    rw [List.map_cons]
    refine List.nodup_cons.mpr ⟨fun member => ?_,fresh.orderly.names⟩
    obtain ⟨z,member,same⟩ := List.mem_map.mp member
    match z,same with
    | .loop shape k,same =>
      exact fresh.apart member
        (loopNameInj (own.symm.trans (same.symm.trans (fresh.orderly.loops shape k member).2)))
    | .switch m follow k,same =>
      exact (namesApart _ _ 0).1
        (own.symm.trans (same.symm.trans (fresh.orderly.switches m follow k member).2))
    | .guarded r,same => exact fresh.orderly.unguarded r member
  tests t := by
    rintro ⟨shape,k,member,kind,test⟩
    rcases List.mem_cons.mp member with same | member
    · cases same
      exact tested t kind test
    · exact more t (fresh.orderly.tests t ⟨shape,k,member,kind,test⟩)
  above m met other := by
    rcases new m met with old | rfl | ⟨kind,test⟩
    · refine (fresh.orderly.above m old fun ⟨shape,k,member,test⟩ => ?_).mono more
      exact other ⟨shape,k,List.mem_cons_of_mem _ member,test⟩
    · exact ready.mono more
    · exact absurd ⟨a,key,List.mem_cons_self ..,kind,test⟩ other
  closed b shape met outside y inside := by
    have outside : ¬isLoopOpen (.loop a key :: ss) b.loop.header = true := by simp [outside]
    rw [loopOpenCons,not_or] at outside
    rcases new _ met with old | here | ⟨kind,test⟩
    · exact more y (fresh.orderly.closed b shape old (by simpa using outside.2) y inside)
    · exact absurd here.symm outside.1
    · exact absurd rfl (sound.testNoHeader shape fresh.shape kind test)
  reserved x member := (fresh.orderly.reserved x (reserved ▸ member)).imp (more x)
    fun ready => ready.mono more
  meets m x k member :=
    (fresh.orderly.meets m x k ((List.mem_cons.mp member).resolve_left nofun)).imp (more x)
      fun ready => ready.mono more

theorem Orderly.closeLoop {key : Key} (orderly : Orderly p (.loop a key :: ss) s) (sound : p.Sound)
    (all : ∀ y ∈ a.loop.body, s.Seen y) (ready : s.Ready p.graph a.loop.header) : Orderly p ss s where
  loops shape k member := orderly.loops shape k (List.mem_cons_of_mem _ member)
  switches m follow' k member := orderly.switches m follow' k (List.mem_cons_of_mem _ member)
  unguarded r member := orderly.unguarded r (List.mem_cons_of_mem _ member)
  names := (List.nodup_cons.mp orderly.names).2
  tests t := fun ⟨shape,k,member,test⟩ => orderly.tests t ⟨shape,k,List.mem_cons_of_mem _ member,test⟩
  above m met other := by
    by_cases tests : Tests (.loop a key :: ss) m
    · obtain ⟨shape,k,member,kind,test⟩ := tests
      rcases List.mem_cons.mp member with same | member
      · cases same
        have shape := (orderly.loops a key (List.mem_cons_self ..)).1
        intro d apart dom
        rcases sound.dominator shape (sound.testSuccs shape kind test).1 dom with inside | dom
        · exact all d inside
        · by_cases here : d = a.loop.header
          · exact all d (here ▸ sound.header shape)
          · exact ready d here dom
      · exact absurd ⟨shape,k,member,kind,test⟩ other
    · exact orderly.above m met tests
  closed b shape met outside y inside := by
    by_cases here : a.loop.header = b.loop.header
    · have same := sound.distinct a (orderly.loops a key (List.mem_cons_self ..)).1 b shape here
      exact all y (same ▸ inside)
    · refine orderly.closed b shape met (Bool.eq_false_iff.mpr fun isOpen => ?_) y inside
      rcases loopOpenCons.mp isOpen with same | isOpen
      · exact here same
      · rw [outside] at isOpen
        contradiction
  reserved := orderly.reserved
  meets m x k member := orderly.meets m x k (List.mem_cons_of_mem _ member)

theorem jumpLeads {inLoop inBreakable : Bool} {r : Route}
    (jump : jumpOut? t inLoop inBreakable ss = some r) : ∃ z ∈ ss, z.Targets t := by
  induction ss generalizing inLoop inBreakable with
  | nil => contradiction
  | cons z ss ih =>
    cases z with
    | loop shape key =>
      rw [jumpOut?] at jump
      split at jump
      · exact ⟨_,List.mem_cons_self ..,.inl ‹_›⟩
      · split at jump
        · exact ⟨_,List.mem_cons_self ..,.inr (beq_iff_eq.mp ‹_›)⟩
        · obtain ⟨z,member,target⟩ := ih jump
          exact ⟨z,List.mem_cons_of_mem _ member,target⟩
    | switch n follow key =>
      rw [jumpOut?] at jump
      split at jump
      · exact ⟨_,List.mem_cons_self ..,beq_iff_eq.mp ‹_›⟩
      · obtain ⟨z,member,target⟩ := ih jump
        exact ⟨z,List.mem_cons_of_mem _ member,target⟩
    | guarded r =>
      rw [jumpOut?] at jump
      obtain ⟨z,member,target⟩ := ih jump
      exact ⟨z,List.mem_cons_of_mem _ member,target⟩

theorem neverOutside (unguarded : ∀ r, .guarded r ∉ f.scopes) (t : NodeId) :
    isOutside p.graph f.scopes t = false := by
  rw [isOutside,List.any_eq_false]
  rintro (_ | _ | r) member
  · simp
  · simp
  · exact absurd member (unguarded r)

theorem routeAwaited (unguarded : ∀ r, .guarded r ∉ f.scopes) (way : route p s f t ≠ .inline) :
    s.Seen t ∨ Awaited f s t := by
  unfold route at way
  rw [neverOutside unguarded] at way
  split at way
  · rename_i ends
    simp only [Bool.or_eq_true,beq_iff_eq] at ends
    exact .inr (ends.elim .inl fun fall => .inr (.inl fall))
  · cases jump : jumpOut? t false false f.scopes with
    | some r => exact .inr (.inr (.inr (.inr (jumpLeads jump))))
    | none =>
      rw [jump,Option.getD_none,Bool.false_or] at way
      cases free : s.isFree t with
      | true => simp [free] at way
      | false =>
        by_cases met : s.Seen t
        · exact .inl met
        · have unmet : s.mark t = .unvisited := not_not.mp met
          exact .inr (.inr (.inr (.inl (by simpa [State.isFree,unmet] using free))))

structure Fit (p : Plan) (f : Frame) (s : State) : Prop where
  orderly : Orderly p f.scopes s
  opened : Opened f.scopes s
  stop : ∀ x, f.stop = some x → s.Sure p.graph x

structure Due (p : Plan) (f : Frame) (n : NodeId) (s : State) : Prop where
  orderly : Orderly p f.scopes s
  opened : ∀ shape key, .loop shape key ∈ f.scopes →
    s.Seen shape.loop.header ∨ shape.loop.header = n
  stop : ∀ x, f.stop = some x → s.Sure p.graph x
  member : n ∈ p.graph.rpo
  unmet : ¬s.Seen n
  ready : s.Ready p.graph n

structure Moved (p : Plan) (f : Frame) (s s' : State) : Prop where
  orderly : Orderly p f.scopes s'
  reserved : s'.reserved = s.reserved
  more : ∀ m, s.Seen m → s'.Seen m
  onward : ∀ u ∈ p.graph.rpo, ¬s.Seen u → s'.Seen u → ∀ v ∈ (p.graph.node u).succs,
    s'.Seen v ∨ Awaited f s v

def Job.Orders (p : Plan) : Job → State → State → Prop
  | .emit f n _, s, s' => Due p f n s → Moved p f s s' ∧ s'.Seen n
  | .go f t _, s, s' => Fit p f s → (∀ x, t = some x → s.Sure p.graph x) →
    Moved p f s s' ∧ ∀ x, t = some x → s'.Seen x ∨ Awaited f s x
  | .goOn f _ t _, s, s' => Fit p f s → (∀ x, t = some x → s.Sure p.graph x) →
    Moved p f s s' ∧ ∀ x, t = some x → s'.Seen x ∨ Awaited f s x
  | .each jobs _, s, s' => ∀ ss arms, jobs = armJobs ss arms → Fit p { scopes := ss } s →
    (∀ a ∈ arms, s.Sure p.graph a.target) →
    Moved p { scopes := ss } s s' ∧ ∀ a ∈ arms, s'.Seen a.target ∨ Held ss s a.target

theorem Awaited.same (awaited : Awaited f s x) (reserved : s'.reserved = s.reserved) : Awaited f s' x := by
  unfold Awaited Held at awaited ⊢
  rwa [reserved]

namespace Moved

theorem same (orderly : Orderly p f.scopes s') (marks : s'.marks = s.marks)
    (reserved : s'.reserved = s.reserved) : Moved p f s s' := by
  have met : ∀ m, s'.Seen m ↔ s.Seen m := fun m => by rw [State.Seen,State.Seen,State.mark,State.mark,marks]
  exact ⟨orderly,reserved,fun m => (met m).mpr,fun u _ unmet here => absurd ((met u).mp here) unmet⟩

theorem trans (first : Moved p f s s₁) (second : Moved p f s₁ s₂) : Moved p f s s₂ := by
  refine ⟨second.orderly,second.reserved.trans first.reserved,fun m met => second.more m (first.more m met),
    fun u member unmet here v out => ?_⟩
  by_cases before : s₁.Seen u
  · exact (first.onward u member unmet before v out).imp (second.more v) id
  · exact (second.onward u member before here v out).imp id fun awaited =>
      awaited.same first.reserved.symm

theorem fit (moved : Moved p f s s') (fit : Fit p f s) : Fit p f s' :=
  ⟨moved.orderly,fun shape key member => moved.more _ (fit.opened shape key member),
    fun x stop => (fit.stop x stop).mono moved.more⟩

end Moved

theorem Fit.due (fit : Fit p f s) (sure : s.Sure p.graph t) (way : route p s f t = .inline) :
    Due p f t s := by
  have unmet : ¬s.Seen t := not_not.mpr (routeInline way)
  exact ⟨fit.orderly,fun shape key member => .inl (fit.opened shape key member),fit.stop,sure.1,unmet,
    sure.2.resolve_left unmet⟩

theorem startsOpen (bare : Bare p f n) : ∀ a ∈ p.shapes, a.loop.header = n → isLoopOpen f.scopes n = true := by
  intro a member here
  obtain ⟨b,found⟩ : ∃ b, p.shape? n = some b := by
    rw [← Option.isSome_iff_exists,Plan.shape?,List.find?_isSome]
    exact ⟨a,member,by simpa using here⟩
  have none := bare.2
  rw [shapeAt?,found] at none
  simpa using none

theorem Moved.construct {f' : Frame} {Own : NodeId → Prop} (begun : ∀ k, s.Seen k → s₀.Seen k)
    (new : ∀ k, s₀.Seen k → s.Seen k ∨ Own k) (inner : Moved p f' s₀ s₁)
    (ended : ∀ k, s₂.Seen k ↔ s₁.Seen k) (reserved : s₂.reserved = s.reserved) (rest : Moved p f s₂ s')
    (resolve : ∀ v, Awaited f' s₀ v → s'.Seen v ∨ Awaited f s v)
    (own : ∀ u, Own u → ∀ v ∈ (p.graph.node u).succs, s'.Seen v ∨ Awaited f s v) : Moved p f s s' := by
  refine ⟨rest.orderly,rest.reserved.trans reserved,fun k met => ?_,fun u member unmet here v out => ?_⟩
  · exact rest.more k ((ended k).mpr (inner.more k (begun k met)))
  · by_cases late : s₂.Seen u
    · by_cases early : s₀.Seen u
      · exact own u ((new u early).resolve_left unmet) v out
      · rcases inner.onward u member early ((ended u).mp late) v out with met | awaited
        · exact .inl (rest.more v ((ended v).mpr met))
        · exact resolve v awaited
    · exact (rest.onward u member late here v out).imp id fun awaited => awaited.same reserved.symm

namespace Due

theorem stated (due : Due p f n s) (bare : Bare p f n) (ss : List Stmt) :
    Fit p f (s.statement n ss).2 := by
  have met := s.seenStatement (n := n) ss
  refine ⟨due.orderly.grow (fun k old => (met k).mpr (.inl old)) (fun k new => ?_) fun x held => .inl ?_,
    fun shape key member => ?_,fun x stop => (due.stop x stop).mono fun k old => (met k).mpr (.inl old)⟩
  · rcases (met k).mp new with old | rfl
    · exact .inl old
    · exact .inr ⟨due.ready,startsOpen bare⟩
  · rwa [State.reservedStatement] at held
  · exact (met _).mpr (due.opened shape key member)

theorem sureSucc (due : Due p f n s) (sound : p.Sound) (more : ∀ k, s.Seen k → s'.Seen k) (met : s'.Seen n)
    (out : t ∈ (p.graph.node n).succs) : s'.Sure p.graph t :=
  sureOfUnder (sound.graph.toEdged.underEdge due.member out) met (due.ready.mono more)

theorem branchFollow (due : Due p f n s) (sound : p.Sound) (own : String)
    (follow : p.branchFollows.get? n = some x) :
    (s.enter n own (p.branchFollows.get? n)).Sure p.graph x := by
  have met := s.seenEnter (n := n) own (p.branchFollows.get? n)
  exact sureOfUnder (sound.branches n x follow) ((met n).mpr (.inr rfl))
    (due.ready.mono fun k old => (met k).mpr (.inl old))

theorem entered (due : Due p f n s) (bare : Bare p f n) (own : String) (follow : Option NodeId)
    (meets : ∀ x, follow = some x → (s.enter n own follow).Sure p.graph x) :
    Orderly p f.scopes (s.enter n own follow) ∧ Opened f.scopes (s.enter n own follow) := by
  have met := s.seenEnter (n := n) own follow
  refine ⟨due.orderly.grow (fun k old => (met k).mpr (.inl old)) (fun k new => ?_) fun x held => ?_,
    fun shape key member => (met _).mpr (due.opened shape key member)⟩
  · rcases (met k).mp new with old | rfl
    · exact .inl old
    · exact .inr ⟨due.ready,startsOpen bare⟩
  · rw [State.reservedEnter,List.mem_append] at held
    rcases held with here | old
    · exact .inr (meets x (Option.mem_toList.mp here)).2
    · exact .inl old

theorem enterBranch (due : Due p f n s) (sound : p.Sound) (bare : Bare p f n) :
    Fit p (sideFrame f (p.branchFollows.get? n)) (s.enter n "" (p.branchFollows.get? n)) := by
  have met := s.seenEnter (n := n) "" (p.branchFollows.get? n)
  obtain ⟨orderly,opened⟩ := due.entered bare "" (p.branchFollows.get? n)
    fun x follow => due.branchFollow sound "" follow
  refine ⟨by rwa [sideScopes],by rwa [sideScopes],fun x stop => ?_⟩
  unfold sideFrame at stop
  split at stop
  · exact due.branchFollow sound "" stop
  · exact (due.stop x stop).mono fun k old => (met k).mpr (.inl old)

theorem left (due : Due p f n s) {follow : Option NodeId} (orderly : Orderly p f.scopes s₂)
    (opened : Opened f.scopes s₂) (more : ∀ k, s.Seen k → s₂.Seen k) (met : s₂.Seen n)
    (reserved : s₂.reserved = follow.toList ++ s.reserved) :
    Fit p f (s₂.leave n follow) ∧ (s₂.leave n follow).reserved = s.reserved ∧
      ∀ k, (s₂.leave n follow).Seen k ↔ s₂.Seen k := by
  have same : ∀ k, (s₂.leave n follow).Seen k ↔ s₂.Seen k := fun k =>
    (State.seenLeave follow k).trans (or_iff_left_of_imp fun here => here ▸ met)
  have held := State.reservedLeave (n := n) reserved
  refine ⟨⟨orderly.grow (fun k => (same k).mpr) (fun k here => .inl ((same k).mp here)) fun x here => ?_,
    fun shape key member => (same _).mpr (opened shape key member),
    fun x stop => (due.stop x stop).mono fun k old => (same k).mpr (more k old)⟩,held,same⟩
  rw [held] at here
  exact .inl (reserved ▸ List.mem_append_right _ here)

end Due

theorem awaitedSide {own : String} {follow : Option NodeId}
    (awaited : Awaited (sideFrame f follow) (s.enter n own follow) x) : follow = some x ∨ Awaited f s x := by
  have scopes := sideScopes f follow
  have ends : ((sideFrame f follow).stop = some x ∨ (sideFrame f follow).fall = some x) →
      follow = some x ∨ f.stop = some x ∨ f.fall = some x := by
    unfold sideFrame
    split
    · exact fun either => .inl (either.elim id nofun)
    · exact .inr
  rcases awaited with stop | fall | held | target
  · exact (ends (.inl stop)).imp id fun either => either.imp id .inl
  · exact (ends (.inr fall)).imp id fun either => either.imp id .inl
  · rw [State.reservedEnter,List.mem_append] at held
    exact held.imp Option.mem_toList.mp fun old => .inr (.inr (.inl old))
  · rw [scopes] at target
    exact .inr (.inr (.inr (.inr target)))

namespace Due

theorem switchMeets (due : Due p f n s) (sound : p.Sound) (own : String)
    (follow : switchFollow p f n = some x) :
    (s.enter n own (switchFollow p f n)).Sure p.graph x := by
  have met := s.seenEnter (n := n) own (switchFollow p f n)
  have more : ∀ k, s.Seen k → (s.enter n own (switchFollow p f n)).Seen k := fun k old =>
    (met k).mpr (.inl old)
  rcases Option.or_eq_some_iff.mp follow with meets | ⟨-,stop⟩
  · exact sureOfUnder (sound.switches n x meets) ((met n).mpr (.inr rfl)) (due.ready.mono more)
  · exact (due.stop x stop).mono more

theorem enterSwitch (due : Due p f n s) (sound : p.Sound) (bare : Bare p f n) :
    Fit p { scopes := .switch n (switchFollow p f n) (s.key (switchName n)) :: f.scopes }
      (s.enter n (switchName n) (switchFollow p f n)) := by
  have met := s.seenEnter (n := n) (switchName n) (switchFollow p f n)
  obtain ⟨orderly,opened⟩ := due.entered bare (switchName n) (switchFollow p f n)
    fun x follow => due.switchMeets sound (switchName n) follow
  refine ⟨orderly.openSwitch ((met n).mpr (.inr rfl)) rfl (fun follow key member => ?_) fun x follow => ?_,
    fun shape key member => opened shape key ((List.mem_cons.mp member).resolve_left nofun),nofun⟩
  · exact due.unmet (due.orderly.switches n follow key member).1
  · exact (due.switchMeets sound (switchName n) follow).2

end Due

theorem awaitedArm {own : String} {follow : Option NodeId} {key : Key} {m : NodeId}
    (held : Held (.switch m follow key :: f.scopes) (s.enter n own follow) x) :
    follow = some x ∨ Awaited f s x := by
  rcases held with held | ⟨z,member,target⟩
  · rw [State.reservedEnter,List.mem_append] at held
    exact held.imp Option.mem_toList.mp fun old => .inr (.inr (.inl old))
  · rcases List.mem_cons.mp member with rfl | member
    · exact .inl target
    · exact .inr (.inr (.inr (.inr ⟨z,member,target⟩)))

end RegCode.Recovery
