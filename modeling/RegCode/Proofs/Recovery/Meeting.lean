import RegCode.Proofs.Recovery.Execution
import RegCode.Proofs.Recovery.Growing
import RegCode.Proofs.Recovery.Orderly

/-! Every job meets nodes in order: rule by rule, what holds where it begins holds where it ends. -/
namespace RegCode.Recovery

variable {p : Plan} {f : Frame} {ss : List Scope} {a b : LoopShape} {n t u x y : NodeId}
  {s s₀ s₁ s₂ s' : State}

theorem Orderly.same (orderly : Orderly p ss s) (marks : s'.marks = s.marks)
    (reserved : s'.reserved = s.reserved) : Orderly p ss s' := by
  have met : ∀ m, s'.Seen m ↔ s.Seen m := fun m => by rw [State.Seen,State.Seen,State.mark,State.mark,marks]
  exact orderly.grow (fun m => (met m).mpr) (fun k here => .inl ((met k).mp here))
    fun x member => .inl (reserved ▸ member)

theorem Fit.awaits (fit : Fit p f s) (way : route p s f t ≠ .inline) (marks : s'.marks = s.marks)
    (reserved : s'.reserved = s.reserved) : Moved p f s s' ∧ (s'.Seen t ∨ Awaited f s t) := by
  refine ⟨.same (fit.orderly.same marks reserved) marks reserved,?_⟩
  refine (routeAwaited (p := p) fit.orderly.unguarded way).imp (fun met => ?_) id
  rwa [State.Seen,State.mark,marks]

theorem Fit.stays (fit : Fit p f s) : Moved p f s s := .same fit.orderly rfl rfl

theorem Fit.arm {fall : Option NodeId} (fit : Fit p { scopes := ss } s) : Fit p { scopes := ss, fall } s :=
  ⟨fit.orderly,fit.opened,nofun⟩

theorem Moved.armFit {fall : Option NodeId} (moved : Moved p { scopes := ss, fall } s s')
    (fit : Fit p { scopes := ss } s) : Fit p { scopes := ss } s' :=
  ⟨moved.orderly,fun shape key member => moved.more _ (fit.opened shape key member),nofun⟩

theorem eachMoved {jobs : List (Frame × NodeId)} {out : List Piece} {outs : List (List Piece)}
    (first : Job.Orders p (.go f (some t) out) s s₁) (rest : Job.Orders p (.each jobs outs) s₁ s₂) :
    Job.Orders p (.each ((f,t) :: jobs) (out :: outs)) s s₂ := by
  intro ss arms same fit sure
  cases arms with
  | nil => contradiction
  | cons arm arms =>
    obtain ⟨head,rfl⟩ := List.cons.inj same
    obtain ⟨rfl,rfl⟩ := Prod.mk.inj head
    obtain ⟨here,others⟩ := List.forall_mem_cons.mp sure
    obtain ⟨moved,met⟩ := first fit.arm fun x same => Option.some.inj same ▸ here
    obtain ⟨later,ends⟩ := rest ss arms rfl (moved.armFit fit) fun a member => (others a member).mono moved.more
    -- What falls into the next arm comes to its target, which is met with it.
    have resolve : ∀ v, Awaited { scopes := ss, fall := arms.head?.map (·.target) } s v →
        s₂.Seen v ∨ Held ss s v := by
      rintro v (stop | fall | held)
      · contradiction
      · obtain ⟨arm,next,rfl⟩ := Option.map_eq_some_iff.mp fall
        refine (ends arm (List.mem_of_mem_head? next)).imp id fun held => ?_
        unfold Held at held ⊢
        rwa [moved.reserved] at held
      · exact .inr held
    refine ⟨⟨later.orderly,later.reserved.trans moved.reserved,fun m met => later.more m (moved.more m met),
      fun u member unmet here v out => ?_⟩,fun a member => ?_⟩
    · by_cases before : s₁.Seen u
      · rcases moved.onward u member unmet before v out with met | awaited
        · exact .inl (later.more v met)
        · exact (resolve v awaited).imp id fun held => .inr (.inr held)
      · exact (later.onward u member before here v out).imp id fun awaited => awaited.same moved.reserved.symm
    · rcases List.mem_cons.mp member with rfl | member
      · rcases met _ rfl with met | awaited
        · exact .inl (later.more _ met)
        · exact resolve _ awaited
      · refine (ends a member).imp id fun held => ?_
        unfold Held at held ⊢
        rwa [moved.reserved] at held

theorem orientCases {node : Node} {follow : Option NodeId} {cond : Test} {first second : Option NodeId}
    (sides : orient p s f node follow = (cond,first,second)) :
    (cond = node.test?.getD default ∧ first = node.onTrue ∧
        (second = node.onFalse ∧ follow = none ∨
          second = none ∧ node.onFalse = follow ∧ follow.isSome = true)) ∨
      cond = (node.test?.getD default).negate ∧ first = node.onFalse ∧
        (second = node.onTrue ∨ second = none ∧ node.onTrue = follow ∧ follow.isSome = true) := by
  unfold orient at sides
  dsimp only at sides
  split at sides
  · rename_i meets
    simp only [Bool.and_eq_true,beq_iff_eq] at meets
    cases sides
    exact .inl ⟨rfl,rfl,.inr ⟨rfl,meets.2,meets.1⟩⟩
  · split at sides
    · rename_i meets
      simp only [Bool.and_eq_true,beq_iff_eq] at meets
      cases sides
      exact .inr ⟨rfl,rfl,.inr ⟨rfl,meets.2,meets.1⟩⟩
    · split at sides
      · rename_i short
        simp only [Bool.and_eq_true,Option.isNone_iff_eq_none] at short
        cases sides
        exact .inl ⟨rfl,rfl,.inl ⟨rfl,short.1⟩⟩
      · cases sides
        exact .inr ⟨rfl,rfl,.inl rfl⟩

theorem sideTargets {node : Node} {follow : Option NodeId} {cond : Test} {first second : Option NodeId}
    (ends : node.Ends) (kind : node.kind = .cond) (sides : orient p s f node follow = (cond,first,second)) :
    (∀ x, first = some x ∨ second = some x → x ∈ node.succs) ∧
      ∀ v ∈ node.succs, first = some v ∨ second = some v ∨ follow = some v := by
  obtain ⟨-,t,e,onTrue,onFalse,succs⟩ := Node.endsCond ends kind
  have ways := orientCases sides
  rw [onTrue,onFalse] at ways
  simp only [succs]
  grind

namespace Due

theorem sureArms (due : Due p f n s) (sound : p.Sound) (kind : (p.graph.node n).kind = .switch) :
    ∀ a ∈ switchArms p f n, (s.enter n (switchName n) (switchFollow p f n)).Sure p.graph a.target := by
  intro a member
  obtain ⟨-,-,succs,-⟩ := Node.endsSwitch (sound.graph.ends n due.member) kind
  have met := s.seenEnter (n := n) (switchName n) (switchFollow p f n)
  have gathered := armsGathered p.graph (p.graph.node n) (switchFollow p f n)
  refine due.sureSucc sound (fun k old => (met k).mpr (.inl old)) ((met n).mpr (.inr rfl))
    ((succs _).mpr ?_)
  exact ((gathered.targets a.target).mp (List.mem_map_of_mem member)).elim .inr fun here => .inl here.1

theorem resumes {own : String} {follow : Option NodeId} {f' : Frame} (due : Due p f n s)
    (inner : Moved p f' (s.enter n own follow) s₁) (orderly : Orderly p f.scopes s₁)
    (meets : ∀ x, follow = some x → (s.enter n own follow).Sure p.graph x) :
    (Fit p f (s₁.leave n follow) ∧ ∀ x, follow = some x → (s₁.leave n follow).Sure p.graph x) ∧
      (s₁.leave n follow).reserved = s.reserved ∧ s₁.Seen n ∧
        ∀ k, (s₁.leave n follow).Seen k ↔ s₁.Seen k := by
  have met := s.seenEnter (n := n) own follow
  have here : s₁.Seen n := inner.more n ((met n).mpr (.inr rfl))
  have opened : Opened f.scopes s₁ := fun shape key member =>
    inner.more _ ((met _).mpr (due.opened shape key member))
  obtain ⟨fit,held,same⟩ := due.left orderly opened (fun k old => inner.more k ((met k).mpr (.inl old))) here
    (inner.reserved.trans (s.reservedEnter own follow))
  exact ⟨⟨fit,fun x leaves => (meets x leaves).mono fun k old => (same k).mpr (inner.more k old)⟩,held,here,
    same⟩

theorem around {own : String} {follow : Option NodeId} {f' : Frame} {lead more : List Piece}
    (due : Due p f n s) (inner : Moved p f' (s.enter n own follow) s₁) (orderly : Orderly p f.scopes s₁)
    (meets : ∀ x, follow = some x → (s.enter n own follow).Sure p.graph x)
    (rest : Job.Orders p (.goOn f lead follow more) (s₁.leave n follow) s')
    (resolve : ∀ v, Awaited f' (s.enter n own follow) v → follow = some v ∨ Awaited f s v)
    (targets : ∀ v ∈ (p.graph.node n).succs,
      s₁.Seen v ∨ Awaited f' (s.enter n own follow) v ∨ follow = some v) :
    Moved p f s s' ∧ s'.Seen n := by
  have met := s.seenEnter (n := n) own follow
  obtain ⟨⟨fit,sure⟩,held,here,same⟩ := due.resumes inner orderly meets
  obtain ⟨moved,ends⟩ := rest fit sure
  have follows : ∀ v, follow = some v → s'.Seen v ∨ Awaited f s v := fun v here =>
    (ends v here).imp id fun awaited => awaited.same held.symm
  have settle : ∀ v, Awaited f' (s.enter n own follow) v → s'.Seen v ∨ Awaited f s v := fun v awaited =>
    (resolve v awaited).elim (follows v) .inr
  refine ⟨.construct (fun k old => (met k).mpr (.inl old)) (fun k new => (met k).mp new) inner same held moved
    settle ?_,moved.more n ((same n).mpr here)⟩
  rintro u rfl v out
  rcases targets v out with seen | awaited | leaves
  · exact .inl (moved.more v ((same v).mpr seen))
  · exact settle v awaited
  · exact follows v leaves

end Due

theorem Due.fresh {shape : LoopShape} (due : Due p f n s) (starts : shapeAt? p f n = some shape) :
    Fresh p f.scopes s shape ∧ shape.loop.header = n := by
  obtain ⟨header,outside⟩ := headerOfShapeAt starts
  obtain ⟨found,-⟩ := Option.filter_eq_some_iff.mp starts
  refine ⟨⟨due.orderly,fun b key member => (due.opened b key member).resolve_right fun here => ?_,
    List.mem_of_find?_eq_some found,header.symm ▸ due.unmet,header.symm ▸ outside⟩,header⟩
  rw [loopOpenIff.mpr ⟨b,key,member,here⟩] at outside
  contradiction

namespace Fresh

/-- What is written inside of a loop. -/
structure Body (p : Plan) (f : Frame) (a : LoopShape) (f' : Frame) (s s₀ s₁ : State) : Prop where
  scopes : ∃ key, f'.scopes = .loop a key :: f.scopes
  fall : f'.fall = none
  stop : ∀ x, f'.stop = some x → s₁.Seen x
  again : s₁.Seen a.continueAt
  begun : ∀ k, s.Seen k → s₀.Seen k
  new : ∀ k, s₀.Seen k → s.Seen k ∨ k ∈ a.loop.body
  reserved : s₀.reserved = s.reserved
  moved : Moved p f' s₀ s₁
  header : s₁.Seen a.loop.header
  own : ∀ u ∈ a.loop.body, s₀.Seen u → ∀ v ∈ (p.graph.node u).succs,
    s₁.Seen v ∨ Awaited f' s₀ v ∨ a.follow = some v

namespace Body

variable {f' : Frame}

theorem leaves (body : Body p f a f' s s₀ s₁) (awaited : Awaited f' s₀ x) :
    s₁.Seen x ∨ a.follow = some x ∨ Held f.scopes s x := by
  obtain ⟨key,scopes⟩ := body.scopes
  rcases awaited with stop | fall | held | ⟨z,member,target⟩
  · exact .inl (body.stop x stop)
  · rw [body.fall] at fall
    contradiction
  · exact .inr (.inr (.inl (body.reserved ▸ held)))
  · rw [scopes] at member
    rcases List.mem_cons.mp member with rfl | member
    · rcases target with rfl | follow
      · exact .inl body.again
      · exact .inr (.inl follow)
    · exact .inr (.inr (.inr ⟨z,member,target⟩))

theorem onward (body : Body p f a f' s s₀ s₁) (member : u ∈ p.graph.rpo) (unmet : ¬s.Seen u)
    (met : s₁.Seen u) (out : y ∈ (p.graph.node u).succs) :
    s₁.Seen y ∨ a.follow = some y ∨ Held f.scopes s y := by
  by_cases early : s₀.Seen u
  · rcases body.own u ((body.new u early).resolve_left unmet) early y out with met | awaited | follow
    · exact .inl met
    · exact body.leaves awaited
    · exact .inr (.inl follow)
  · exact (body.moved.onward u member early met y out).elim .inl body.leaves

theorem allMet (body : Body p f a f' s s₀ s₁) (fresh : Fresh p f.scopes s a) (sound : p.Sound) :
    ∀ y ∈ a.loop.body, s₁.Seen y := by
  refine fresh.allMet sound body.header fun u inside met v out stays other => ?_
  rcases body.onward (sound.headerDominates fresh.shape inside).1 (fresh.untouched sound inside) met out with
    met | follow | held
  · exact .inl met
  · exact absurd stays ((sound.shapes a fresh.shape).follow v follow).1
  · exact .inr held

theorem sureFollow (body : Body p f a f' s s₀ s₁) (fresh : Fresh p f.scopes s a) (sound : p.Sound)
    (orderly : Orderly p f.scopes s₁) (follow : a.follow = some x) : s₁.Sure p.graph x := by
  obtain ⟨-,w,inside,out⟩ := (sound.shapes a fresh.shape).follow x follow
  have met := body.allMet fresh sound w inside
  have source := (sound.headerDominates fresh.shape inside).1
  refine sureOfUnder (sound.graph.toEdged.underEdge source out) met (orderly.above w met ?_)
  rintro ⟨b,key,member,kind,test⟩
  exact fresh.notAbove sound member
    (sound.testInside fresh.shape (fresh.orderly.loops b key member).1 kind test inside)

theorem resumes (body : Body p f a f' s s₀ s₁) (due : Due p f n s) (fresh : Fresh p f.scopes s a)
    (header : a.loop.header = n) (sound : p.Sound) (same : ∀ k, s₂.Seen k ↔ s₁.Seen k)
    (reserved : s₂.reserved = s₁.reserved) :
    Fit p f s₂ ∧ ∀ x, a.follow = some x → s₂.Sure p.graph x := by
  obtain ⟨key,scopes⟩ := body.scopes
  have inner : Orderly p (.loop a key :: f.scopes) s₁ := scopes ▸ body.moved.orderly
  have grown : ∀ k, s.Seen k → s₁.Seen k := fun k old => body.moved.more k (body.begun k old)
  have orderly := inner.closeLoop sound (body.allMet fresh sound) (header ▸ due.ready.mono grown)
  refine ⟨⟨orderly.grow (fun k => (same k).mpr) (fun k here => .inl ((same k).mp here)) fun x here => ?_,
    fun shape k member => (same _).mpr (grown _ (fresh.opened shape k member)),
    fun x stop => (due.stop x stop).mono fun k old => (same k).mpr (grown k old)⟩,fun x follow =>
    (body.sureFollow fresh sound orderly follow).mono fun k => (same k).mpr⟩
  exact .inl (reserved ▸ here)

theorem around {lead more : List Piece} (body : Body p f a f' s s₀ s₁) (due : Due p f n s)
    (fresh : Fresh p f.scopes s a) (header : a.loop.header = n) (sound : p.Sound)
    (rest : Job.Orders p (.goOn f lead a.follow more) s₂ s') (same : ∀ k, s₂.Seen k ↔ s₁.Seen k)
    (reserved : s₂.reserved = s₁.reserved) : Moved p f s s' ∧ s'.Seen n := by
  have grown : ∀ k, s.Seen k → s₁.Seen k := fun k old => body.moved.more k (body.begun k old)
  have held : s₂.reserved = s.reserved := reserved.trans (body.moved.reserved.trans body.reserved)
  obtain ⟨fit,sure⟩ := body.resumes due fresh header sound same reserved
  obtain ⟨moved,ends⟩ := rest fit sure
  refine ⟨⟨moved.orderly,moved.reserved.trans held,fun k old => moved.more k ((same k).mpr (grown k old)),
    fun u member unmet here v out => ?_⟩,moved.more n ((same n).mpr (header ▸ body.header))⟩
  by_cases late : s₁.Seen u
  · rcases body.onward member unmet late out with met | follow | leaves
    · exact .inl (moved.more v ((same v).mpr met))
    · exact (ends v follow).imp id fun awaited => awaited.same held.symm
    · exact .inr (.inr (.inr leaves))
  · exact (moved.onward u member (fun here => late ((same u).mp here)) here v out).imp id
      fun awaited => awaited.same held.symm

end Body

end Fresh

theorem seenOpenLoop (k : NodeId) : (s.openLoop n).Seen k ↔ s.Seen k := State.seenPlace k

theorem State.reservedOpen (s : State) (n m : NodeId) :
    ((s.openLoop n).setMark m .entered).reserved = s.reserved := (s.bump.placeRest n (s.key (loopName n))).2.2.1

namespace Fresh

theorem pretestSuccs (fresh : Fresh p f.scopes s a) (sound : p.Sound) (header : a.loop.header = n)
    (kind : a.kind = .pretest) : ∃ x, a.follow = some x ∧
      ∀ v, v ∈ (p.graph.node n).succs ↔ v = a.start ∨ v = x := by
  have fits := sound.shapes a fresh.shape
  obtain ⟨-,cond,-,x,follow,ways⟩ := fits.pretest kind
  have ends := sound.graph.ends n (header ▸ (sound.headerDominates fresh.shape (sound.header fresh.shape)).1)
  obtain ⟨-,t,e,onTrue,onFalse,succs⟩ := Node.endsCond ends (header ▸ cond)
  refine ⟨x,follow,fun v => ?_⟩
  rw [header,onTrue,onFalse] at ways
  simp only [Option.some.injEq] at ways
  rw [succs v]
  grind

end Fresh

namespace Due

variable {latch : NodeId} {body : List Piece}

theorem beginPretest (due : Due p f n s) (fresh : Fresh p f.scopes s a) (sound : p.Sound)
    (header : a.loop.header = n) (kind : a.kind = .pretest) :
    Fit p { scopes := loopScopes f a n s, stop := some n } ((s.openLoop n).setMark n .entered) ∧
      ∀ x, some a.start = some x → ((s.openLoop n).setMark n .entered).Sure p.graph x := by
  have met : ∀ k, ((s.openLoop n).setMark n .entered).Seen k ↔ s.Seen k ∨ k = n := fun k =>
    (State.seenSetMark (by decide) k).trans (or_congr (seenOpenLoop k) Iff.rfl)
  have begun : ∀ k, s.Seen k → ((s.openLoop n).setMark n .entered).Seen k := fun k old =>
    (met k).mpr (.inl old)
  obtain ⟨x,-,succs⟩ := fresh.pretestSuccs sound header kind
  have orderly : Orderly p (loopScopes f a n s) ((s.openLoop n).setMark n .entered) :=
    fresh.begin sound (header ▸ due.ready) (by rw [header]; rfl) begun
      (fun k new => ((met k).mp new).imp id fun here => .inl (here.trans header.symm))
      (fun t other => by rw [kind] at other; contradiction) (s.reservedOpen n n)
  refine ⟨⟨orderly,fun shape key member => ?_,fun x same => Option.some.inj same ▸
    ⟨due.member,.inl ((met n).mpr (.inr rfl))⟩⟩,fun x same => ?_⟩
  · rcases List.mem_cons.mp member with same | member
    · cases same
      exact (met _).mpr (.inr header)
    · exact begun _ (fresh.opened shape key member)
  · cases same
    exact due.sureSucc sound begun ((met n).mpr (.inr rfl)) ((succs _).mpr (.inl rfl))

theorem pretestBody (due : Due p f n s) (fresh : Fresh p f.scopes s a) (sound : p.Sound)
    (header : a.loop.header = n) (kind : a.kind = .pretest)
    (inner : Job.Orders p (.go { scopes := loopScopes f a n s, stop := some n } (some a.start) body)
      ((s.openLoop n).setMark n .entered) s₁) :
    Fresh.Body p f a { scopes := loopScopes f a n s, stop := some n } s
      ((s.openLoop n).setMark n .entered) s₁ := by
  have met : ∀ k, ((s.openLoop n).setMark n .entered).Seen k ↔ s.Seen k ∨ k = n := fun k =>
    (State.seenSetMark (by decide) k).trans (or_congr (seenOpenLoop k) Iff.rfl)
  obtain ⟨x,follow,succs⟩ := fresh.pretestSuccs sound header kind
  obtain ⟨fit,sure⟩ := due.beginPretest fresh sound header kind
  obtain ⟨moved,ends⟩ := inner fit sure
  have here : s₁.Seen n := moved.more n ((met n).mpr (.inr rfl))
  exact
    { scopes := ⟨_,rfl⟩, fall := rfl, begun := fun k old => (met k).mpr (.inl old)
      reserved := s.reservedOpen n n, moved
      stop := fun x same => Option.some.inj same ▸ here
      again := by rwa [((sound.shapes a fresh.shape).pretest kind).1,header]
      new := fun k new => ((met k).mp new).imp id fun same : k = n =>
        same ▸ header ▸ sound.header fresh.shape
      header := by rwa [header]
      own := fun u inside early v out => by
        obtain rfl := ((met u).mp early).resolve_left (fresh.untouched sound inside)
        rcases (succs v).mp out with rfl | rfl
        · exact (ends _ rfl).imp id .inl
        · exact .inr (.inr follow) }

theorem seenTested (k : NodeId) :
    (((s.openLoop n).place latch (s.key (loopName n))).setMark latch .entered).Seen k ↔
      s.Seen k ∨ k = latch :=
  (State.seenSetMark (by decide) k).trans (or_congr ((State.seenPlace k).trans (seenOpenLoop k)) Iff.rfl)

theorem reservedTested :
    (((s.openLoop n).place latch (s.key (loopName n))).setMark latch .entered).reserved = s.reserved :=
  ((s.openLoop n).placeRest latch (s.key (loopName n))).2.2.1.trans
    (s.bump.placeRest n (s.key (loopName n))).2.2.1

theorem beginPosttest (due : Due p f n s) (fresh : Fresh p f.scopes s a) (sound : p.Sound)
    (header : a.loop.header = n) (kind : a.kind = .posttest) (test : a.test = some latch) :
    Due p { scopes := loopScopes f a n s, stop := some latch } n
      (((s.openLoop n).place latch (s.key (loopName n))).setMark latch .entered) := by
  obtain ⟨inside,other,-⟩ := sound.testSuccs fresh.shape kind test
  have met : ∀ k, (((s.openLoop n).place latch (s.key (loopName n))).setMark latch .entered).Seen k ↔
      s.Seen k ∨ k = latch := seenTested
  have begun : ∀ k, s.Seen k →
      (((s.openLoop n).place latch (s.key (loopName n))).setMark latch .entered).Seen k := fun k old =>
    (met k).mpr (.inl old)
  have orderly : Orderly p (loopScopes f a n s)
      (((s.openLoop n).place latch (s.key (loopName n))).setMark latch .entered) :=
    fresh.begin sound (header ▸ due.ready) (by rw [header]; rfl) begun
      (fun k new => ((met k).mp new).imp id fun same : k = latch => .inr ⟨kind,same ▸ test⟩)
      (fun t _ here => (met t).mpr (.inr (Option.some.inj (here.symm.trans test)))) reservedTested
  refine ⟨orderly,fun shape key member => ?_,fun x same => Option.some.inj same ▸
    ⟨(sound.headerDominates fresh.shape inside).1,.inl ((met latch).mpr (.inr rfl))⟩,due.member,
    fun early => ?_,due.ready.mono begun⟩
  · rcases List.mem_cons.mp member with same | member
    · cases same
      exact .inr header
    · exact .inl (begun _ (fresh.opened shape key member))
  · exact ((met n).mp early).elim due.unmet fun same => other (same.symm.trans header.symm)

theorem posttestBody (due : Due p f n s) (fresh : Fresh p f.scopes s a) (sound : p.Sound)
    (header : a.loop.header = n) (kind : a.kind = .posttest) (test : a.test = some latch)
    (inner : Job.Orders p (.emit { scopes := loopScopes f a n s, stop := some latch } n body)
      (((s.openLoop n).place latch (s.key (loopName n))).setMark latch .entered) s₁) :
    Fresh.Body p f a { scopes := loopScopes f a n s, stop := some latch } s
      (((s.openLoop n).place latch (s.key (loopName n))).setMark latch .entered) s₁ := by
  obtain ⟨inside,-,again,x,follow,succs⟩ := sound.testSuccs fresh.shape kind test
  have met : ∀ k, (((s.openLoop n).place latch (s.key (loopName n))).setMark latch .entered).Seen k ↔
      s.Seen k ∨ k = latch := seenTested
  obtain ⟨moved,here⟩ := inner (due.beginPosttest fresh sound header kind test)
  have latched : s₁.Seen latch := moved.more latch ((met latch).mpr (.inr rfl))
  exact
    { scopes := ⟨_,rfl⟩, fall := rfl, begun := fun k old => (met k).mpr (.inl old)
      reserved := reservedTested, moved
      stop := fun x same => Option.some.inj same ▸ latched
      again := again ▸ latched
      new := fun k new => ((met k).mp new).imp id fun same : k = latch => same ▸ inside
      header := header ▸ here
      own := fun u inside early v out => by
        obtain rfl := ((met u).mp early).resolve_left (fresh.untouched sound inside)
        rcases (succs v).mp out with rfl | rfl
        · exact .inl (header ▸ here)
        · exact .inr (.inr follow) }

theorem beginEndless (due : Due p f n s) (fresh : Fresh p f.scopes s a) (sound : p.Sound)
    (header : a.loop.header = n) (kind : a.kind = .endless) :
    Due p { scopes := loopScopes f a n s } n (s.openLoop n) := by
  have met : ∀ k, (s.openLoop n).Seen k ↔ s.Seen k := seenOpenLoop
  have orderly : Orderly p (loopScopes f a n s) (s.openLoop n) :=
    fresh.begin sound (header ▸ due.ready) (by rw [header]; rfl) (fun k => (met k).mpr)
      (fun k new => .inl ((met k).mp new)) (fun t other => by rw [kind] at other; contradiction)
      (s.reservedOpen n n)
  refine ⟨orderly,fun shape key member => ?_,nofun,due.member,fun early => due.unmet ((met n).mp early),
    due.ready.mono fun k => (met k).mpr⟩
  rcases List.mem_cons.mp member with same | member
  · cases same
    exact .inr header
  · exact .inl ((met _).mpr (fresh.opened shape key member))

theorem endlessBody (due : Due p f n s) (fresh : Fresh p f.scopes s a) (sound : p.Sound)
    (header : a.loop.header = n) (kind : a.kind = .endless)
    (inner : Job.Orders p (.emit { scopes := loopScopes f a n s } n body) (s.openLoop n) s₁) :
    Fresh.Body p f a { scopes := loopScopes f a n s } s (s.openLoop n) s₁ := by
  have met : ∀ k, (s.openLoop n).Seen k ↔ s.Seen k := seenOpenLoop
  obtain ⟨moved,here⟩ := inner (due.beginEndless fresh sound header kind)
  exact
    { scopes := ⟨_,rfl⟩, fall := rfl, begun := fun k => (met k).mpr, reserved := s.reservedOpen n n, moved
      stop := nofun
      again := by rw [(sound.shapes a fresh.shape).endless kind,header]; exact here
      new := fun k new => .inl ((met k).mp new)
      header := header ▸ here
      own := fun u inside early => absurd ((met u).mp early) (fresh.untouched sound inside) }

end Due

theorem Fresh.endless (fresh : Fresh p ss s a) (sound : p.Sound) (kind : a.kind ≠ .pretest)
    (test : a.kind = .posttest → a.test = none) : a.kind = .endless := by
  cases same : a.kind with
  | pretest => exact absurd same kind
  | endless => rfl
  | posttest =>
    obtain ⟨latch,-,some,-⟩ := (sound.shapes a fresh.shape).posttest same
    exact absurd (some.symm.trans (test same)) (Option.some_ne_none latch)

theorem ordersLast (sound : p.Sound) (bare : Bare p f n) (noBranch : (p.graph.node n).kind ≠ .cond)
    (noSwitch : (p.graph.node n).kind ≠ .switch)
    (alone : ∀ t, (p.graph.node n).kind = .stmt → (p.graph.node n).succs ≠ [t]) :
    Job.Orders p (.emit f n [(s.statement n (p.graph.node n).stmts).1]) s (s.statement n (p.graph.node
      n).stmts).2 := by
  intro due
  have met := s.seenStatement (n := n) (p.graph.node n).stmts
  have noSuccs : (p.graph.node n).succs = [] := by
    have ends := sound.graph.ends n due.member
    cases kind : (p.graph.node n).kind with
    | stmt =>
      simp only [Node.Ends,kind] at ends
      obtain ⟨⟨t,succ⟩,-⟩ := ends
      exact absurd succ (alone t kind)
    | cond => exact absurd kind noBranch
    | switch => exact absurd kind noSwitch
    | ret | throw =>
      simp only [Node.Ends,kind] at ends
      exact ends.1
  refine ⟨⟨(due.stated bare _).orderly,State.reservedStatement _,fun k old => (met k).mpr (.inl old),
    fun u member unmet here v out => ?_⟩,(met n).mpr (.inr rfl)⟩
  obtain rfl := ((met u).mp here).resolve_left unmet
  rw [noSuccs] at out
  contradiction

theorem ordersPlain {out : List Piece} (sound : p.Sound) (bare : Bare p f n)
    (kind : (p.graph.node n).kind = .stmt) (succ : (p.graph.node n).succs = [t])
    (rest : Writes p (.go f (some t) out) (s.statement n (p.graph.node n).stmts).2 s')
    (ih : Job.Orders p (.go f (some t) out) (s.statement n (p.graph.node n).stmts).2 s') :
    Job.Orders p (.emit f n ((s.statement n (p.graph.node n).stmts).1 :: out)) s s' := by
  intro due
  have met := s.seenStatement (n := n) (p.graph.node n).stmts
  have more : ∀ k, s.Seen k → (s.statement n (p.graph.node n).stmts).2.Seen k := fun k old =>
    (met k).mpr (.inl old)
  have held : (s.statement n (p.graph.node n).stmts).2.reserved = s.reserved := State.reservedStatement _
  have fit := due.stated bare (p.graph.node n).stmts
  obtain ⟨moved,ends⟩ := ih fit fun x same => by
    cases same
    exact due.sureSucc sound more ((met n).mpr (.inr rfl)) (succ ▸ List.mem_singleton_self t)
  refine ⟨.construct more (fun k new => (met k).mp new) fit.stays (fun k => Iff.rfl) held moved
    (fun v awaited => .inr (awaited.same held.symm)) ?_,moved.more n ((met n).mpr (.inr rfl))⟩
  rintro u rfl v out
  rw [succ,List.mem_singleton] at out
  exact out ▸ (ends t rfl).imp id fun awaited => awaited.same held.symm

theorem ordersBranch {cond : Test} {first second : Option NodeId} {lead onTrue onFalse more : List Piece}
    {s₃ : State} (sound : p.Sound) (bare : Bare p f n) (kind : (p.graph.node n).kind = .cond)
    (sides : orient p s f (p.graph.node n) (p.branchFollows.get? n) = (cond,first,second))
    (start : s.lead n (p.graph.node n).stmts = (lead,s₀))
    (ihLeft : Job.Orders p (.go (sideFrame f (p.branchFollows.get? n)) first onTrue) (s₀.enter n ""
      (p.branchFollows.get? n)) s₁)
    (ihRight : Job.Orders p (.go (sideFrame f (p.branchFollows.get? n)) second onFalse) s₁ s₂)
    (rest : Writes p (.goOn f (lead ++ branchPieces (s₀.key "") n cond (p.branchFollows.get? n).isSome onTrue
      onFalse) (p.branchFollows.get? n) more) (s₂.leave n (p.branchFollows.get? n)) s₃)
    (ihRest : Job.Orders p (.goOn f (lead ++ branchPieces (s₀.key "") n cond (p.branchFollows.get? n).isSome
      onTrue onFalse) (p.branchFollows.get? n) more) (s₂.leave n (p.branchFollows.get? n)) s₃) :
    Job.Orders p (.emit f n (lead ++ branchPieces (s₀.key "") n cond (p.branchFollows.get? n).isSome onTrue
      onFalse ++ more)) s s₃ := by
  intro due
  have ends := sound.graph.ends n due.member
  obtain ⟨rfl,rfl⟩ := leadAlone (Node.endsCond ends kind).1 start
  have met := s₀.seenEnter (n := n) "" (p.branchFollows.get? n)
  have begun : ∀ k, s₀.Seen k → (s₀.enter n "" (p.branchFollows.get? n)).Seen k := fun k old =>
    (met k).mpr (.inl old)
  have fit := due.enterBranch sound bare
  have sure : ∀ x ∈ (p.graph.node n).succs, (s₀.enter n "" (p.branchFollows.get? n)).Sure p.graph x :=
    fun x out => due.sureSucc sound begun ((met n).mpr (.inr rfl)) out
  obtain ⟨targets,either⟩ := sideTargets ends kind sides
  obtain ⟨movedLeft,endsLeft⟩ := ihLeft fit fun x same => sure x (targets x (.inl same))
  obtain ⟨movedRight,endsRight⟩ := ihRight (movedLeft.fit fit) fun x same =>
    (sure x (targets x (.inr same))).mono movedLeft.more
  have scopes := sideScopes f (p.branchFollows.get? n)
  refine due.around (movedLeft.trans movedRight) (scopes ▸ movedRight.orderly)
    (fun x follow => due.branchFollow sound "" follow) ihRest (fun v => awaitedSide) fun v out => ?_
  rcases either v out with same | same | follow
  · exact (endsLeft v same).elim (fun met => .inl (movedRight.more v met)) fun awaited =>
      .inr (.inl awaited)
  · exact (endsRight v same).imp id fun awaited => .inl (awaited.same movedLeft.reserved.symm)
  · exact .inr (.inr follow)

theorem ordersSwitch {lead more : List Piece} {bodies : List (List Piece)} (sound : p.Sound) (bare : Bare p f n)
    (kind : (p.graph.node n).kind = .switch) (start : s.lead n (p.graph.node n).stmts = (lead,s₀))
    (ihArms : Job.Orders p (.each (switchJobs p f n s₀) bodies) (s₀.enter n (switchName n) (switchFollow p f
      n)) s₁)
    (rest : Writes p (.goOn f (lead ++ [.switch (s₀.key (switchName n)) n (switchValue (p.graph.node n))
      (writtenArms p f n bodies)]) (switchFollow p f n) more) (s₁.leave n (switchFollow p f n)) s₂)
    (ihRest : Job.Orders p (.goOn f (lead ++ [.switch (s₀.key (switchName n)) n (switchValue (p.graph.node n))
      (writtenArms p f n bodies)]) (switchFollow p f n) more) (s₁.leave n (switchFollow p f n)) s₂) :
    Job.Orders p (.emit f n (lead ++ [.switch (s₀.key (switchName n)) n (switchValue (p.graph.node n))
      (writtenArms p f n bodies)] ++ more)) s s₂ := by
  intro due
  obtain ⟨alone,⟨t,default⟩,succs,-⟩ := Node.endsSwitch (sound.graph.ends n due.member) kind
  obtain ⟨rfl,rfl⟩ := leadAlone alone start
  have gathered := armsGathered p.graph (p.graph.node n) (switchFollow p f n)
  obtain ⟨moved,ends⟩ := ihArms _ _ rfl (due.enterSwitch sound bare) (due.sureArms sound kind)
  refine due.around moved moved.orderly.closeSwitch
    (fun x follow => due.switchMeets sound (switchName n) follow) ihRest (fun v awaited => ?_) fun v out => ?_
  · rcases awaited with stop | fall | held
    · contradiction
    · contradiction
    · exact awaitedArm held
  · by_cases meets : switchFollow p f n = some v
    · exact .inr (.inr meets)
    · obtain ⟨a,member,rfl⟩ := List.mem_map.mp ((gathered.targets v).mpr
        (((succs v).mp out).elim (fun here => .inr ⟨here,meets⟩) .inl))
      exact (ends a member).imp id fun held => .inl (.inr (.inr held))

theorem Writes.orders {job : Job} (writes : Writes p job s s') (sound : p.Sound) : job.Orders p s s' := by
  induction writes with
  | nowhere => exact fun fit _ => ⟨fit.stays,fun x none => absurd none.symm (Option.some_ne_none x)⟩
  | inline way rest ih =>
    intro fit sure
    obtain ⟨moved,met⟩ := ih (fit.due (sure _ rfl) way)
    exact ⟨moved,fun x same => .inl (Option.some.inj same ▸ met)⟩
  | @falls f t s way =>
    intro fit _
    obtain ⟨moved,ends⟩ := fit.awaits (t := t) (by simp [way]) (Eq.refl s.marks) rfl
    exact ⟨moved,fun x same => Option.some.inj same ▸ ends⟩
  | @breaks f t scope s way | @continues f t scope s way =>
    intro fit _
    obtain ⟨moved,ends⟩ := fit.awaits (t := t) (by simp [way])
      (s.nameScopeFields scope).1 (by cases scope <;> rfl)
    exact ⟨moved,fun x same => Option.some.inj same ▸ ends⟩
  | @jumps f t s way =>
    intro fit _
    obtain ⟨moved,ends⟩ := fit.awaits (t := t) (by simp [way]) (s.gotoFields t).1
      (s.gotoRest t).1
    exact ⟨moved,fun x same => Option.some.inj same ▸ ends⟩
  | nothing =>
    intro ss arms same fit sure
    cases arms with
    | nil => exact ⟨fit.stays,fun a member => absurd member List.not_mem_nil⟩
    | cons a arms => contradiction
  | each first rest ihFirst ihRest => exact eachMoved ihFirst ihRest
  | ends => exact fun fit _ => ⟨fit.stays,fun x none => absurd none.symm (Option.some_ne_none x)⟩
  | @never f lead t s jump way =>
    intro fit _
    obtain ⟨moved,ends⟩ := fit.awaits way (Eq.refl s.marks) rfl
    exact ⟨moved,fun x same => Option.some.inj same ▸ ends⟩
  | behind jump way rest ih =>
    intro fit sure
    obtain ⟨moved,met⟩ := ih (fit.due (sure _ rfl) way)
    exact ⟨moved,fun x same => .inl (Option.some.inj same ▸ met)⟩
  | on passes rest ih => exact ih
  | last bare noBranch noSwitch alone => exact ordersLast sound bare noBranch noSwitch alone
  | plain bare kind succ rest ih => exact ordersPlain sound bare kind succ rest ih
  | branch bare kind sides start left right rest ihLeft ihRight ihRest =>
    exact ordersBranch sound bare kind sides start ihLeft ihRight rest ihRest
  | switch bare kind start arms rest ihArms ihRest => exact ordersSwitch sound bare kind start ihArms rest ihRest
  | @pretest f n found shape body more s s₁ s₂ outside starts settled kind inner rest ihInner ihRest =>
    intro due
    obtain ⟨fresh,header⟩ := due.fresh starts
    obtain rfl : found = shape := (fresh.settles sound).symm.trans settled
    have written := due.pretestBody fresh sound header kind ihInner
    refine written.around due fresh header sound ihRest (fun k => ?_) rfl
    exact (State.seenSetMark (by decide) k).trans (or_iff_left_of_imp fun same => same ▸ header ▸ written.header)
  | @posttest f n found shape latch body more s s₁ s₂ outside starts settled kind test inner rest
      ihInner ihRest =>
    intro due
    obtain ⟨fresh,header⟩ := due.fresh starts
    obtain rfl : found = shape := (fresh.settles sound).symm.trans settled
    have written := due.posttestBody fresh sound header kind test ihInner
    refine written.around due fresh header sound ihRest (fun k => ?_) rfl
    exact (State.seenSetMark (by decide) k).trans (or_iff_left_of_imp fun same => written.stop k (same ▸ rfl))
  | @endless f n found shape body more s s₁ s₂ outside starts settled kind test inner rest ihInner
      ihRest =>
    intro due
    obtain ⟨fresh,header⟩ := due.fresh starts
    obtain rfl : found = shape := (fresh.settles sound).symm.trans settled
    have written := due.endlessBody fresh sound header (fresh.endless sound kind test) ihInner
    exact written.around due fresh header sound ihRest (fun k => Iff.rfl) rfl
  | cleanup outside | catches outside | again outside =>
    rw [noPending sound.graph.regions] at outside
    contradiction

end RegCode.Recovery
