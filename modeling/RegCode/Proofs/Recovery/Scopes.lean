import RegCode.Proofs.Recovery.Once
import RegCode.Proofs.Recovery.Strokes

/-! No loop and no switch is written twice. -/
namespace RegCode.Recovery

open RegCode.Tree

variable {loops : Bool} {p : Plan} {f : Frame} {n : NodeId} {s s₁ s₂ s' : State}

def head? (loops : Bool) : Piece → Option Int
  | .loop _ _ _ h _ _ => if loops then some h else none
  | .switch _ n _ _ => if loops then none else some n
  | _ => none

@[simp] theorem headStmts (l : Key) (n : Int) (ss : List Stmt) : head? loops (.stmts l n ss) = none := rfl

@[simp] theorem headGuarded (l : Key) (r : RegionId) (body : List Piece)
    (catches : List (CatchHead × List Piece)) (cleanup : Option (List Piece)) :
    head? loops (.guarded l r body catches cleanup) = none := rfl

def heads (loops : Bool) (ts : List Piece) : List Item := ((partsAll ts).filterMap (head? loops)).map .node

theorem headsAppend (ts us : List Piece) : heads loops (ts ++ us) = heads loops ts ++ heads loops us := by
  rw [heads,partsAppend,List.filterMap_append,List.map_append]
  rfl

theorem headsDrop (loops : Bool) {ts : List Piece} {j : Piece} {l : Key} (last : ts.getLast? = some j)
    (jump : j = .breakTo l "" ∨ j = .continueTo l "") : heads loops ts.dropLast = heads loops ts := by
  obtain ⟨front,rfl⟩ := List.getLast?_eq_some_iff.mp last
  rw [List.dropLast_concat,headsAppend]
  rcases jump with rfl | rfl <;> simp [heads,partsAll,parts,head?]

theorem headsDropContinue (body : List Piece) : heads loops (dropLastContinue body) = heads loops body := by
  unfold dropLastContinue
  split
  · rename_i l last
    exact headsDrop loops last (.inr rfl)
  · rfl

theorem headsDropBreak (loops : Bool) (arms : List (ArmHead × List Piece)) :
    (partsArms (dropLastBreak arms)).filterMap (head? loops) = (partsArms arms).filterMap (head? loops) := by
  induction arms with
  | nil => rfl
  | cons a arms ih =>
    obtain ⟨h,body⟩ := a
    cases arms with
    | nil =>
      unfold dropLastBreak
      split
      · rename_i l last
        have same := List.map_injective_iff.mpr (fun _ _ => Item.node.inj) (headsDrop loops last (.inl rfl))
        simpa [partsArms] using same
      · rfl
    | cons b arms =>
      have same : dropLastBreak ((h,body) :: b :: arms) = (h,body) :: dropLastBreak (b :: arms) := by
        rw [dropLastBreak]
        simp
      rw [same,partsArms,partsArms,List.filterMap_append,List.filterMap_append,ih]

theorem headsBranch (key : Key) (n : NodeId) (cond : Test) (meets : Bool) (a b : List Piece) :
    heads loops (branchPieces key n cond meets a b) = heads loops a ++ heads loops b := by
  obtain ⟨c,x,y,-,pieces⟩ := partsBranch key n cond meets a b
  rw [heads,pieces,List.filterMap_cons_none rfl,List.filterMap_append,List.map_append]
  rfl

theorem headsLoop (key : Key) (kind : LoopKind) (test : Int) (cond : Option Test) (body : List Piece) :
    heads loops [.loop key kind test n cond (dropLastContinue body)] =
      (if loops then [.node n] else []) ++ heads loops body := by
  rw [← headsDropContinue body]
  cases loops <;> simp [heads,partsAll,parts,head?]

theorem headsSwitch {bodies : List (List Piece)} (key : Key) (value : Option Expr)
    (arms : Writes p (.each (switchJobs p f n s) bodies) s₁ s₂) :
    heads loops [.switch key n value (writtenArms p f n bodies)] =
      (if loops then [] else [.node n]) ++ heads loops bodies.flatten := by
  have same := headsDropBreak loops (((switchArms p f n).map (·.head)).zip bodies)
  rw [partsSwitch arms] at same
  have flat : heads loops [.switch key n value (writtenArms p f n bodies)] =
      (if loops then [] else [.node n]) ++
        ((partsArms (writtenArms p f n bodies)).filterMap (head? loops)).map .node := by
    cases loops <;> simp [heads,partsAll,parts,head?]
  rw [flat,writtenArms,same]
  rfl

theorem headsStatement (n : NodeId) (ss : List Stmt) : heads loops [(s.statement n ss).1] = [] := by
  simp [heads,partsAll,parts,head?,State.statement]

theorem headsLead {lead : List Piece} {ss : List Stmt} (start : s.lead n ss = (lead,s₁)) :
    heads loops lead = [] := by
  unfold State.lead at start
  split at start
  · cases start
    rfl
  · cases start
    exact headsStatement n ss.dropLast

namespace Once

variable {xs : List Item}

theorem misses (once : Once p s xs s') (met : s.Met (.inl n)) : .node n ∉ xs :=
  fun member => (once.fresh _ member).1 met

theorem maybe (once : Once p s xs s') (b : Bool) : Once p s (if b then xs else []) s' := by
  cases b with
  | true => exact once
  | false => exact .quiet once.kept

theorem cons (once : Once p s xs s') (fresh : ¬s.Met (.inl n)) (met : s'.Met (.inl n))
    (apart : .node n ∉ xs) : Once p s (.node n :: xs) s' := by
  have single : Once p s [.node n] s' := .single fresh met once.kept nofun
  refine ⟨List.nodup_cons.mpr ⟨fun inside => ?_,once.distinct⟩,
    List.forall_mem_cons.mpr ⟨⟨fresh,met⟩,once.fresh⟩,once.kept,fun q ns member => ?_⟩
  · obtain ⟨x,member,same⟩ := List.mem_map.mp inside
    cases x with
    | node m =>
      cases same
      exact apart member
    | cleanup r ns => cases same
  · exact once.sole q ns ((List.mem_cons.mp member).resolve_left nofun)

end Once

def Job.Heads (loops : Bool) (p : Plan) : Job → State → State → Prop
  | .emit f n out, s, s' => Recovery.Once p (s.unmet n) (heads loops out) s' ∧
    (loops = true → isLoopOpen f.scopes n = true → .node n ∉ heads loops out)
  | .go _ _ out, s, s' => Recovery.Once p s (heads loops out) s'
  | .goOn _ _ _ more, s, s' => Recovery.Once p s (heads loops more) s'
  | .each _ outs, s, s' => Recovery.Once p s (heads loops outs.flatten) s'

theorem metOfMark (met : s.mark n ≠ .unvisited) : s.Met (.inl n) := ⟨n,rfl,met⟩

theorem notMetUnmet (s : State) (n : NodeId) : ¬(s.unmet n).Met (.inl n) :=
  State.notMet (by rw [State.unmet,State.markSetMark,if_pos rfl])

theorem headsAround {out : List Piece} (inner : Job.Heads loops p (.emit f n out) s s')
    (isOpen : isLoopOpen f.scopes n = true) (met : s'.mark n ≠ .unvisited) :
    Once p (s.unmet n) ((if loops then [.node n] else []) ++ heads loops out) s' := by
  obtain ⟨once,apart⟩ := inner
  cases loops with
  | false => exact once
  | true => exact once.cons (notMetUnmet s n) (metOfMark met) (apart rfl isOpen)

theorem metLead {lead : List Piece} {ss : List Stmt} {y : Int ⊕ RegionId}
    (start : s.lead n ss = (lead,s₁)) (met : s.Met y) : s₁.Met y := by
  unfold State.lead at start
  split at start
  · cases start
    exact met
  · cases start
    have bumped : s.bump.Met y := met.same rfl fun _ => id
    exact (bumped.placed n (s.key "")).finished n

theorem metEntered (s : State) (n : NodeId) (own : String) (follow : Option NodeId) :
    (s.enter n own follow).Met (.inl n) := metOfMark (by rw [enterMark]; nofun)

theorem metEnter {lead : List Piece} {ss : List Stmt} {own : String} {follow : Option NodeId}
    {y : Int ⊕ RegionId} (start : s.lead n ss = (lead,s₁)) (met : (s.unmet n).Met y) :
    (s₁.enter n own follow).Met y :=
  (Once.entered (p := default) s₁ n own follow).kept y (met.unmetMono fun _ => metLead start)

theorem loopIsOpen {found shape : LoopShape} (starts : shapeAt? p f n = some found)
    (settled : settleShape p s found = shape) : isLoopOpen (loopScopes f shape n s₁) n = true := by
  have header : shape.loop.header = n := by
    rw [← settled,loopOfSettled]
    exact (headerOfShapeAt starts).1
  simp [loopScopes,isLoopOpen,header]

theorem headsGuard {r : RegionId} {follow : Option NodeId} {out : List Piece}
    {xs : List Item} (opened : ∀ y, s.Met y → s₁.Met y)
    (inner : Job.Heads loops p (.emit (insideGuard f r follow) n out) s₁ s₂)
    (met : s₂.mark n ≠ .unvisited) (rest : Once p s₂ xs s') :
    Once p (s.unmet n) (heads loops out ++ xs) s' ∧
      (loops = true → isLoopOpen f.scopes n = true → .node n ∉ heads loops out ++ xs) := by
  obtain ⟨once,apart⟩ := inner
  refine ⟨(once.before fun y => State.Met.unmetMono opened).trans rest,fun yes isOpen member => ?_⟩
  exact (List.mem_append.mp member).elim (apart yes isOpen) (rest.misses (metOfMark met))

theorem repeatClausesHeads (loops : Bool) (g : Graph) (c : Clauses) (s : State) :
    (partsCatches ((repeatClauses g c).from s).1).filterMap (head? loops) = [] := by
  cases c with
  | cleanup entry => rfl
  | catches heads =>
    induction heads generalizing s with
    | nil => rfl
    | cons h heads ih =>
      have jump : (s.goto h.node).1 = .goto (.aim h.node) (s.labelOf h.node).1 := rfl
      have rest := ih (s.goto h.node).2
      rw [repeatClauses] at rest ⊢
      simp only [jumpClauses,fromBind,fromPure,fromModifyGet,partsCatches,partsAll,jump,parts,
        List.cons_append,List.nil_append]
      rw [List.filterMap_cons_none rfl]
      exact rest

theorem Writes.headsOnce {job : Job} (loops : Bool) (writes : Writes p job s s') : job.Heads loops p s s' := by
  induction writes with
  | nowhere | falls | nothing | ends | never => exact .quiet fun _ => id
  | inline way rest ih => exact ih.1.before fun y met => met.unmet (routeInline way)
  | @breaks f t scope s way =>
    exact .quiet fun y met => met.same (s.nameScopeFields scope).1 fun q known => by
      rwa [s.regionsNameScope scope]
  | @continues f t scope s way =>
    exact .quiet fun y met => met.same (s.nameScopeFields scope).1 fun q known => by
      rwa [s.regionsNameScope scope]
  | @jumps f t s way =>
    exact .quiet fun y met => met.same (s.gotoFields t).1 fun q known => by rwa [s.regionsGoto t]
  | each first rest ihFirst ihRest =>
    rw [Job.Heads,List.flatten_cons,headsAppend]
    exact ihFirst.trans ihRest
  | behind jump way rest ih => exact ih.1.before fun y met => met.unmet (routeInline way)
  | on passes rest ih => exact ih
  | @last f n s bare noBranch noSwitch alone =>
    rw [Job.Heads,headsStatement]
    exact ⟨.quiet (Once.statement (p := p) s n (p.graph.node n).stmts).kept,by simp⟩
  | @plain f n t out s s' bare kind succ rest ih =>
    have written := Once.statement (p := p) s n (p.graph.node n).stmts
    rw [Job.Heads,← List.singleton_append,headsAppend,headsStatement,List.nil_append]
    refine ⟨ih.before written.kept,fun _ _ => ih.misses (metOfMark ?_)⟩
    simp [State.statement,State.markSetMark]
  | @branch f n cond first second lead onTrue onFalse more s s₀ s₁ s₂ s₃ bare kind sides start left
      right rest ihLeft ihRight ihRest =>
    have all := ((ihLeft.trans ihRight).after fun _ => (·.left n _)).trans ihRest
    rw [Job.Heads,headsAppend,headsAppend,headsLead start,headsBranch,List.nil_append]
    exact ⟨all.before fun y met => metEnter start met,fun _ _ => all.misses (metEntered s₀ n _ _)⟩
  | @switch f n lead bodies more s s₀ s₁ s₂ bare kind start arms rest ihArms ihRest =>
    have inner := (Once.after ihArms fun _ => (·.left n _)).trans ihRest
    rw [Job.Heads,headsAppend,headsAppend,headsLead start,headsSwitch _ _ arms,List.nil_append,
      List.append_assoc]
    cases loops with
    | true =>
      exact ⟨inner.before fun y met => metEnter start met,fun _ _ => inner.misses (metEntered s₀ n _ _)⟩
    | false =>
      have begun := Once.entered (p := p) s₀ n (switchName n) (switchFollow p f n)
      exact ⟨(begun.trans inner).before fun y => State.Met.unmetMono fun _ => metLead start,by simp⟩
  | @pretest f n found shape body more s s₁ s₂ outside starts settled kind inner rest ihInner ihRest =>
    have begun : Once p (s.unmet n) [.node n] ((s.openLoop n).setMark n .entered) := by
      refine .began (s.regionsOpenLoop n) ?_ fun m other => ?_
      · simp [State.markSetMark]
      · rw [State.markSetMark,if_neg other,State.mark,(openLoopFields s n).1]
        rfl
    have all := ((begun.maybe loops).trans (Once.after ihInner fun _ => (·.finished n))).trans ihRest
    rw [Job.Heads,← List.singleton_append,headsAppend,headsLoop]
    exact ⟨all,fun _ isOpen => by
      simp [(headerOfShapeAt starts).2] at isOpen⟩
  | @posttest f n found shape latch body more s s₁ s₂ outside starts settled kind test inner rest
      ihInner ihRest =>
    have opened : ∀ y, s.Met y → (((s.openLoop n).place latch (s.key (loopName n))).setMark latch
        .entered).Met y := fun _ met => ((met.openLoop n).placed latch _).marked (by simp)
    have around := headsAround ihInner (loopIsOpen starts settled) (by rw [inner.covers.2]; decide)
    have all := ((around.before fun y => State.Met.unmetMono opened).after
      fun _ => (·.finished latch)).trans ihRest
    rw [Job.Heads,← List.singleton_append,headsAppend,headsLoop]
    exact ⟨all,fun _ isOpen => by
      simp [(headerOfShapeAt starts).2] at isOpen⟩
  | @endless f n found shape body more s s₁ s₂ outside starts settled kind test inner rest ihInner
      ihRest =>
    have around := headsAround ihInner (loopIsOpen starts settled) (by rw [inner.covers.2]; decide)
    have all := (around.before fun y => State.Met.unmetMono fun _ => (·.openLoop n)).trans ihRest
    rw [Job.Heads,← List.singleton_append,headsAppend,headsLoop]
    exact ⟨all,fun _ isOpen => by
      simp [(headerOfShapeAt starts).2] at isOpen⟩
  | @cleanup f n r entry code copy body more s s₁ s₂ outside first clean inner rest ihInner ihRest =>
    have opened : ∀ y, s.Met y → ((s.openGuard n (guardFollow p s f r)).cleaned r entry copy
        (s.key "")).Met y := fun _ met => (met.openGuard n _).cleaned r entry copy _
    have held : heads loops [.guarded (s.key "") r body [] (some [.stmts .none entry code])] =
        heads loops body := by simp [heads,partsAll,parts,partsCatches,List.filterMap_cons]
    rw [Job.Heads,← List.singleton_append,headsAppend,held]
    exact headsGuard opened ihInner (by rw [inner.covers.2]; decide)
      (Once.before ihRest fun _ => (·.released _))
  | @catches f n r heads' body bodies more s s₀ s₁ s₂ s₃ outside first noCleanup clauses inner handlers
      rest ihInner ihHandlers ihRest =>
    have opened : ∀ y, s.Met y → (s₀.openRegion r (.catches heads')).Met y := by
      obtain ⟨marks,-⟩ := openClausesFields p.graph (ownGroups p r) (s.openGuard n (guardFollow p s f r))
      obtain ⟨-,regions⟩ := openClausesFits p.graph (ownGroups p r) (s.openGuard n (guardFollow p s f r))
      rw [clauses] at marks regions
      intro y met
      exact ((met.openGuard n _).same marks fun q known => by rwa [regions]).opened r _
    have same : bodies.length = heads'.length := by rw [bodiesLength handlers,List.length_map]
    have held : heads loops [.guarded (s.key "") r body (heads'.zip bodies) none] =
        heads loops body ++ heads loops bodies.flatten := by
      simp [heads,partsAll,parts,partsZipCatches _ _ same,List.filterMap_cons]
    rw [Job.Heads,← List.singleton_append,headsAppend,held,List.append_assoc]
    exact headsGuard opened ihInner (by rw [inner.covers.2]; decide)
      (Once.trans ihHandlers (Once.before ihRest fun _ => (·.released _)))
  | @again f n r c catches body more s s₀ s₁ s₂ outside known clauses inner rest ihInner ihRest =>
    have opened : ∀ y, s.Met y → s₀.Met y := by
      intro y met
      have regions := repeatClausesRegions p.graph c (s.openGuard n (followOfRegion p s f r []))
      have wrote := repeatClausesWrote p.graph c (s.openGuard n (followOfRegion p s f r []))
      rw [clauses] at regions wrote
      refine (met.openGuard n _).mono (fun m visited => ?_) fun q known => by rwa [regions]
      exact fun free => visited (wrote.fewer m free)
    have flat := repeatClausesHeads loops p.graph c
      (s.openGuard n (followOfRegion p s f r []))
    rw [clauses] at flat
    have held : heads loops [.guarded (s.key "") r body catches none] = heads loops body := by
      simp [heads,partsAll,parts,flat,List.filterMap_cons]
    rw [Job.Heads,← List.singleton_append,headsAppend,held]
    exact headsGuard opened ihInner (by rw [inner.covers.2]; decide)
      (Once.before ihRest fun _ => (·.released _))

theorem remainsHeads (loops : Bool) {ns : List NodeId} {out : List Piece} (remains : Remains p ns out s s') :
    Once p s (heads loops out) s' := by
  induction remains with
  | none => exact .quiet fun _ => id
  | met met rest ih => exact ih
  | @more n ns out outs s s₁ s₂ free here rest ih =>
    have wanted : ∀ y, s.Met y → ((s.want n).unmet n).Met y := fun y met =>
      State.Met.unmet (s := s.want n) free (met.same rfl fun _ => id)
    rw [headsAppend]
    exact (Once.before (here.headsOnce loops).1 wanted).trans ih

theorem draftHeads {entry : NodeId} {w : Draft} (drafted : Drafted p entry w) (loops : Bool) :
    ((partsAll w.body).filterMap (head? loops)).Nodup := by
  obtain ⟨out,rest,s,here,remains,body⟩ := drafted
  have all := (here.headsOnce loops).1.trans (remainsHeads loops remains)
  rw [← headsAppend,← body] at all
  have distinct := all.distinct
  rw [heads,List.map_map] at distinct
  exact distinct.of_map

end RegCode.Recovery
