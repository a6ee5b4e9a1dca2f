import RegCode.Proofs.Recovery.Places

/-! Every part that is written stands where it belongs. -/
namespace RegCode

namespace Recovery

open RegCode.Tree

variable {p : Plan} {f : Frame} {n : NodeId} {s s' : State}

/-- Clauses as first written are those of the handlers of the region. -/
def Clauses.Fits (groups : List Group) : Clauses → Prop
  | .catches heads => heads.map (fun h => (h.types,h.node)) = groups.map fun a => (a.types,a.entry)
  | .cleanup entry => ∃ a, groups = [a] ∧ a.types = [anyThrown] ∧ a.entry = entry

def Known (p : Plan) (s : State) : Prop :=
  ∀ r c, s.regions.get? r = some c → c.Fits (ownGroups p r)

theorem Known.same (known : Known p s) (regions : s'.regions = s.regions) : Known p s' :=
  fun r c found => known r c (regions ▸ found)

namespace State

variable (s : State)

theorem regionsPlace (n : NodeId) (key : Key) : (s.place n key).regions = s.regions := by
  unfold place
  split <;> rfl

theorem regionsGoto (n : NodeId) : (s.goto n).2.regions = s.regions := by
  show (s.labelOf n).2.regions = s.regions
  unfold labelOf
  split
  · split <;> rfl
  · rfl

theorem regionsNameScope (scope : Option Key) : (s.nameScope scope).regions = s.regions := by
  cases scope <;> rfl

theorem regionsStatement (n : NodeId) (ss : List Stmt) : (s.statement n ss).2.regions = s.regions :=
  s.bump.regionsPlace n (s.key "")

theorem regionsEnter (n : NodeId) (own : String) (follow : Option NodeId) :
    (s.enter n own follow).regions = s.regions := s.bump.regionsPlace n (s.key own)

theorem regionsOpenLoop (n : NodeId) : (s.openLoop n).regions = s.regions :=
  s.bump.regionsPlace n (s.key (loopName n))

theorem regionsOpenGuard (n : NodeId) (follow : Option NodeId) :
    (s.openGuard n follow).regions = s.regions := s.bump.regionsPlace n (s.key "")

theorem regionsLead {s s₀ : State} {n : NodeId} {ss : List Stmt} {lead : List Piece}
    (start : s.lead n ss = (lead,s₀)) : s₀.regions = s.regions := by
  unfold State.lead at start
  split at start
  · cases start
    rfl
  · cases start
    exact s.regionsStatement n ss.dropLast

end State

theorem Known.opened {r : RegionId} {c : Clauses} (known : Known p s) (fits : c.Fits (ownGroups p r)) :
    Known p (s.openRegion r c) := by
  intro q d found
  rw [State.openRegion,Table.get?_insert] at found
  split at found
  · rename_i here
    cases Option.some.inj found
    exact beq_iff_eq.mp here ▸ fits
  · exact known q d found

theorem catchAllTypes {order : HandlerOrder} {hs : List CatchEntry} {a : Group}
    (member : a ∈ groupHandlers order hs) (catches : a.catchAll = true) : a.types = [anyThrown] := by
  unfold groupHandlers at member
  have widened : ∀ a, a ∈ (hs.foldl (fun as h => addHandler h as) []).map (fun a =>
      if a.catchAll then { a with types := [anyThrown] } else a) → a.catchAll = true →
      a.types = [anyThrown] := by
    intro a member catches
    obtain ⟨b,-,rfl⟩ := List.mem_map.mp member
    split
    · rfl
    · rename_i other
      rw [if_neg other] at catches
      exact absurd catches other
  cases order with
  | table => exact widened a member catches
  | catchAllLast =>
    rcases List.mem_append.mp member with member | member
    · exact widened a (List.mem_filter.mp member).1 catches
    · exact widened a (List.mem_filter.mp member).1 catches

theorem cleanupGroup {r : RegionId} {follow : Option NodeId} {entry : NodeId} {code : List Stmt}
    {copy : List Loc} (clean : cleanup? p r (ownGroups p r) follow = some (entry,code,copy)) :
    ∃ a, ownGroups p r = [a] ∧ a.types = [anyThrown] ∧ a.entry = entry := by
  unfold cleanup? at clean
  split at clean
  · rename_i a out groups
    obtain ⟨⟨v,loc⟩,-,fits⟩ := Option.bind_eq_some_iff.mp clean
    dsimp only at fits
    split at fits
    · rename_i all
      cases Option.some.inj fits
      simp only [Bool.and_eq_true] at all
      refine ⟨a,groups,catchAllTypes (groups ▸ List.mem_singleton_self a : a ∈ ownGroups p r) ?_,rfl⟩
      exact all.1.1.1.1.1
    · contradiction
  · contradiction

theorem openClausesFits (g : Graph) (groups : List Group) (s : State) :
    (((openClauses g groups).from s).1.map fun h => (h.types,h.node)) =
        (groups.map fun a => (a.types,a.entry)) ∧
      ((openClauses g groups).from s).2.regions = s.regions := by
  induction groups generalizing s with
  | nil => exact ⟨rfl,rfl⟩
  | cons a groups ih =>
    have head : (((openClause g a).from s).1.types = a.types ∧ ((openClause g a).from s).1.node = a.entry) ∧
        ((openClause g a).from s).2.regions = s.regions := by
      unfold openClause
      split
      · rw [fromBind,fromGet]
        split <;> exact ⟨⟨rfl,rfl⟩,rfl⟩
      · exact ⟨⟨rfl,rfl⟩,rfl⟩
    obtain ⟨heads,regions⟩ := ih ((openClause g a).from s).2
    simp only [openClauses,fromBind,fromPure,List.map_cons,heads,head.1]
    exact ⟨trivial,regions.trans head.2⟩

theorem jumpClausesFits (heads : List CatchHead) (s : State) :
    (((jumpClauses heads).from s).1.map fun c => (c.1.types,(c.1.node : Int))) =
        (heads.map fun h => (h.types,(h.node : Int))) ∧
      ((jumpClauses heads).from s).2.regions = s.regions ∧
      ∀ x, ∀ c ∈ ((jumpClauses heads).from s).1, StandAll p x c.2 := by
  induction heads generalizing s with
  | nil => exact ⟨rfl,rfl,nofun⟩
  | cons h heads ih =>
    obtain ⟨same,regions,stands⟩ := ih (s.goto h.node).2
    have code : (jumpClauses (h :: heads)).from s =
        ((h,[(s.goto h.node).1]) :: ((jumpClauses heads).from (s.goto h.node).2).1,
          ((jumpClauses heads).from (s.goto h.node).2).2) := by
      simp only [jumpClauses,fromBind,fromPure,fromModifyGet]
    rw [code]
    refine ⟨by rw [List.map_cons,List.map_cons,same],regions.trans (s.regionsGoto h.node),?_⟩
    intro x c member
    rcases List.mem_cons.mp member with rfl | member
    · exact .cons (standsJump rfl trivial) .nil
    · exact stands x c member

theorem repeatClausesFits {r : RegionId} {c : Clauses} (fits : c.Fits (ownGroups p r)) (s : State) :
    clauseHeads ((repeatClauses p.graph c).from s).1 none =
        ((ownGroups p r).map fun a => (a.types,(a.entry : Int))) ∧
      ((repeatClauses p.graph c).from s).2.regions = s.regions ∧
      ∀ x, ∀ k ∈ ((repeatClauses p.graph c).from s).1, StandAll p x k.2 := by
  cases c with
  | cleanup entry =>
    obtain ⟨a,groups,types,same⟩ := fits
    refine ⟨?_,rfl,fun x c member => ?_⟩
    · rw [groups,List.map_singleton,types,same]
      rfl
    · cases List.mem_singleton.mp member
      refine .cons (standsJump rfl fun n same => ?_) nofun
      exact absurd same (by omega)
  | catches heads =>
    obtain ⟨same,regions,stands⟩ := jumpClausesFits (p := p) heads s
    refine ⟨?_,regions,stands⟩
    have all := congrArg (List.map fun y => (y.1,(y.2 : Int))) fits
    rw [List.map_map,List.map_map] at all
    rw [clauseHeads,Option.getD_none,sourcesAll,List.map_nil,List.append_nil]
    exact same.trans all

def Job.Places (p : Plan) : Job → State → State → Prop
  | .emit f n out, s, s' => isOutside p.graph f.scopes n = false → Known p s →
    StandAll p (activeRegion? f.scopes) out ∧ Known p s'
  | .go f _ out, s, s' => Known p s → StandAll p (activeRegion? f.scopes) out ∧ Known p s'
  | .goOn f _ _ more, s, s' => Known p s → StandAll p (activeRegion? f.scopes) more ∧ Known p s'
  | .each jobs outs, s, s' => Known p s →
    (∀ x, (∀ j ∈ jobs, activeRegion? j.1.scopes = x) → ∀ out ∈ outs, StandAll p x out) ∧ Known p s'

def Tested (p : Plan) : Prop :=
  ∀ shape ∈ p.shapes,
    (shape.kind = .pretest → (p.graph.node shape.loop.header).kind = .cond) ∧
    (shape.kind = .posttest → ∀ t, shape.test = some t →
      (p.graph.node t).kind = .cond ∧ t ≠ shape.loop.header)

theorem testedShape {found shape : LoopShape} (tested : Tested p) (starts : shapeAt? p f n = some found)
    (settled : settleShape p s found = shape) :
    (shape.kind = .pretest → (p.graph.node n).kind = .cond) ∧
      (shape.kind = .posttest → ∀ t, shape.test = some t → (p.graph.node t).kind = .cond ∧ t ≠ n) := by
  have member := List.mem_of_find?_eq_some (Option.filter_eq_some_iff.mp starts).1
  obtain ⟨pre,post⟩ := tested found member
  rw [(headerOfShapeAt starts).1] at pre post
  unfold settleShape at settled
  split at settled
  · split at settled
    · exact settled ▸ ⟨pre,post⟩
    · subst settled
      exact ⟨nofun,nofun⟩
  · exact settled ▸ ⟨pre,post⟩

theorem routeInside {t : NodeId} (way : route p s f t = .inline) :
    isOutside p.graph f.scopes t = false := by
  unfold route at way
  split at way
  · contradiction
  · cases jump : jumpOut? t false false f.scopes with
    | some r =>
      rw [jump,Option.getD_some] at way
      obtain ⟨scope,rfl | rfl⟩ := jumpOutRoute jump <;> contradiction
    | none =>
      rw [jump,Option.getD_none] at way
      split at way
      · contradiction
      · rename_i free
        simp only [Bool.or_eq_true,not_or] at free
        simpa using free.1

section
variable {x : Option RegionId}

theorem standsStatement {ss : List Stmt} (here : (p.graph.node n).region = x) :
    Stands p x (s.statement n ss).1 := by
  refine standsJump rfl fun m same => ?_
  rw [← Int.ofNat_inj.mp same]
  exact here

theorem standsLead {s₀ : State} {ss : List Stmt} {lead : List Piece} (start : s.lead n ss = (lead,s₀))
    (here : (p.graph.node n).region = x) : StandAll p x lead := by
  unfold State.lead at start
  split at start
  · cases start
    exact .nil
  · cases start
    exact .cons (standsStatement here) .nil

theorem standsBranchPieces {key : Key} {cond : Test} {meets : Bool} {onTrue onFalse : List Piece}
    (here : (p.graph.node n).region = x) (left : StandAll p x onTrue) (right : StandAll p x onFalse) :
    StandAll p x (branchPieces key n cond meets onTrue onFalse) := by
  have region : ∀ m : NodeId, (n : Int) = m → (p.graph.node m).region = x :=
    fun m same => Int.ofNat_inj.mp same ▸ here
  unfold branchPieces
  split
  · exact .cons (standsBranch region left .nil) .nil
  · split
    · exact .cons (standsBranch region right .nil) .nil
    · split
      · exact .cons (standsBranch region left .nil) right
      · exact .cons (standsBranch region left right) .nil

theorem standsDropContinue {body : List Piece} (all : StandAll p x body) :
    StandAll p x (dropLastContinue body) := by
  unfold dropLastContinue
  split
  · exact all.dropLast
  · exact all

theorem standsDropBreak {arms : List (ArmHead × List Piece)} (all : ∀ a ∈ arms, StandAll p x a.2) :
    ∀ a ∈ dropLastBreak arms, StandAll p x a.2 := by
  induction arms with
  | nil => exact all
  | cons a arms ih =>
    obtain ⟨first,rest⟩ := List.forall_mem_cons.mp all
    cases arms with
    | nil =>
      obtain ⟨h,body⟩ := a
      unfold dropLastBreak
      split
      · exact List.forall_mem_singleton.mpr first.dropLast
      · exact all
    | cons b arms =>
      rw [dropLastBreak]
      · exact List.forall_mem_cons.mpr ⟨first,ih rest⟩
      · simp

theorem standsZip {β : Type} {heads : List β} {bodies : List (List Piece)}
    (all : ∀ out ∈ bodies, StandAll p x out) : ∀ a ∈ heads.zip bodies, StandAll p x a.2 :=
  fun a member => all a.2 (List.of_mem_zip member).2

end

theorem armJobsScopes (scopes : List Scope) (arms : List Arm) :
    ∀ j ∈ armJobs scopes arms, j.1.scopes = scopes := by
  induction arms with
  | nil => nofun
  | cons a arms ih => exact List.forall_mem_cons.mpr ⟨rfl,ih⟩

theorem headsZip {heads : List CatchHead} {bodies : List (List Piece)}
    (same : bodies.length = heads.length) :
    clauseHeads (heads.zip bodies) none = heads.map fun h => (h.types,(h.node : Int)) := by
  have fsts : (heads.zip bodies).map Prod.fst = heads := List.map_fst_zip same.ge
  have fsts := congrArg (List.map fun h : CatchHead => (h.types,(h.node : Int))) fsts
  rw [List.map_map] at fsts
  rw [clauseHeads,Option.getD_none,sourcesAll,List.map_nil,List.append_nil]
  exact fsts

theorem activeHere (shaped : p.graph.Shaped) (inside : isOutside p.graph f.scopes n = false)
    (pending : pendingRegion? p f n = none) : (p.graph.node n).region = activeRegion? f.scopes :=
  (activeOfPending (shaped.inside n) inside pending).symm

theorem placesBranch {cond : Test} {first second : Option NodeId} {lead onTrue onFalse more : List Piece}
    {s₀ s₁ s₂ s₃ : State} (shaped : p.graph.Shaped) (bare : Bare p f n)
    (start : s.lead n (p.graph.node n).stmts = (lead,s₀))
    (ihLeft : Job.Places p (.go (sideFrame f (p.branchFollows.get? n)) first onTrue) (s₀.enter n ""
      (p.branchFollows.get? n)) s₁)
    (ihRight : Job.Places p (.go (sideFrame f (p.branchFollows.get? n)) second onFalse) s₁ s₂)
    (ihRest : Job.Places p (.goOn f (lead ++ branchPieces (s₀.key "") n cond (p.branchFollows.get? n).isSome
      onTrue onFalse) (p.branchFollows.get? n) more) (s₂.leave n (p.branchFollows.get? n)) s₃) :
    Job.Places p (.emit f n (lead ++ branchPieces (s₀.key "") n cond (p.branchFollows.get? n).isSome onTrue
      onFalse ++ more)) s s₃ := by
  intro inside known
  have here := activeHere shaped inside bare.1
  have known₀ := known.same (State.regionsLead start)
  obtain ⟨standsLeft,known₁⟩ := ihLeft (known₀.same (State.regionsEnter ..))
  obtain ⟨standsRight,known₂⟩ := ihRight known₁
  obtain ⟨standsRest,known₃⟩ := ihRest (known₂.same rfl)
  rw [sideScopes] at standsLeft standsRight
  exact ⟨((standsLead start here).append (standsBranchPieces here standsLeft standsRight)).append
    standsRest,known₃⟩

theorem placesSwitch {lead more : List Piece} {bodies : List (List Piece)} {s₀ s₁ s₂ : State}
    (shaped : p.graph.Shaped) (bare : Bare p f n) (start : s.lead n (p.graph.node n).stmts = (lead,s₀))
    (ihArms : Job.Places p (.each (switchJobs p f n s₀) bodies) (s₀.enter n (switchName n) (switchFollow p f
      n)) s₁)
    (ihRest : Job.Places p (.goOn f (lead ++ [.switch (s₀.key (switchName n)) n (switchValue (p.graph.node n))
      (writtenArms p f n bodies)]) (switchFollow p f n) more) (s₁.leave n (switchFollow p f n)) s₂) :
    Job.Places p (.emit f n (lead ++ [.switch (s₀.key (switchName n)) n (switchValue (p.graph.node n))
      (writtenArms p f n bodies)] ++ more)) s s₂ := by
  intro inside known
  have here := activeHere shaped inside bare.1
  have known₀ := known.same (State.regionsLead start)
  obtain ⟨standsArms,known₁⟩ := ihArms (known₀.same (State.regionsEnter ..))
  obtain ⟨standsRest,known₂⟩ := ihRest (known₁.same rfl)
  have bodiesStand := standsArms (activeRegion? f.scopes) fun j member => by
    rw [armJobsScopes _ _ j member]
    rfl
  have part : Stands p (activeRegion? f.scopes) (.switch (s₀.key (switchName n)) n
      (switchValue (p.graph.node n)) (writtenArms p f n bodies)) :=
    standsSwitch (fun m same => Int.ofNat_inj.mp same ▸ here) (standsDropBreak (standsZip bodiesStand))
  exact ⟨((standsLead start here).append (.cons part .nil)).append standsRest,known₂⟩

theorem placesPretest {found shape : LoopShape} {body more : List Piece} {s₁ s₂ : State}
    (shaped : p.graph.Shaped) (tested : Tested p) (outside : pendingRegion? p f n = none)
    (starts : shapeAt? p f n = some found) (settled : settleShape p s found = shape)
    (kind : shape.kind = .pretest)
    (ihInner : Job.Places p (.go { scopes := loopScopes f shape n s, stop := some n } (some shape.start) body)
      ((s.openLoop n).setMark n .entered) s₁)
    (ihRest : Job.Places p (.goOn f [.loop (s.key (loopName n)) .pretest n n (some (loopTest p.graph n
      shape.start)) (dropLastContinue body)] shape.follow more) (s₁.setMark n .finished) s₂) :
    Job.Places p (.emit f n (.loop (s.key (loopName n)) .pretest n n (some (loopTest p.graph n shape.start))
      (dropLastContinue body) :: more)) s s₂ := by
  intro inside known
  have here := activeHere shaped inside outside
  obtain ⟨stands,known₁⟩ := ihInner (known.same (State.regionsOpenLoop ..))
  obtain ⟨standsRest,known₂⟩ := ihRest (known₁.same rfl)
  have test := (testedShape tested starts settled).1 kind
  exact ⟨.cons (standsLoop (fun m same => Int.ofNat_inj.mp same ▸ here)
    (fun m same => Int.ofNat_inj.mp same ▸ test) (standsDropContinue stands)) standsRest,known₂⟩

theorem placesPosttest {found shape : LoopShape} {latch : NodeId} {body more : List Piece} {s₁ s₂ : State}
    (shaped : p.graph.Shaped) (tested : Tested p) (outside : pendingRegion? p f n = none)
    (starts : shapeAt? p f n = some found) (settled : settleShape p s found = shape)
    (kind : shape.kind = .posttest) (test : shape.test = some latch)
    (ihInner : Job.Places p (.emit { scopes := loopScopes f shape n s, stop := some latch } n body)
      (((s.openLoop n).place latch (s.key (loopName n))).setMark latch .entered) s₁)
    (ihRest : Job.Places p (.goOn f [.loop (s.key (loopName n)) .posttest latch n (some (loopTest p.graph latch
      n)) (dropLastContinue body)] shape.follow more) (s₁.setMark latch .finished) s₂) :
    Job.Places p (.emit f n (.loop (s.key (loopName n)) .posttest latch n (some (loopTest p.graph latch n))
      (dropLastContinue body) :: more)) s s₂ := by
  intro inside known
  have here := activeHere shaped inside outside
  obtain ⟨stands,known₁⟩ := ihInner inside
    ((known.same (State.regionsOpenLoop ..)).same (State.regionsPlace ..))
  obtain ⟨standsRest,known₂⟩ := ihRest (known₁.same rfl)
  have tests := ((testedShape tested starts settled).2 kind latch test).1
  exact ⟨.cons (standsLoop (fun m same => Int.ofNat_inj.mp same ▸ here)
    (fun m same => Int.ofNat_inj.mp same ▸ tests) (standsDropContinue stands)) standsRest,known₂⟩

theorem placesEndless {shape : LoopShape} {body more : List Piece} {s₁ s₂ : State} (shaped : p.graph.Shaped)
    (outside : pendingRegion? p f n = none)
    (ihInner : Job.Places p (.emit { scopes := loopScopes f shape n s } n body) (s.openLoop n) s₁)
    (ihRest : Job.Places p (.goOn f [.loop (s.key (loopName n)) .endless (-1) n none (dropLastContinue body)]
      shape.follow more) s₁ s₂) :
    Job.Places p (.emit f n (.loop (s.key (loopName n)) .endless (-1) n none (dropLastContinue body) :: more))
      s s₂ := by
  intro inside known
  have here := activeHere shaped inside outside
  obtain ⟨stands,known₁⟩ := ihInner inside (known.same (State.regionsOpenLoop ..))
  obtain ⟨standsRest,known₂⟩ := ihRest known₁
  exact ⟨.cons (standsLoop (fun m same => Int.ofNat_inj.mp same ▸ here)
    (fun m same => absurd same (by omega)) (standsDropContinue stands)) standsRest,known₂⟩

theorem placesCleanup {r : RegionId} {entry : NodeId} {code : List Stmt} {copy : List Loc}
    {body more : List Piece} {s₁ s₂ : State} (shaped : p.graph.Shaped) (outside : pendingRegion? p f n = some r)
    (clean : cleanup? p r (ownGroups p r) (guardFollow p s f r) = some (entry,code,copy))
    (ihInner : Job.Places p (.emit (insideGuard f r (guardFollow p s f r)) n body) ((s.openGuard n (guardFollow
      p s f r)).cleaned r entry copy (s.key "")) s₁)
    (ihRest : Job.Places p (.goOn f [.guarded (s.key "") r body [] (some [.stmts .none entry code])]
      (guardFollow p s f r) more) (s₁.release (guardFollow p s f r)) s₂) :
    Job.Places p (.emit f n (.guarded (s.key "") r body [] (some [.stmts .none entry code]) :: more)) s s₂ := by
  intro inside known
  obtain ⟨around,parent⟩ := parentOfPending shaped.nested (shaped.inside n) inside outside
  have below := Graph.aroundInside shaped.nested (shaped.inside n) around
  obtain ⟨a,groups,types,same⟩ := cleanupGroup clean
  have fits : (Clauses.cleanup entry).Fits (ownGroups p r) := ⟨a,groups,types,same⟩
  have known₀ : Known p ((s.openGuard n (guardFollow p s f r)).cleaned r entry copy (s.key "")) :=
    ((known.same (State.regionsOpenGuard ..)).opened fits).same (State.regionsPlace ..)
  obtain ⟨stands,known₁⟩ := ihInner (insideGuarded inside around) known₀
  obtain ⟨standsRest,known₂⟩ := ihRest (known₁.same rfl)
  refine ⟨.cons (standsGuarded below parent.symm ?_ stands nofun) standsRest,known₂⟩
  rw [groups,List.map_singleton,types,same]
  simp [clauseHeads,sourcesAll,sources,nodeIfReal]

theorem placesCatches {r : RegionId} {heads : List CatchHead} {body more : List Piece}
    {bodies : List (List Piece)} {s₀ s₁ s₂ s₃ : State} (shaped : p.graph.Shaped)
    (outside : pendingRegion? p f n = some r)
    (clauses : (openClauses p.graph (ownGroups p r)).from (s.openGuard n (guardFollow p s f r)) = (heads,s₀))
    (ihInner : Job.Places p (.emit (insideGuard f r (guardFollow p s f r)) n body) (s₀.openRegion r (.catches
      heads)) s₁)
    (handlers : Writes p (.each (heads.map fun h => (outsideGuard f (guardFollow p s f r),h.node)) bodies) s₁ s₂)
    (ihHandlers : Job.Places p (.each (heads.map fun h => (outsideGuard f (guardFollow p s f r),h.node))
      bodies) s₁ s₂)
    (ihRest : Job.Places p (.goOn f [.guarded (s.key "") r body (heads.zip bodies) none] (guardFollow p s f r)
      more) (s₂.release (guardFollow p s f r)) s₃) :
    Job.Places p (.emit f n (.guarded (s.key "") r body (heads.zip bodies) none :: more)) s s₃ := by
  intro inside known
  obtain ⟨around,parent⟩ := parentOfPending shaped.nested (shaped.inside n) inside outside
  have below := Graph.aroundInside shaped.nested (shaped.inside n) around
  obtain ⟨fits,regions⟩ := openClausesFits p.graph (ownGroups p r)
    (s.openGuard n (guardFollow p s f r))
  rw [clauses] at fits regions
  have known₀ : Known p s₀ := known.same (regions.trans (State.regionsOpenGuard ..))
  obtain ⟨stands,known₁⟩ := ihInner (insideGuarded inside around) (known₀.opened fits)
  obtain ⟨standsHandlers,known₂⟩ := ihHandlers known₁
  obtain ⟨standsRest,known₃⟩ := ihRest (known₂.same rfl)
  have same : bodies.length = heads.length := by rw [bodiesLength handlers,List.length_map]
  refine ⟨.cons (standsGuarded below parent.symm ?_ stands (standsZip ?_)) standsRest,known₃⟩
  · have all := congrArg (List.map fun y => (y.1,(y.2 : Int))) fits
    rw [List.map_map,List.map_map] at all
    rw [headsZip same]
    exact all
  · refine standsHandlers _ fun j member => ?_
    obtain ⟨h,-,rfl⟩ := List.mem_map.mp member
    rfl

theorem placesAgain {r : RegionId} {c : Clauses} {catches : List (CatchHead × List Piece)}
    {body more : List Piece} {s₀ s₁ s₂ : State} (shaped : p.graph.Shaped)
    (outside : pendingRegion? p f n = some r) (found : s.regions.get? r = some c)
    (clauses : (repeatClauses p.graph c).from (s.openGuard n (followOfRegion p s f r [])) = (catches,s₀))
    (ihInner : Job.Places p (.emit (insideGuard f r (followOfRegion p s f r [])) n body) s₀ s₁)
    (ihRest : Job.Places p (.goOn f [.guarded (s.key "") r body catches none] (followOfRegion p s f r []) more)
      (s₁.release (followOfRegion p s f r [])) s₂) :
    Job.Places p (.emit f n (.guarded (s.key "") r body catches none :: more)) s s₂ := by
  intro inside known
  obtain ⟨around,parent⟩ := parentOfPending shaped.nested (shaped.inside n) inside outside
  have below := Graph.aroundInside shaped.nested (shaped.inside n) around
  obtain ⟨fits,regions,standsClauses⟩ := repeatClausesFits (known r c found)
    (s.openGuard n (followOfRegion p s f r []))
  rw [clauses] at fits regions standsClauses
  have known₀ : Known p s₀ := known.same (regions.trans (State.regionsOpenGuard ..))
  obtain ⟨stands,known₁⟩ := ihInner (insideGuarded inside around) known₀
  obtain ⟨standsRest,known₂⟩ := ihRest (known₁.same rfl)
  exact ⟨.cons (standsGuarded below parent.symm fits stands (standsClauses _)) standsRest,known₂⟩

theorem Writes.places {job : Job} (shaped : p.graph.Shaped) (tested : Tested p)
    (writes : Writes p job s s') : job.Places p s s' := by
  induction writes with
  | nowhere => exact fun known => ⟨.nil,known⟩
  | inline way rest ih => exact fun known => ih (routeInside way) known
  | falls way => exact fun known => ⟨.nil,known⟩
  | breaks way =>
    exact fun known => ⟨.cons (standsJump rfl trivial) .nil,known.same (State.regionsNameScope ..)⟩
  | continues way =>
    exact fun known => ⟨.cons (standsJump rfl trivial) .nil,known.same (State.regionsNameScope ..)⟩
  | jumps way =>
    exact fun known => ⟨.cons (standsJump rfl trivial) .nil,known.same (State.regionsGoto ..)⟩
  | nothing => exact fun known => ⟨fun _ _ => nofun,known⟩
  | each first rest ihFirst ihRest =>
    intro known
    obtain ⟨stands,known₁⟩ := ihFirst known
    obtain ⟨others,known₂⟩ := ihRest known₁
    refine ⟨fun x same => ?_,known₂⟩
    obtain ⟨head,tail⟩ := List.forall_mem_cons.mp same
    exact List.forall_mem_cons.mpr ⟨head ▸ stands,others x tail⟩
  | ends => exact fun known => ⟨.nil,known⟩
  | never jump way => exact fun known => ⟨.nil,known⟩
  | behind jump way rest ih => exact fun known => ih (routeInside way) known
  | on passes rest ih => exact ih
  | last bare noBranch noSwitch alone =>
    intro inside known
    exact ⟨.cons (standsStatement (activeHere shaped inside bare.1)) .nil,known.same (State.regionsStatement ..)⟩
  | plain bare kind succ rest ih =>
    intro inside known
    obtain ⟨stands,known₁⟩ := ih (known.same (State.regionsStatement ..))
    exact ⟨.cons (standsStatement (activeHere shaped inside bare.1)) stands,known₁⟩
  | branch bare kind sides start left right rest ihLeft ihRight ihRest =>
    exact placesBranch shaped bare start ihLeft ihRight ihRest
  | switch bare kind start arms rest ihArms ihRest => exact placesSwitch shaped bare start ihArms ihRest
  | pretest outside starts settled kind inner rest ihInner ihRest =>
    exact placesPretest shaped tested outside starts settled kind ihInner ihRest
  | posttest outside starts settled kind test inner rest ihInner ihRest =>
    exact placesPosttest shaped tested outside starts settled kind test ihInner ihRest
  | endless outside starts settled kind test inner rest ihInner ihRest =>
    exact placesEndless shaped outside ihInner ihRest
  | cleanup outside first clean inner rest ihInner ihRest =>
    exact placesCleanup shaped outside clean ihInner ihRest
  | catches outside first noCleanup clauses inner handlers rest ihInner ihHandlers ihRest =>
    exact placesCatches shaped outside clauses ihInner handlers ihHandlers ihRest
  | again outside found clauses inner rest ihInner ihRest =>
    exact placesAgain shaped outside found clauses ihInner ihRest

end Recovery

end RegCode
