import RegCode.Proofs.Chains.Lines
import RegCode.Proofs.Recovery.Protection
import RegCode.Proofs.Recovery.Strokes

/-! Code that is written for a graph without line breaks has none either: what its parts say stands in the
graph, and labels are words with a number. -/
namespace RegCode

def CatchHead.OneLine (h : CatchHead) : Prop := ∀ type ∈ h.types, Text.OneLine type

def Tree.OneLine {α : Type} : Tree α → Prop
  | block _ _ => True
  | stmts _ _ ss => ∀ s ∈ ss, s.act.OneLine
  | branch _ _ c _ _ => c.toExpr.OneLine
  | loop _ _ _ _ c _ => ∀ x ∈ c, x.toExpr.OneLine
  | switch _ _ v _ => ∀ e ∈ v, e.OneLine
  | guarded _ _ _ cs _ => ∀ c ∈ cs, c.1.OneLine
  | goto _ target | breakTo _ target | continueTo _ target => Text.OneLine target

/-- A part without line breaks in what it says and in its label. -/
def Layout.Plain (x : Tree String) : Prop := x.OneLine ∧ Text.OneLine x.label

namespace Recovery

open RegCode.Tree

theorem nodeNameLine (n : NodeId) : Text.OneLine (nodeName n) := by simp +decide [nodeName]

theorem loopNameLine (n : NodeId) : Text.OneLine (loopName n) := by simp +decide [loopName]

theorem switchNameLine (n : NodeId) : Text.OneLine (switchName n) := by simp +decide [switchName]

def Group.OneLine (a : Group) : Prop := ∀ type ∈ a.types, Text.OneLine type

theorem addHandlerLine {h : CatchEntry} (line : Text.OneLine h.type) {groups : List Group}
    (lines : ∀ a ∈ groups, a.OneLine) : ∀ a ∈ addHandler h groups, a.OneLine := by
  induction groups with
  | nil =>
    refine List.forall_mem_singleton.mpr fun type member => ?_
    dsimp only at member
    split at member
    · contradiction
    · exact List.mem_singleton.mp member ▸ line
  | cons a groups ih =>
    obtain ⟨first,rest⟩ := List.forall_mem_cons.mp lines
    unfold addHandler
    split
    · refine List.forall_mem_cons.mpr ⟨?_,rest⟩
      split
      · exact first
      · exact List.forall_mem_append.mpr ⟨first,List.forall_mem_singleton.mpr line⟩
    · exact List.forall_mem_cons.mpr ⟨first,ih rest⟩

theorem groupHandlersLine {order : HandlerOrder} {hs : List CatchEntry} (lines : ∀ h ∈ hs, Text.OneLine h.type) :
    ∀ a ∈ groupHandlers order hs, a.OneLine := by
  have grouped : ∀ a ∈ hs.foldl (fun as h => addHandler h as) [], a.OneLine :=
    List.foldlRecOn hs _ (motive := fun groups : List Group => ∀ a ∈ groups, a.OneLine) (by simp)
      fun _ before h member => addHandlerLine (lines h member) before
  have widened : ∀ a ∈ (hs.foldl (fun as h => addHandler h as) []).map fun a =>
      if a.catchAll then { a with types := [anyThrown] } else a, a.OneLine := by
    refine List.forall_mem_map.mpr fun a member => ?_
    split
    · exact List.forall_mem_singleton.mpr (show Text.OneLine anyThrown by decide)
    · exact grouped a member
  unfold groupHandlers
  cases order with
  | table => exact widened
  | catchAllLast =>
    exact List.forall_mem_append.mpr ⟨fun a member => widened a (List.mem_filter.mp member).1,
      fun a member => widened a (List.mem_filter.mp member).1⟩

variable {p : Plan} {f : Frame} {n : NodeId} {s s₀ s₁ s' : State} {a b : List Piece}

theorem ownGroupsLine (line : p.graph.OneLine) (r : RegionId) : ∀ a ∈ ownGroups p r, a.OneLine := by
  refine groupHandlersLine fun h member => ?_
  have own := List.mem_of_mem_take member
  dsimp only [Option.bind_some] at own
  cases found : p.graph.region? r with
  | none =>
    rw [found] at own
    contradiction
  | some q =>
    rw [found] at own
    exact line.types q (Array.mem_of_getElem? found) h own

theorem testLine {node : Node} (lines : ∀ s ∈ node.stmts, s.act.OneLine) :
    (node.test?.getD default).toExpr.OneLine := by
  unfold Node.test?
  split
  · rename_i c last
    obtain ⟨s,ends,act⟩ := Option.map_eq_some_iff.mp last
    have own := lines s (List.mem_of_getLast? ends)
    rwa [act] at own
  · exact trivial

theorem loopTestLine (line : p.graph.OneLine) (test staysAt : NodeId) :
    (loopTest p.graph test staysAt).toExpr.OneLine := by
  unfold loopTest
  dsimp only
  split
  · exact (Test.oneLineNegate _).mpr (testLine (line.acts test))
  · exact testLine (line.acts test)

theorem orientLine {node : Node} (lines : ∀ s ∈ node.stmts, s.act.OneLine) {follow : Option NodeId} {cond : Test}
    {first second : Option NodeId} (sides : orient p s f node follow = (cond,first,second)) : cond.toExpr.OneLine := by
  have test := testLine lines
  unfold orient at sides
  dsimp only at sides
  split at sides
  · cases sides
    exact test
  · split at sides
    · cases sides
      exact (Test.oneLineNegate _).mpr test
    · split at sides <;> cases sides
      · exact test
      · exact (Test.oneLineNegate _).mpr test

theorem switchValueLine {node : Node} (lines : ∀ s ∈ node.stmts, s.act.OneLine) :
    ∀ e ∈ switchValue node, e.OneLine := by
  unfold switchValue
  split
  · rename_i e last
    obtain ⟨s,ends,act⟩ := Option.map_eq_some_iff.mp last
    have own := lines s (List.mem_of_getLast? ends)
    rw [act] at own
    rintro _ ⟨⟩
    exact own
  · exact nofun

theorem cleanupLine (line : p.graph.OneLine) {r : RegionId} {groups : List Group} {follow : Option NodeId}
    {entry : NodeId} {code : List Stmt} {copy : List Loc}
    (clean : cleanup? p r groups follow = some (entry,code,copy)) : ∀ s ∈ code, s.act.OneLine := by
  unfold cleanup? at clean
  split at clean
  · obtain ⟨_,-,fits⟩ := Option.bind_eq_some_iff.mp clean
    dsimp only at fits
    split at fits
    · cases Option.some.inj fits
      exact fun s member => line.acts _ s (List.mem_of_mem_drop (List.mem_of_mem_dropLast member))
    · contradiction
  · contradiction

theorem headsLine {groups : List Group} (lines : ∀ a ∈ groups, a.OneLine) {heads : List CatchHead}
    (same : (heads.map fun h => (h.types,h.node)) = groups.map fun a => (a.types,a.entry)) :
    ∀ h ∈ heads, h.OneLine := by
  intro h member
  obtain ⟨a,inside,same⟩ := List.mem_map.mp (same ▸ List.mem_map_of_mem member)
  have types : a.types = h.types := congrArg Prod.fst same
  exact fun type held => lines a inside type (types ▸ held)

theorem partsDropLast (ts : List Piece) : partsAll ts.dropLast ⊆ partsAll ts := by
  intro t member
  rcases ts.eq_nil_or_concat with rfl | ⟨front,last,rfl⟩
  · exact member
  · rw [List.concat_eq_append,List.dropLast_concat] at member
    rw [List.concat_eq_append,partsAppend]
    exact List.mem_append_left _ member

theorem partsDropContinue (body : List Piece) : partsAll (dropLastContinue body) ⊆ partsAll body := by
  unfold dropLastContinue
  split
  · exact partsDropLast body
  · exact List.Subset.refl _

theorem partsDropBreak (arms : List (ArmHead × List Piece)) : partsArms (dropLastBreak arms) ⊆ partsArms arms := by
  induction arms with
  | nil => exact List.Subset.refl _
  | cons a arms ih =>
    obtain ⟨h,body⟩ := a
    cases arms with
    | nil =>
      unfold dropLastBreak
      split
      · simpa [partsArms] using partsDropLast body
      · exact List.Subset.refl _
    | cons b arms =>
      rw [dropLastBreak,partsArms]
      · exact List.append_subset.mpr ⟨List.subset_append_left ..,fun t member => List.mem_append_right _ (ih member)⟩
      · simp

theorem partsCatchesFlat (cs : List (CatchHead × List Piece)) : partsCatches cs = partsAll (cs.flatMap Prod.snd) := by
  induction cs with
  | nil => rfl
  | cons c cs ih => rw [partsCatches,List.flatMap_cons,partsAppend,ih]

def Clauses.OneLine : Clauses → Prop
  | .catches heads => ∀ h ∈ heads, h.OneLine
  | .cleanup _ => True

structure State.OneLine (s : State) : Prop where
  names : ∀ key x, s.names.get? key = some x → Text.OneLine x
  clauses : ∀ r c, s.regions.get? r = some c → c.OneLine

def Spells (s : State) (out : List Piece) (s' : State) : Prop :=
  s.OneLine → (∀ t ∈ partsAll out, t.OneLine) ∧ s'.OneLine

namespace Spells

theorem quiet {z : State} (names : z.names = s.names) (regions : z.regions = s.regions) : Spells s [] z :=
  fun line => ⟨nofun,fun key x here => line.names key x (names ▸ here),
    fun r c found => line.clauses r c (regions ▸ found)⟩

theorem refl (s : State) : Spells s [] s := quiet rfl rfl

theorem trans (first : Spells s a s₁) (rest : Spells s₁ b s') : Spells s (a ++ b) s' := by
  intro line
  obtain ⟨here,line⟩ := first line
  rw [partsAppend]
  exact (rest line).imp_left fun later => List.forall_mem_append.mpr ⟨here,later⟩

theorem after (first : Spells s a s₁) (closed : Spells s₁ [] s') : Spells s a s' :=
  a.append_nil ▸ first.trans closed

theorem around {x : Piece} (line : x.OneLine) (inner : Spells s a s')
    (inside : ∀ t ∈ partsAll b, t = x ∨ t ∈ partsAll a) : Spells s b s' := fun before =>
  (inner before).imp_left fun lines t member => (inside t member).elim (fun same => same ▸ line) (lines t)

theorem part {x : Piece} (line : x.OneLine) (inner : Spells s a s') (inside : ∀ t ∈ x.parts, t = x ∨ t ∈ partsAll a) :
    Spells s [x] s' := around line inner (by simpa [partsAll] using inside)

theorem single {x : Piece} (line : x.OneLine) (flat : x.parts = [x]) (noted : Spells s [] s') : Spells s [x] s' :=
  part line noted fun _ member => .inl (List.mem_singleton.mp (flat ▸ member))

theorem place (s : State) (n : NodeId) (key : Key) : Spells s [] (s.place n key) := by
  refine fun line => ⟨nofun,fun k x here => ?_,fun r c found => line.clauses r c (s.regionsPlace n key ▸ found)⟩
  rw [State.placeNames] at here
  split at here
  · exact Option.some.inj here ▸ nodeNameLine n
  · exact line.names k x here

theorem opens (s : State) (n : NodeId) (own : String) : Spells s [] (s.bump.place n (s.key own)) :=
  (quiet (s := s) (z := s.bump) rfl rfl).after (place s.bump n (s.key own))

theorem nameScope (s : State) {scope : Option Key} (line : ∀ key ∈ scope, Text.OneLine key.own) :
    Spells s [] (s.nameScope scope) := by
  cases scope with
  | none => exact refl s
  | some k =>
    refine fun before => ⟨nofun,fun key x here => ?_,before.clauses⟩
    rw [State.namesNameScope] at here
    split at here
    · exact Option.some.inj here ▸ line k rfl
    · exact before.names key x here

theorem goto (s : State) (n : NodeId) : Spells s [(s.goto n).1] (s.goto n).2 := by
  intro line
  have regions := s.regionsGoto n
  have said : ∀ {text}, (s.goto n).1 = .goto (.aim n) text → Text.OneLine text →
      ∀ t ∈ partsAll [(s.goto n).1], t.OneLine := by
    intro text jump own
    rw [jump]
    exact List.forall_mem_singleton.mpr own
  obtain ⟨-,-,-,⟨-,jump,names,-⟩ | ⟨-,key,-,⟨name,named,jump,names⟩ | ⟨-,jump,names⟩⟩⟩ := s.gotoLabel n
  · exact ⟨said jump (nodeNameLine n),(quiet names regions line).2⟩
  · exact ⟨said jump (line.names key name named),(quiet names regions line).2⟩
  · refine ⟨said jump (nodeNameLine n),fun k x here => ?_,fun r c found => line.clauses r c (regions ▸ found)⟩
    rw [names,Table.get?_insert] at here
    split at here
    · exact Option.some.inj here ▸ nodeNameLine n
    · exact line.names k x here

theorem openRegion (s : State) (r : RegionId) {c : Clauses} (line : c.OneLine) : Spells s [] (s.openRegion r c) := by
  refine fun before => ⟨nofun,before.names,fun q d found => ?_⟩
  rw [State.openRegion,Table.get?_insert] at found
  split at found
  · exact Option.some.inj found ▸ line
  · exact before.clauses q d found

theorem statement (s : State) (n : NodeId) {ss : List Stmt} (lines : ∀ t ∈ ss, t.act.OneLine) :
    Spells s [(s.statement n ss).1] (s.statement n ss).2 := by
  refine single (fun t member => lines t (List.mem_filter.mp member).1) rfl ?_
  exact (opens s n "").after (quiet rfl rfl)

theorem lead {ss : List Stmt} (lines : ∀ t ∈ ss, t.act.OneLine) (start : s.lead n ss = (a,s₀)) : Spells s a s₀ := by
  unfold State.lead at start
  split at start <;> cases start
  · exact refl s
  · exact statement s n fun t member => lines t (List.mem_of_mem_dropLast member)

theorem enter (s : State) (n : NodeId) (own : String) (follow : Option NodeId) :
    Spells s [] (s.enter n own follow) := (opens s n own).after (quiet rfl rfl)

theorem openGuard (s : State) (n : NodeId) (follow : Option NodeId) : Spells s [] (s.openGuard n follow) :=
  (opens s n "").after (quiet rfl rfl)

theorem cleaned (s : State) (r : RegionId) (entry : NodeId) (copy : List Loc) (key : Key) :
    Spells s [] (s.cleaned r entry copy key) := by
  have opened := (openRegion s r (c := .cleanup entry) trivial).after
    (quiet (z := (s.openRegion r (.cleanup entry)).skip copy) rfl rfl)
  exact (opened.after (place _ entry key)).after (quiet rfl rfl)

theorem openClauses (g : Graph) (groups : List Group) (s : State) :
    Spells s [] ((openClauses g groups).from s).2 := by
  induction groups generalizing s with
  | nil => exact refl s
  | cons a groups ih =>
    have head : Spells s [] ((openClause g a).from s).2 := by
      unfold openClause
      split
      · rw [fromBind,fromGet]
        split <;> exact quiet rfl rfl
      · exact refl s
    exact head.after (ih _)

theorem jumpClauses {heads : List CatchHead} (lines : ∀ h ∈ heads, h.OneLine) (s : State) :
    (∀ c ∈ ((jumpClauses heads).from s).1, c.1.OneLine) ∧ Spells s
      (((jumpClauses heads).from s).1.flatMap Prod.snd) ((jumpClauses heads).from s).2 := by
  induction heads generalizing s with
  | nil => exact ⟨nofun,refl s⟩
  | cons h heads ih =>
    obtain ⟨first,rest⟩ := List.forall_mem_cons.mp lines
    obtain ⟨types,spells⟩ := ih rest (s.goto h.node).2
    exact ⟨List.forall_mem_cons.mpr ⟨first,types⟩,(goto s h.node).trans spells⟩

theorem repeatClauses (line : p.graph.OneLine) {c : Clauses} (own : c.OneLine) (s : State) :
    (∀ k ∈ ((repeatClauses p.graph c).from s).1, k.1.OneLine) ∧ Spells s
      (((repeatClauses p.graph c).from s).1.flatMap Prod.snd) ((repeatClauses p.graph c).from s).2 := by
  cases c with
  | cleanup entry =>
    refine ⟨List.forall_mem_singleton.mpr (List.forall_mem_singleton.mpr ?_),single (fun t member => ?_) rfl (refl s)⟩
    · show Text.OneLine anyThrown
      decide
    · exact line.acts entry t (List.mem_of_mem_drop member)
  | catches heads => exact jumpClauses own s

end Spells

def Job.scopes : Job → List Scope
  | .emit f _ _ | .go f _ _ | .goOn f _ _ _ => f.scopes
  | .each jobs _ => jobs.flatMap fun j => j.1.scopes

def Spelled (scopes : List Scope) : Prop := ∀ x ∈ scopes, ∀ key ∈ x.key?, Text.OneLine key.own

theorem scopeLine {t : NodeId} {scope : Option Key} (keys : Spelled f.scopes)
    (way : route p s f t = .breakTo scope ∨ route p s f t = .continueTo scope) :
    ∀ key ∈ scope, Text.OneLine key.own := by
  rintro key rfl
  obtain ⟨x,member,same⟩ := routeAmong way
  exact keys x member key same

theorem Spelled.inside {scopes : List Scope} {x : Scope} (keys : Spelled scopes)
    (own : ∀ key ∈ x.key?, Text.OneLine key.own) : Spelled (x :: scopes) := List.forall_mem_cons.mpr ⟨own,keys⟩

theorem Spelled.loop {shape : LoopShape} (keys : Spelled f.scopes) (n : NodeId) :
    Spelled (loopScopes f shape n s) := keys.inside (by rintro _ ⟨⟩; exact loopNameLine n)

theorem Spelled.guarded {r : RegionId} (keys : Spelled f.scopes) : Spelled (.guarded r :: f.scopes) := keys.inside nofun

theorem Spells.exit {x : Piece} {scope : Option Key} (lines : ∀ key ∈ scope, Text.OneLine key.own)
    (jump : x = .breakTo .none (scopeText scope) ∨ x = .continueTo .none (scopeText scope)) :
    Spells s [x] (s.nameScope scope) := by
  have text : Text.OneLine (scopeText scope) := by
    cases scope with
    | none =>
      show Text.OneLine ""
      decide
    | some key => exact lines key rfl
  rcases jump with rfl | rfl <;> exact single text rfl (nameScope s lines)

theorem Spells.loop {body more : List Piece} {key : Key} {kind : LoopKind} {test : Int} {cond : Option Test}
    (whole : Spells s body s₁) (line : ∀ c ∈ cond, c.toExpr.OneLine) (rest : Spells s₁ more s') :
    Spells s (.loop key kind test n cond (dropLastContinue body) :: more) s' := by
  have loop := whole.part (x := .loop key kind test n cond (dropLastContinue body)) line fun t member => by
    rw [parts] at member
    exact (List.mem_cons.mp member).imp id (partsDropContinue body ·)
  exact loop.trans rest

theorem Writes.spells {job : Job} (line : p.graph.OneLine) (writes : Writes p job s s') (keys : Spelled job.scopes) :
    Spells s job.written s' := by
  induction writes with
  | nowhere | falls | nothing | ends | never => exact .refl _
  | inline way rest ih | behind jump way rest ih | on passes rest ih => exact ih keys
  | breaks way => exact .exit (scopeLine keys (.inl way)) (.inl rfl)
  | continues way => exact .exit (scopeLine keys (.inr way)) (.inr rfl)
  | @jumps f t s way => exact .goto s t
  | each first rest ihFirst ihRest =>
    rw [Job.scopes,List.flatMap_cons] at keys
    obtain ⟨here,others⟩ := List.forall_mem_append.mp keys
    rw [Job.written,List.flatten_cons]
    exact (ihFirst here).trans (ihRest others)
  | last => exact .statement _ _ (line.acts _)
  | @plain f n t out s s' bare kind succ rest ih => exact (Spells.statement s n (line.acts n)).trans (ih keys)
  | @branch f n cond first second lead onTrue onFalse more s s₀ s₁ s₂ s₃ bare kind sides start left
      right rest ihLeft ihRight ihRest =>
    have side : Spelled (sideFrame f (p.branchFollows.get? n)).scopes := by rwa [sideScopes]
    have inner := ((Spells.enter s₀ n "" _).trans ((ihLeft side).trans (ihRight side))).after
      (.quiet (z := s₂.leave n (p.branchFollows.get? n)) rfl rfl)
    obtain ⟨c,x,y,test,pieces⟩ := partsBranch (s₀.key "") n cond (p.branchFollows.get? n).isSome onTrue onFalse
    have cond := orientLine (line.acts n) sides
    have test : c.toExpr.OneLine := by
      rcases test with rfl | rfl
      · exact cond
      · exact (Test.oneLineNegate _).mpr cond
    have whole := inner.around (x := .branch (s₀.key "") n c x y) test fun t member => by
      rw [pieces] at member
      rwa [List.nil_append,partsAppend,← List.mem_cons]
    exact ((Spells.lead (line.acts n) start).trans whole).trans (ihRest keys)
  | @switch f n lead bodies more s s₀ s₁ s₂ bare kind start arms rest ihArms ihRest =>
    have scopes : Spelled (Job.each (switchJobs p f n s₀) bodies).scopes := by
      intro x member
      obtain ⟨j,among,inside⟩ := List.mem_flatMap.mp member
      rw [armJobsScopes _ _ j among] at inside
      exact keys.inside (by rintro _ ⟨⟩; exact switchNameLine n) x inside
    have inner := ((Spells.enter s₀ n (switchName n) _).trans (ihArms scopes)).after
      (.quiet (z := s₁.leave n (switchFollow p f n)) rfl rfl)
    have whole := inner.part (x := .switch (s₀.key (switchName n)) n (switchValue (p.graph.node n))
      (writtenArms p f n bodies)) (switchValueLine (line.acts n)) fun t member => by
        rw [parts] at member
        refine (List.mem_cons.mp member).imp id fun inside => ?_
        exact partsSwitch arms ▸ partsDropBreak _ inside
    exact ((Spells.lead (line.acts n) start).trans whole).trans (ihRest keys)
  | @pretest f n found shape body more s s₁ s₂ outside starts settled kind inner rest ihInner ihRest =>
    have opened := (Spells.opens s n (loopName n)).after (.quiet (z := (s.openLoop n).setMark n .entered) rfl rfl)
    have whole := (opened.trans (ihInner (keys.loop n))).after (.quiet (z := s₁.setMark n .finished) rfl rfl)
    exact whole.loop (by rintro _ ⟨⟩; exact loopTestLine line n shape.start) (ihRest keys)
  | @posttest f n found shape latch body more s s₁ s₂ outside starts settled kind test inner rest
      ihInner ihRest =>
    have opened := ((Spells.opens s n (loopName n)).after (.place _ latch (s.key (loopName n)))).after
      (.quiet (z := ((s.openLoop n).place latch (s.key (loopName n))).setMark latch .entered) rfl rfl)
    have whole := (opened.trans (ihInner (keys.loop n))).after (.quiet (z := s₁.setMark latch .finished) rfl rfl)
    exact whole.loop (by rintro _ ⟨⟩; exact loopTestLine line latch n) (ihRest keys)
  | @endless f n found shape body more s s₁ s₂ outside starts settled kind test inner rest ihInner
      ihRest =>
    exact ((Spells.opens s n (loopName n)).trans (ihInner (keys.loop n))).loop (by rintro _ ⟨⟩) (ihRest keys)
  | @cleanup f n r entry code copy body more s s₁ s₂ outside first clean inner rest ihInner ihRest =>
    have opened := (Spells.openGuard s n (guardFollow p s f r)).after (.cleaned _ r entry copy (s.key ""))
    have closed : Spells s₁ [.stmts .none entry code] (s₁.release (guardFollow p s f r)) :=
      .single (cleanupLine line clean) rfl (.quiet rfl rfl)
    have whole := ((opened.trans (ihInner keys.guarded)).trans closed).part (x := .guarded (s.key "") r body []
      (some [.stmts .none entry code])) (by rintro _ ⟨⟩) fun t member => by
        simpa [Job.written,partsAll,parts,partsCatches,partsAppend] using member
    exact whole.trans (ihRest keys)
  | @catches f n r heads body bodies more s s₀ s₁ s₂ s₃ outside first noCleanup clauses inner handlers
      rest ihInner ihHandlers ihRest =>
    obtain ⟨same,-⟩ := openClausesFits p.graph (ownGroups p r) (s.openGuard n (guardFollow p s f r))
    have known := Spells.openClauses p.graph (ownGroups p r) (s.openGuard n (guardFollow p s f r))
    rw [clauses] at same known
    have types := headsLine (ownGroupsLine line r) same
    have scopes : Spelled (Job.each (heads.map fun h =>
        (outsideGuard f (guardFollow p s f r),h.node)) bodies).scopes := by
      intro x member
      obtain ⟨j,among,inside⟩ := List.mem_flatMap.mp member
      obtain ⟨h,-,rfl⟩ := List.mem_map.mp among
      exact keys x inside
    have opened := ((Spells.openGuard s n (guardFollow p s f r)).after known).after
      (.openRegion s₀ r (c := .catches heads) types)
    have written := ((opened.trans (ihInner keys.guarded)).trans (ihHandlers scopes)).after
      (.quiet (z := s₂.release (guardFollow p s f r)) rfl rfl)
    have zipped : bodies.length = heads.length := by rw [bodiesLength handlers,List.length_map]
    have whole := written.part (x := .guarded (s.key "") r body (heads.zip bodies) none)
      (fun c member => types c.1 (List.of_mem_zip member).1) fun t member => by
        simpa [Job.written,parts,partsAppend,partsZipCatches _ _ zipped] using member
    exact whole.trans (ihRest keys)
  | @again f n r c catches body more s s₀ s₁ s₂ outside known clauses inner rest ihInner ihRest =>
    intro before
    obtain ⟨types,jumps⟩ := Spells.repeatClauses line (before.clauses r c known)
      (s.openGuard n (followOfRegion p s f r []))
    rw [clauses] at types jumps
    have opened := (Spells.openGuard s n (followOfRegion p s f r [])).trans jumps
    have written := (opened.trans (ihInner keys.guarded)).after
      (.quiet (z := s₁.release (followOfRegion p s f r [])) rfl rfl)
    have whole := written.part (x := .guarded (s.key "") r body catches none) types fun t member => by
      simpa [Job.written,parts,partsAppend,partsCatchesFlat,or_comm] using member
    exact whole.trans (ihRest keys) before

theorem remainsSpells (line : p.graph.OneLine) {ns : List NodeId} {out : List Piece} (remains : Remains p ns out s s') :
    Spells s out s' := by
  induction remains with
  | none => exact .refl _
  | met met rest ih => exact ih
  | @more n ns out outs s s₁ s₂ free here rest ih =>
    exact ((Spells.quiet (s := s) (z := s.want n) rfl rfl).trans (here.spells line nofun)).trans ih

theorem draftSpells (line : p.graph.OneLine) {entry : NodeId} {w : Draft} (drafted : Drafted p entry w) :
    Spells {} w.body w.state := by
  obtain ⟨out,rest,s,here,remains,body⟩ := drafted
  exact body ▸ (here.spells line nofun).trans (remainsSpells line remains)

end Recovery

theorem Tree.lineRelabel {α β : Type} (f : α → β) {t : Tree α} (line : t.OneLine) : (t.relabel f).OneLine := by
  cases t with
  | branch _ _ _ _ b => cases b <;> exact line
  | guarded _ _ _ cs z =>
    have types : ∀ c ∈ relabelCatches f cs, c.1.OneLine := by
      rw [relabelCatchesMap]
      exact List.forall_mem_map.mpr line
    cases z <;> exact types
  | _ => exact line

theorem Graph.recoverPlain {g : Graph} (line : g.OneLine) {d : Dominators} {policy : Policy} {r : Recovered}
    (made : g.recover d policy = .ok r) : ∀ t ∈ r.root.parts, Layout.Plain t := by
  obtain ⟨r',code,root,writing⟩ := g.recoverWritten d policy
  cases made.symm.trans code
  have spells : Recovery.Spells {} (g.written d policy).body (g.written d policy).state := by
    rcases writing with blank | ⟨⟨entry,drafted⟩,-⟩
    · rw [blank]
      exact .refl _
    · exact Recovery.draftSpells line drafted
  obtain ⟨lines,noted⟩ := spells ⟨fun _ _ here => by simp at here,fun _ _ found => by simp at found⟩
  rw [root,Tree.partsRelabel,Tree.parts]
  have plain : ∀ t : Recovery.Piece, t.OneLine →
      Layout.Plain (t.relabel fun key => (g.written d policy).state.names.getD key "") := by
    refine fun t line => ⟨Tree.lineRelabel _ line,?_⟩
    rw [Tree.labelRelabel,Table.getD]
    cases name : (g.written d policy).state.names.get? t.label with
    | none =>
      show Text.OneLine ""
      decide
    | some x => exact noted.names t.label x name
  exact List.forall_mem_map.mpr (List.forall_mem_cons.mpr ⟨plain _ trivial,fun t member => plain t (lines t member)⟩)

end RegCode
