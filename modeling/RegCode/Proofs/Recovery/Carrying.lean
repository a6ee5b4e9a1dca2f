import RegCode.Proofs.Recovery.Frames

/-! What is written runs as the graph runs, statement by statement. Rule by rule, the code of a job plays the
node that it is for, as far as what is to be done around it plays what the scopes around it lead to. -/
namespace RegCode.Recovery

open RegCode.Tree

variable {w : Draft} {p : Plan} {i j : Nat} {f : Frame} {ss : List Scope} {k : Tasks} {n t u x : NodeId}
  {s s₀ s₁ s' : State} {key : Key} {r : RegionId}

/-! ### Jobs -/

def Among (w : Draft) (ts : List Piece) : Prop := ∀ d ∈ deedsOf ts, d ∈ deedsOf w.body

theorem amongAppend {ts us : List Piece} : Among w (ts ++ us) ↔ Among w ts ∧ Among w us := by
  rw [Among,deedsOf,deedsAppend,List.map_append]
  exact List.forall_mem_append

theorem Among.cons {t : Piece} {ts : List Piece} (among : Among w (t :: ts)) : Among w [t] ∧ Among w ts :=
  amongAppend.mp (show Among w ([t] ++ ts) from among)

def Rests (w : Draft) (p : Plan) (j : Nat) (f : Frame) (k : Tasks) : Prop :=
  ∀ x, f.stop = some x ∨ f.fall = some x → Plays w p.graph j (w.owed p f.scopes x) k x

def Carry (w : Draft) (p : Plan) (f : Frame) (t : Option NodeId) (out : List Piece) : Prop :=
  ∀ j k, Bears w p j f.scopes k → Minded w p (spotsAll out) k → (endsInJump out = false → Rests w p j f k) →
    (∀ x, t = some x → Plays w p.graph j (w.owed p f.scopes x) (push out k) x) ∧
      Tallies w p (j + 1) (spotsAll out) k

structure Comes (p : Plan) (f : Frame) (n : NodeId) (s : State) : Prop extends Sits p f s where
  member : n ∈ p.graph.rpo
  unmet : ¬s.Seen n
  inside : isOutside p.graph f.scopes n = false

def Job.Carries (w : Draft) (p : Plan) : Job → State → State → Prop
  | .emit f n out, s, s' => Comes p f n s → Among w out → Later s' w.state → ∀ j k, Bears w p j f.scopes k →
    Minded w p (spotsAll out) k → (endsInJump out = false → Rests w p j f k) →
      Plays w p.graph (j + 1) (w.due p n) (push out k) n ∧ Tallies w p (j + 1) (spotsAll out) k
  | .go f t out, s, s' => Sits p f s → (∀ x, t = some x → x ∈ p.graph.rpo) → Among w out → Later s' w.state →
    Carry w p f t out
  | .goOn f lead t more, s, s' => Sits p f s → (∀ x, t = some x → x ∈ p.graph.rpo) → Among w more →
    Later s' w.state → ∀ j k, Bears w p j f.scopes k → Minded w p (spotsAll more) k →
    (endsInJump (lead ++ more) = false → Rests w p j f k) →
      (endsInJump lead = false → ∀ x, t = some x → Plays w p.graph j (w.owed p f.scopes x) (push more k) x) ∧
        Tallies w p (j + 1) (spotsAll more) k
  | .each jobs outs, s, s' => (∀ job ∈ jobs, Sits p job.1 s ∧ job.2 ∈ p.graph.rpo) → Among w outs.flatten →
    Later s' w.state → List.Forall₂ (fun job out => Carry w p job.1 (some job.2) out) jobs outs

theorem insideAround {g : Graph} (inside : isOutside g ss x = false) :
    guardedBy ss ⊆ g.regionsAround (g.node x).region := by
  intro r member
  obtain ⟨z,here,same⟩ := List.mem_filterMap.mp member
  have around := List.any_eq_false.mp inside z here
  match z with
  | .guarded q =>
    cases same
    simpa [Graph.encloses] using around

theorem bearsPush (bears : Bears w p j ss k) (ts : List Piece) : Bears w p j ss (push ts k) := by
  induction ts with
  | nil => exact bears
  | cons t ts ih => exact .piece ih

theorem talliesCons {t : Piece} {ts : List Piece} (plays : Plays w p.graph j (w.due p n) (push (t :: ts) k) n)
    (begins : t.begins = some (n : Int)) (inner : Tallies w p j (spots t) (push ts k))
    (rest : Tallies w p j (spotsAll ts) k) : Tallies w p j (spotsAll (t :: ts)) k := by
  refine overCons.mpr ⟨fun m here => ?_,inner,rest⟩
  obtain rfl : n = m := Int.ofNat_inj.mp (Option.some.inj (begins.symm.trans here))
  exact plays

theorem talliesJump {t : Piece} (begins : t.begins = none) (none : spots t = []) :
    Tallies w p j (spotsAll [t]) k := by
  refine overCons.mpr ⟨fun m here => ?_,by rw [none]; exact overNil,overNil⟩
  have here : t.begins = some (m : Int) := here
  rw [begins] at here
  contradiction

theorem Moves.called {scope : Option Key} (later : Later (s.nameScope scope) w.state) (same : scope = some key) :
    w.name key = key.own := by
  subst same
  have here : (s.nameScope (some key)).names.get? key = some key.own := by
    rw [State.namesNameScope,if_pos rfl]
  rw [Draft.name,Table.getD,later.given here,Option.getD_some]

theorem Comes.here (comes : Comes p f n s) (shaped : p.graph.Shaped) (outside : pendingRegion? p f n = none) :
    (p.graph.node n).region = activeRegion? f.scopes ∧
      guardedBy f.scopes = p.graph.regionsAround (p.graph.node n).region := by
  have here := activeHere shaped comes.inside outside
  exact ⟨here,here ▸ comes.around⟩

theorem Among.statement {ts : List Stmt} (among : Among w [(s.statement n ts).1]) :
    .code n (ts.filter fun t => !s.skipped.contains t.loc) ∈ deedsOf w.body := by
  refine among _ ?_
  rw [deedsOf,deedsStatement]
  exact List.mem_singleton_self _

theorem carriesLast (kept : Kept w p) (bare : Bare p f n) (noBranch : (p.graph.node n).kind ≠ .cond)
    (noSwitch : (p.graph.node n).kind ≠ .switch)
    (alone : ∀ t, (p.graph.node n).kind = .stmt → (p.graph.node n).succs ≠ [t]) :
    Job.Carries w p (.emit f n [(s.statement n (p.graph.node n).stmts).1]) s
      (s.statement n (p.graph.node n).stmts).2 := by
  intro comes among later j k bears minded rests
  obtain ⟨here,around⟩ := comes.here kept.shaped bare.1
  have plays := kept.playsCode (s.key "") comes.member among.statement here around bears
    ⟨noBranch,noSwitch⟩ fun kind => by
      have ends := kept.ends n comes.member
      rw [Node.Ends,kind] at ends
      obtain ⟨⟨t,succ⟩,-⟩ := ends
      exact absurd succ (alone t kind)
  exact ⟨plays,talliesCons plays rfl overNil overNil⟩

theorem endsPlain {ts : List Stmt} (plain : ∀ t ∈ ts, t.act.closing? = none) : endsInExit ts = false := by
  unfold endsInExit
  cases last : ts.getLast? with
  | none => rfl
  | some t =>
    have none := plain t (List.mem_of_getLast? last)
    cases act : t.act <;> simp_all [Action.closing?]

theorem passesCode (kept : Kept w p) (member : n ∈ p.graph.rpo) (kind : (p.graph.node n).kind = .stmt)
    (q : Stmt → Bool) : endsInExit ((p.graph.node n).stmts.filter q) = false := by
  refine endsPlain fun t inside => ?_
  by_contra closes
  have same := kept.stmtsClosed member (List.mem_filter.mp inside).1 closes
  rw [kind] at same
  exact closes same

theorem carriesPlain {out : List Piece} (kept : Kept w p) (bare : Bare p f n)
    (kind : (p.graph.node n).kind = .stmt) (succ : (p.graph.node n).succs = [t])
    (ih : Job.Carries w p (.go f (some t) out) (s.statement n (p.graph.node n).stmts).2 s') :
    Job.Carries w p (.emit f n ((s.statement n (p.graph.node n).stmts).1 :: out)) s s' := by
  intro comes among later j k bears minded rests
  obtain ⟨here,around⟩ := comes.here kept.shaped bare.1
  obtain ⟨code,among⟩ := among.cons
  have out' : t ∈ (p.graph.node n).succs := succ ▸ List.mem_singleton_self t
  have next := (kept.listed.edged.succs n comes.member t out').1
  have passed : endsInJump [(s.statement n (p.graph.node n).stmts).1] = false :=
    passesCode kept comes.member kind _
  obtain ⟨goes,tallies⟩ := ih (comes.later (.statement ..)) (fun x same => Option.some.inj same ▸ next) among later
    j k bears (overCons.mp minded).2.2 fun passes => rests (endsAfter passed passes)
  have plays := kept.playsCode (s.key "") comes.member code.statement here around (bearsPush bears out)
    ⟨by rw [kind]; decide,by rw [kind]; decide⟩
    fun _ => ⟨t,by rw [succ]; rfl,kept.owedEdge comes.member around out' ▸ goes t rfl⟩
  exact ⟨plays,talliesCons plays rfl overNil tallies⟩

theorem carriesBranches {follow first second : Option NodeId} {cond : Test} {onTrue onFalse more : List Piece}
    (kept : Kept w p) (member : n ∈ p.graph.rpo) (kind : (p.graph.node n).kind = .cond)
    (takes : ∀ o, ∃ m, p.graph.after n o = some m ∧ w.owed p f.scopes m = 0 ∧
      (o.holds cond = true ∧ first = some m ∨
        o.holds cond = false ∧ (second = some m ∨ second = none ∧ follow = some m)))
    (left : Carry w p (sideFrame f follow) first onTrue) (right : Carry w p (sideFrame f follow) second onFalse)
    (bare : second = none → onFalse = []) (last : follow = none → more = [])
    (resumes : endsInJump (branchPieces key n cond follow.isSome onTrue onFalse) = false →
      ∀ x, follow = some x → Plays w p.graph j (w.owed p f.scopes x) (push more k) x)
    (told : Tallies w p (j + 1) (spotsAll more) k) (bears : Bears w p j f.scopes k)
    (minded : Minded w p (spotsAll (branchPieces key n cond follow.isSome onTrue onFalse ++ more)) k)
    (rests : endsInJump (branchPieces key n cond follow.isSome onTrue onFalse ++ more) = false → Rests w p j f k) :
    Plays w p.graph (j + 1) (w.due p n) (push (branchPieces key n cond follow.isSome onTrue onFalse ++ more) k) n ∧
      Tallies w p (j + 1) (spotsAll (branchPieces key n cond follow.isSome onTrue onFalse ++ more)) k := by
  have scopes := sideScopes f follow
  have above := bearsPush bears more
  rcases @branchForm key n cond follow.isSome onTrue onFalse with
    ⟨c,x,y,form,same,inner,jump⟩ | ⟨meets,early,some,form⟩
  · rw [form] at resumes rests minded ⊢
    have inside : spots (.branch key n c x y) = spotsAll onTrue ++ spotsAll onFalse := by
      rw [← inner spotsAll rfl]
      cases y <;> simp [spots,spotsAll]
    obtain ⟨-,within,-⟩ := overCons.mp minded
    obtain ⟨mindedLeft,mindedRight⟩ := overAppend.mp (inside ▸ within)
    -- Both sides end in front of what comes after the branch.
    have side : (endsInJump onTrue && endsInJump onFalse) = false → Rests w p j (sideFrame f follow) (push more k) := by
      intro passes
      have passes : isJump (.branch key n c x y : Piece) = false := jump.trans passes
      cases follow with
      | none =>
        obtain rfl := last rfl
        exact rests passes
      | some m =>
        intro x either
        have here : m = x := by simpa [sideFrame] using either
        exact resumes passes x (congrArg some here)
    obtain ⟨goesLeft,talliesLeft⟩ := left j (push more k) (scopes ▸ above) mindedLeft
      fun passes => side (by simp [passes])
    obtain ⟨goesRight,talliesRight⟩ := right j (push more k) (scopes ▸ above) mindedRight
      fun passes => side (by simp [passes])
    have plays : Plays w p.graph (j + 1) (w.due p n) (push (.branch key n c x y :: more) k) n := by
      refine kept.playsTest _ member (.inl kind) .refl rfl fun e => ?_
      obtain ⟨m,after,none,way⟩ := takes e.toOutcome
      refine ⟨m,after,?_⟩
      show Plays w p.graph j 0 (push (if e.holds c then x else y.getD []) (push more k)) m
      rw [same e.toOutcome,← none]
      rcases way with ⟨holds,here⟩ | ⟨holds,here | ⟨without,here⟩⟩
      · rw [holds]
        exact scopes ▸ goesLeft m here
      · rw [holds]
        exact scopes ▸ goesRight m here
      · obtain rfl := bare without
        rw [holds]
        have passes : isJump (.branch key n c x y : Piece) = false := by rw [jump,endsInJump,Bool.and_false]
        exact resumes passes m here
    exact ⟨plays,talliesCons plays rfl (inside ▸ overAppend.mpr ⟨talliesLeft,talliesRight⟩) told⟩
  · cases follow with
    | some m => contradiction
    | none =>
      obtain rfl := last rfl
      rw [form,List.append_nil] at rests minded ⊢
      obtain ⟨-,mindedLeft,mindedRight⟩ := overCons.mp minded
      obtain ⟨goesRight,talliesRight⟩ := right j k bears mindedRight fun passes =>
        rests ((endsAppend some : endsInJump ([.branch key n cond onTrue none] ++ onFalse) = _).trans passes)
      obtain ⟨goesLeft,talliesLeft⟩ := left j (push onFalse k) (bearsPush bears onFalse) mindedLeft
        fun passes => by rw [early] at passes; contradiction
      have plays : Plays w p.graph (j + 1) (w.due p n) (push (.branch key n cond onTrue none :: onFalse) k) n := by
        refine kept.playsTest _ member (.inl kind) .refl rfl fun e => ?_
        obtain ⟨m,after,none,way⟩ := takes e.toOutcome
        refine ⟨m,after,?_⟩
        show Plays w p.graph j 0 (push (if e.holds cond then onTrue else []) (push onFalse k)) m
        rw [← none]
        rcases way with ⟨holds,here⟩ | ⟨holds,here | ⟨-,here⟩⟩
        · rw [holds]
          exact goesLeft m here
        · rw [holds]
          exact goesRight m here
        · contradiction
      exact ⟨plays,talliesCons plays rfl talliesLeft talliesRight⟩

theorem carriesBranch {cond : Test} {first second : Option NodeId} {lead onTrue onFalse more : List Piece}
    {s₂ s₃ : State} (kept : Kept w p) (bare : Bare p f n) (kind : (p.graph.node n).kind = .cond)
    (sides : orient p s f (p.graph.node n) (p.branchFollows.get? n) = (cond,first,second))
    (start : s.lead n (p.graph.node n).stmts = (lead,s₀))
    (left : Writes p (.go (sideFrame f (p.branchFollows.get? n)) first onTrue) (s₀.enter n ""
      (p.branchFollows.get? n)) s₁)
    (ihLeft : Job.Carries w p (.go (sideFrame f (p.branchFollows.get? n)) first onTrue) (s₀.enter n ""
      (p.branchFollows.get? n)) s₁)
    (right : Writes p (.go (sideFrame f (p.branchFollows.get? n)) second onFalse) s₁ s₂)
    (ihRight : Job.Carries w p (.go (sideFrame f (p.branchFollows.get? n)) second onFalse) s₁ s₂)
    (rest : Writes p (.goOn f (lead ++ branchPieces (s₀.key "") n cond (p.branchFollows.get? n).isSome onTrue
      onFalse) (p.branchFollows.get? n) more) (s₂.leave n (p.branchFollows.get? n)) s₃)
    (ihRest : Job.Carries w p (.goOn f (lead ++ branchPieces (s₀.key "") n cond (p.branchFollows.get? n).isSome
      onTrue onFalse) (p.branchFollows.get? n) more) (s₂.leave n (p.branchFollows.get? n)) s₃) :
    Job.Carries w p (.emit f n (lead ++ branchPieces (s₀.key "") n cond (p.branchFollows.get? n).isSome onTrue
      onFalse ++ more)) s s₃ := by
  intro comes among later j k bears minded rests
  obtain ⟨rfl,rfl⟩ := leadNone kept.shaped (.inl kind) start
  obtain ⟨-,around⟩ := comes.here kept.shaped bare.1
  have meets := kept.listed.branches n
  have targets := kept.listed.sides comes.member kind sides
  obtain ⟨branch,amongMore⟩ := amongAppend.mp among
  obtain ⟨amongLeft,amongRight⟩ : Among w onTrue ∧ Among w onFalse := amongAppend.mp fun d member => branch d (by
    rw [deedsOf,deedsAppend] at member
    rw [deedsOf,List.nil_append,deedsBranch]
    exact List.mem_cons_of_mem _ member)
  have sits := (comes.later (Moves.enter s₀ n "" (p.branchFollows.get? n))).side meets
  have movesLeft := left.moves kept.shaped kept.tested sits.named trivial
  have movesRight := right.moves kept.shaped kept.tested sits.named trivial
  have movesRest := rest.moves kept.shaped kept.tested comes.named trivial
  have written := (movesLeft.trans movesRight).trans (.leave s₂ n (p.branchFollows.get? n))
  have laterRight : Later s₂ w.state :=
    (Moves.leave (p := p) s₂ n (p.branchFollows.get? n)).later.trans (movesRest.later.trans later)
  obtain ⟨resumes,told⟩ := ihRest (comes.later ((Moves.enter s₀ n "" (p.branchFollows.get? n)).trans written))
    meets amongMore later j k bears (overJoin.mp minded).2 rests
  refine carriesBranches kept comes.member kind (fun o => ?_)
    (ihLeft sits (fun x same => targets x (.inl same)) amongLeft (movesRight.later.trans laterRight))
    (ihRight (sits.later movesLeft) (fun x same => targets x (.inr same)) amongRight laterRight)
    (fun none => ?_) (fun none => ?_) resumes told bears minded rests
  · obtain ⟨m,after,out,way⟩ := branchTakes (kept.ends n comes.member) kind sides o
    exact ⟨m,after,kept.owedEdge comes.member around out,way⟩
  · subst none
    exact right.nowhere?
  · rw [none] at rest
    exact rest.ends?

/-! ### Switches -/

structure ArmPlays (w : Draft) (p : Plan) (j : Nat) (ss : List Scope) (key : Key) (k : Tasks) (a : Arm)
    (body : List Piece) (later : List (ArmHead × List Piece)) : Prop where
  plays : Plays w p.graph j (w.owed p ss a.target) (push body (.switch key (later.map (·.2)) :: k)) a.target
  tallies : Tallies w p (j + 1) (spotsAll body) (.switch key (later.map (·.2)) :: k)

theorem overArms {P : Tasks → Prop} {h : ArmHead} {body : List Piece} {later : List (ArmHead × List Piece)} :
    Over P (spotsArms key ((h,body) :: later)) k ↔
      Over P (spotsAll body) (.switch key (later.map (·.2)) :: k) ∧ Over P (spotsArms key later) k := by
  rw [spotsArms,overAppend,overUnder,List.singleton_append]

theorem armsTally {arms : List Arm} {zs : List (ArmHead × List Piece)}
    (falls : Falls (ArmPlays w p j ss key k) arms zs) : Tallies w p (j + 1) (spotsArms key zs) k := by
  induction falls with
  | nil => exact overNil
  | cons here rest ih => exact overArms.mpr ⟨here.tallies,ih⟩

theorem armJobsForm {job : Frame × NodeId} {arms : List Arm} (member : job ∈ armJobs ss arms) :
    job.1 = { scopes := ss, fall := job.1.fall } := by
  induction arms with
  | nil => contradiction
  | cons a arms ih =>
    rcases List.mem_cons.mp member with rfl | member
    · rfl
    · exact ih member

theorem armsPlay {follow : Option NodeId} {arms : List Arm} {bodies : List (List Piece)}
    (carries : List.Forall₂ (fun job out => Carry w p job.1 (some job.2) out)
      (armJobs (.switch n follow key :: ss) arms) bodies)
    (leaves : ∀ x, follow = some x → Plays w p.graph j (w.owed p ss x) k x) (bears : Bears w p j ss k)
    (minded : Minded w p (spotsArms key (dropLastBreak ((arms.map (·.head)).zip bodies))) k) :
    Falls (ArmPlays w p j ss key k) arms (dropLastBreak ((arms.map (·.head)).zip bodies)) := by
  have around : ∀ later, Bears w p j (.switch n follow key :: ss) (.switch key later :: k) :=
    fun later => .switch leaves bears
  induction arms generalizing bodies with
  | nil => exact .nil
  | cons a arms ih =>
    rcases carries with _ | ⟨first,rest⟩
    rename_i out bodies
    cases arms with
    | nil =>
      cases rest
      have none : ∀ x, (none : Option NodeId) = some x ∨ (none : Option NodeId) = some x →
          Plays w p.graph j (w.owed p ss x) (.switch key [] :: k) x := nofun
      rcases dropBreakForm a.head out with same | ⟨l,ts,rfl,same⟩
      · have same : dropLastBreak (([a].map (·.head)).zip [out]) = [(a.head,out)] := same
        rw [same] at minded ⊢
        obtain ⟨goes,tallies⟩ := first j _ (around []) (overArms.mp minded).1 fun _ => none
        exact .cons ⟨goes a.target rfl,tallies⟩ .nil
      · have same : dropLastBreak (([a].map (·.head)).zip [ts ++ [.breakTo l ""]]) = [(a.head,ts)] := same
        rw [same] at minded ⊢
        obtain ⟨goes,tallies⟩ := first j _ (around []) (Minded.untrim (overArms.mp minded).1 rfl rfl) fun _ => none
        refine .cons ⟨?_,tallies.trim .out⟩ .nil
        have plays := goes a.target rfl
        rw [pushAppend] at plays
        exact plays.skims (Skims.above _ .out)
    | cons b arms =>
      rcases rest with _ | ⟨second,rest⟩
      rename_i out' bodies
      have same : dropLastBreak (((a :: b :: arms).map (·.head)).zip (out :: out' :: bodies)) =
          (a.head,out) :: dropLastBreak (((b :: arms).map (·.head)).zip (out' :: bodies)) := rfl
      rw [same] at minded ⊢
      obtain ⟨here,others⟩ := overArms.mp minded
      have later := ih (.cons second rest) others
      obtain ⟨goes,tallies⟩ := first j _ (around _) here fun _ x either => by
        obtain rfl : b.target = x := by simpa using either
        generalize dropLastBreak (((b :: arms).map (·.head)).zip (out' :: bodies)) = zs at later
        cases later with
        | cons there _ => exact there.plays.silent rfl
      exact .cons ⟨goes a.target rfl,tallies⟩ later

theorem carriesSwitch {lead more : List Piece} {bodies : List (List Piece)} {s₂ : State} (kept : Kept w p)
    (bare : Bare p f n) (kind : (p.graph.node n).kind = .switch)
    (start : s.lead n (p.graph.node n).stmts = (lead,s₀))
    (arms : Writes p (.each (switchJobs p f n s₀) bodies) (s₀.enter n (switchName n) (switchFollow p f n)) s₁)
    (ihArms : Job.Carries w p (.each (switchJobs p f n s₀) bodies) (s₀.enter n (switchName n) (switchFollow p f
      n)) s₁)
    (rest : Writes p (.goOn f (lead ++ [.switch (s₀.key (switchName n)) n (switchValue (p.graph.node n))
      (writtenArms p f n bodies)]) (switchFollow p f n) more) (s₁.leave n (switchFollow p f n)) s₂)
    (ihRest : Job.Carries w p (.goOn f (lead ++ [.switch (s₀.key (switchName n)) n (switchValue (p.graph.node n))
      (writtenArms p f n bodies)]) (switchFollow p f n) more) (s₁.leave n (switchFollow p f n)) s₂) :
    Job.Carries w p (.emit f n (lead ++ [.switch (s₀.key (switchName n)) n (switchValue (p.graph.node n))
      (writtenArms p f n bodies)] ++ more)) s s₂ := by
  intro comes among later j k bears minded rests
  obtain ⟨rfl,rfl⟩ := leadNone kept.shaped (.inr kind) start
  obtain ⟨-,around⟩ := comes.here kept.shaped bare.1
  have nodeEnds := kept.ends n comes.member
  have meets : ∀ x, switchFollow p f n = some x → x ∈ p.graph.rpo := fun x same =>
    (Option.or_eq_some_iff.mp same).elim (kept.listed.switches n x) fun stop => comes.stops x stop.2
  obtain ⟨switch,amongMore⟩ := amongAppend.mp among
  have amongArms : Among w bodies.flatten := fun d member => switch d (by
    rw [deedsOf,List.nil_append,deedsSwitch arms]
    exact List.mem_cons_of_mem _ member)
  have enters := Moves.enter (p := p) s₀ n (switchName n) (switchFollow p f n)
  have sits : ∀ fall, Sits p { scopes := .switch n (switchFollow p f n) (s₀.key (switchName n)) :: f.scopes, fall }
      (s₀.enter n (switchName n) (switchFollow p f n)) := fun fall =>
    comes.switch enters comes.unmet ((State.seenEnter _ _ n).mpr (.inr rfl)) rfl
  have jobs : ∀ job ∈ switchJobs p f n s₀,
      Sits p job.1 (s₀.enter n (switchName n) (switchFollow p f n)) ∧ job.2 ∈ p.graph.rpo := fun job member =>
    ⟨armJobsForm member ▸ sits _,(armJobsListed (kept.listed.arms comes.member kind) job member).1⟩
  have movesArms := arms.moves kept.shaped kept.tested (fun job member => (jobs job member).1.named) trivial
  have movesRest := rest.moves kept.shaped kept.tested comes.named trivial
  have left := Moves.leave (p := p) s₁ n (switchFollow p f n)
  obtain ⟨resumes,told⟩ := ihRest (comes.later ((enters.trans movesArms).trans left)) meets amongMore later j k
    bears (overJoin.mp minded).2 rests
  have leaves := resumes rfl
  have falls := armsPlay (ihArms jobs amongArms (left.later.trans (movesRest.later.trans later))) leaves
    (bearsPush bears more) (overCons.mp (overJoin.mp minded).1).2.1
  have plays : Plays w p.graph (j + 1) (w.due p n) (push (.switch (s₀.key (switchName n)) n
      (switchValue (p.graph.node n)) (writtenArms p f n bodies) :: more) k) n := by
    refine kept.playsTest _ comes.member (.inr kind) .refl rfl fun e => ?_
    obtain ⟨m,goes,out⟩ := switchTakes nodeEnds kind (e.value (switchValue (p.graph.node n)))
    refine ⟨m,by rw [Graph.after,kind]; exact goes,?_⟩
    show Plays w p.graph j 0 (enter (s₀.key (switchName n)) (push more k)
      (chosen (e.value (switchValue (p.graph.node n))) (writtenArms p f n bodies))) m
    rw [← kept.owedEdge comes.member around out]
    rcases falls.chosen nodeEnds kind goes with ⟨none,follow⟩ | ⟨a,body,later,found,here,rfl⟩
    · rw [show chosen _ (writtenArms p f n bodies) = [] from none]
      exact leaves m follow
    · rw [show chosen _ (writtenArms p f n bodies) = _ from found]
      exact here.plays
  exact ⟨plays,talliesCons plays rfl (armsTally falls) told⟩

/-! ### Loops -/

/-- The loop is as it was planned, or without a test where that is written elsewhere. -/
theorem Kept.settled (kept : Kept w p) {found shape : LoopShape} (starts : shapeAt? p f n = some found)
    (settled : settleShape p s found = shape) :
    shape.Fits p.graph ∧ shape.loop.header = n ∧ isLoopOpen f.scopes n = false ∧
      (shape.kind = .posttest → shape ∈ p.shapes) := by
  have member := List.mem_of_find?_eq_some (Option.filter_eq_some_iff.mp starts).1
  obtain ⟨header,closed⟩ := headerOfShapeAt starts
  unfold settleShape at settled
  split at settled
  · split at settled <;> subst settled
    · exact ⟨kept.fits found member,header,closed,fun _ => member⟩
    · exact ⟨LoopShape.fitsEndless (kept.fits found member).natural,header,closed,nofun⟩
  · subst settled
    exact ⟨kept.fits found member,header,closed,fun _ => member⟩

theorem playsRounds {kind : LoopKind} {c : Test} {body : List Piece} {stays : NodeId} (kept : Kept w p)
    (tested : kind ≠ .endless) (member : t ∈ p.graph.rpo) (cond : (p.graph.node t).kind = .cond)
    (takes : ∀ o, p.graph.after t o = some (if o.holds c then stays else x))
    (round : ∀ i ≤ j, (∀ d, Plays w p.graph i d (.loop key kind t (some c) body :: k) t) →
      Plays w p.graph i 0 (push body (.loop key kind t (some c) body :: k)) stays)
    (leaves : Plays w p.graph j 0 k x) (i : Nat) (le : i ≤ j + 1) (d : Nat) :
    Plays w p.graph i d (.loop key kind t (some c) body :: k) t := by
  induction i generalizing d with
  | zero => trivial
  | succ i ih =>
    have le := Nat.le_of_succ_le_succ le
    have again := round i le (ih (Nat.le_succ_of_le le))
    refine kept.playsTest d member (.inl cond) (a := fun e => if e.holds c then
      push body (.loop key kind t (some c) body :: k) else k) .refl ?_ fun e => ⟨_,takes e.toOutcome,?_⟩
    · cases kind with
      | endless => exact absurd rfl tested
      | pretest | posttest => rfl
    · split
      · exact again
      · exact leaves.mono le

theorem playsEndless {m : Int} {c : Option Test} {body : List Piece} {d : Nat}
    (round : ∀ i ≤ j, Plays w p.graph i d (.loop key .endless m c body :: k) n →
      Plays w p.graph (i + 1) d (push body (.loop key .endless m c body :: k)) n) (i : Nat) (le : i ≤ j + 1) :
    Plays w p.graph i d (.loop key .endless m c body :: k) n := by
  induction i with
  | zero => trivial
  | succ i ih =>
    have le := Nat.le_of_succ_le_succ le
    exact (round i le (ih (Nat.le_succ_of_le le))).silent rfl

section
variable {kind : LoopKind} {m h : Int} {c : Option Test} {b body : List Piece} {d : Nat}

theorem playsDropContinue (plays : Plays w p.graph j d (push body (.loop key kind m c b :: k)) n) :
    Plays w p.graph j d (push (dropLastContinue body) (.loop key kind m c b :: k)) n := by
  rcases dropContinueForm body with same | ⟨l,same⟩
  · rwa [same]
  · rw [same,pushAppend] at plays
    exact plays.skims (Skims.above _ .again)

theorem talliesDropContinue (tallies : Tallies w p j (spotsAll body) (.loop key kind m c b :: k)) :
    Tallies w p j (spotsAll (dropLastContinue body)) (.loop key kind m c b :: k) := by
  rcases dropContinueForm body with same | ⟨l,same⟩
  · rwa [same]
  · rw [same] at tallies
    exact tallies.trim .again

theorem mindedDropContinue (minded : Minded w p (spotsAll (dropLastContinue body)) (.loop key kind m c b :: k)) :
    Minded w p (spotsAll body) (.loop key kind m c b :: k) := by
  rcases dropContinueForm body with same | ⟨l,same⟩
  · rwa [same] at minded
  · rw [same]
    exact minded.untrim rfl rfl

end

theorem Bears.inLoop {a : LoopShape} {kind : LoopKind} {m : Int} {c : Option Test} {b more : List Piece}
    (bears : Bears w p j ss k) (leaves : ∀ x, a.follow = some x → Plays w p.graph j (w.owed p ss x) (push more k) x)
    (le : i ≤ j) (again : a.continueAt = t)
    (here : Plays w p.graph i (w.owed p ss t) (.loop key kind m c b :: push more k) t) :
    Bears w p i (.loop a key :: ss) (.loop key kind m c b :: push more k) := by
  subst again
  exact .loop here (fun x follow => (leaves x follow).mono le) ((bearsPush bears more).mono le)

theorem amongLoop {kind : LoopKind} {m h : Int} {c : Option Test} {body : List Piece}
    (among : Among w [.loop key kind m h c (dropLastContinue body)]) : Among w body := fun d member => among d (by
  rw [deedsOf,deedsLoop,List.map_append]
  exact List.mem_append_right _ member)

/-- Both ways on from the test of a loop are edges of the graph. -/
theorem loopOuts {stays : NodeId} (ends : (p.graph.node t).Ends) (cond : (p.graph.node t).kind = .cond)
    (ways : (p.graph.node t).onTrue = some stays ∧ (p.graph.node t).onFalse = some x ∨
      (p.graph.node t).onTrue = some x ∧ (p.graph.node t).onFalse = some stays) :
    stays ∈ (p.graph.node t).succs ∧ x ∈ (p.graph.node t).succs := by
  obtain ⟨-,yes,no,onTrue,onFalse,succs⟩ := Node.endsCond ends cond
  rw [onTrue,onFalse] at ways
  rw [succs,succs]
  rcases ways with ⟨here,there⟩ | ⟨here,there⟩ <;> cases here <;> cases there
  · exact ⟨.inl rfl,.inr rfl⟩
  · exact ⟨.inr rfl,.inl rfl⟩

theorem carriesPretest {found shape : LoopShape} {body more : List Piece} {s₂ : State} (kept : Kept w p)
    (outside : pendingRegion? p f n = none) (starts : shapeAt? p f n = some found)
    (settled : settleShape p s found = shape) (kind : shape.kind = .pretest)
    (inner : Writes p (.go { scopes := loopScopes f shape n s, stop := some n } (some shape.start) body)
      ((s.openLoop n).setMark n .entered) s₁)
    (ihInner : Job.Carries w p (.go { scopes := loopScopes f shape n s, stop := some n } (some shape.start) body)
      ((s.openLoop n).setMark n .entered) s₁)
    (rest : Writes p (.goOn f [.loop (s.key (loopName n)) .pretest n n (some (loopTest p.graph n shape.start))
      (dropLastContinue body)] shape.follow more) (s₁.setMark n .finished) s₂)
    (ihRest : Job.Carries w p (.goOn f [.loop (s.key (loopName n)) .pretest n n (some (loopTest p.graph n
      shape.start)) (dropLastContinue body)] shape.follow more) (s₁.setMark n .finished) s₂) :
    Job.Carries w p (.emit f n (.loop (s.key (loopName n)) .pretest n n (some (loopTest p.graph n shape.start))
      (dropLastContinue body) :: more)) s s₂ := by
  intro comes among later j k bears minded rests
  obtain ⟨-,around⟩ := comes.here kept.shaped outside
  obtain ⟨fits,header,fresh,-⟩ := kept.settled starts settled
  obtain ⟨again,cond,stays,x,follow,ways⟩ := fits.pretest kind
  rw [header] at cond ways again
  have inGraph := kept.listed.settled starts settled
  have opened := (Moves.openLoop (p := p) s n).trans (.marked (m := .entered) _ n (by decide))
  have sits : Sits p { scopes := loopScopes f shape n s, stop := some n } ((s.openLoop n).setMark n .entered) :=
    (comes.later opened).loop (header ▸ rfl) (header ▸ fresh) fun y same => Option.some.inj same ▸ comes.member
  have moves := inner.moves kept.shaped kept.tested sits.named trivial
  have closed := Moves.marked (p := p) (m := .finished) s₁ n (by decide)
  have movesRest := rest.moves kept.shaped kept.tested comes.named trivial
  obtain ⟨loop,amongMore⟩ := among.cons
  have amongBody := amongLoop loop
  obtain ⟨-,mindedBody,mindedMore⟩ := overCons.mp minded
  obtain ⟨resumes,told⟩ := ihRest (comes.later ((opened.trans moves).trans closed)) inGraph.follow amongMore later
    j k bears mindedMore rests
  have leaves := resumes rfl
  have carry := ihInner sits (fun y same => Option.some.inj same ▸ inGraph.start kind) amongBody
    (closed.later.trans (movesRest.later.trans later))
  have apart : shape.start ≠ x := fun same => (fits.follow x follow).1 (same ▸ stays)
  have outs := loopOuts (kept.ends n comes.member) cond ways
  have round (i) (le : i ≤ j) (here : ∀ d, Plays w p.graph i d (.loop (s.key (loopName n)) .pretest n
      (some (loopTest p.graph n shape.start)) (dropLastContinue body) :: push more k) n) :=
    carry i _ (bears.inLoop leaves le again (here _)) (mindedDropContinue (overLoop.mp mindedBody)) fun _ y either => by
      obtain rfl : n = y := by simpa using either
      exact here _
  have all := playsRounds kept (by decide) comes.member cond (loopTakes cond apart ways)
    (fun i le here => playsDropContinue
      ((kept.owedEdge comes.member around outs.1 : w.owed p (loopScopes f shape n s) shape.start = 0) ▸
        (round i le here).1 _ rfl))
    (kept.owedEdge comes.member around outs.2 ▸ leaves x follow)
  have plays : Plays w p.graph (j + 1) (w.due p n) (push (.loop (s.key (loopName n)) .pretest n n
      (some (loopTest p.graph n shape.start)) (dropLastContinue body) :: more) k) n :=
    (all (j + 1) (Nat.le_refl _) _).silent rfl
  exact ⟨plays,talliesCons plays rfl
    (overLoop.mpr (talliesDropContinue (round j (Nat.le_refl j) (all j (Nat.le_succ j))).2)) told⟩

/-- A loop that is tested at its end is come to again without anything done before. -/
theorem Kept.owedHeader (kept : Kept w p) {a : LoopShape} (member : a ∈ p.shapes) (kind : a.kind = .posttest) :
    w.due p a.loop.header = 0 := by
  cases found : w.cleaners p a.loop.header with
  | nil => exact Draft.dueNone found
  | cons c cs =>
    obtain ⟨e,code,-,-,-,shares⟩ := kept.cleans (found ▸ List.mem_cons_self .. : c ∈ w.cleaners p a.loop.header)
    exact absurd rfl (shares.rounds a member kind)

/-- Whoever leaves a loop from its test has come out of the code that the loop is in. -/
theorem Kept.owedLatch (kept : Kept w p) (member : t ∈ p.graph.rpo) (around : guardedBy ss =
    p.graph.regionsAround (p.graph.node n).region) (back : n ∈ (p.graph.node t).succs)
    (out : x ∈ (p.graph.node t).succs) (apart : n ≠ x) : w.owed p ss x = 0 := by
  by_cases none : w.cleaners p x = []
  · exact Draft.owedNone none
  · obtain ⟨c,own,inside⟩ := kept.tidy.sources t member x out none
    have exits := (Draft.cleanersMem.mp own).2.2
    refine Draft.owedInside own ?_
    by_contra outside
    refine apart (List.mem_singleton.mp (exits ▸ ?_ : n ∈ [x]))
    rw [Plan.regionExits,Plan.exitsOf,List.mem_eraseDups,List.mem_flatMap]
    refine ⟨t,List.mem_filter.mpr ⟨member,?_⟩,List.mem_filter.mpr ⟨back,?_⟩⟩
    · simpa [Graph.encloses] using inside
    · simpa [Graph.encloses,around] using outside

theorem carriesPosttest {found shape : LoopShape} {latch : NodeId} {body more : List Piece} {s₂ : State}
    (kept : Kept w p) (outside : pendingRegion? p f n = none) (starts : shapeAt? p f n = some found)
    (settled : settleShape p s found = shape) (kind : shape.kind = .posttest) (test : shape.test = some latch)
    (inner : Writes p (.emit { scopes := loopScopes f shape n s, stop := some latch } n body) (((s.openLoop
      n).place latch (s.key (loopName n))).setMark latch .entered) s₁)
    (ihInner : Job.Carries w p (.emit { scopes := loopScopes f shape n s, stop := some latch } n body)
      (((s.openLoop n).place latch (s.key (loopName n))).setMark latch .entered) s₁)
    (rest : Writes p (.goOn f [.loop (s.key (loopName n)) .posttest latch n (some (loopTest p.graph latch n))
      (dropLastContinue body)] shape.follow more) (s₁.setMark latch .finished) s₂)
    (ihRest : Job.Carries w p (.goOn f [.loop (s.key (loopName n)) .posttest latch n (some (loopTest p.graph
      latch n)) (dropLastContinue body)] shape.follow more) (s₁.setMark latch .finished) s₂) :
    Job.Carries w p (.emit f n (.loop (s.key (loopName n)) .posttest latch n (some (loopTest p.graph latch n))
      (dropLastContinue body) :: more)) s s₂ := by
  intro comes among later j k bears minded rests
  obtain ⟨-,around⟩ := comes.here kept.shaped outside
  obtain ⟨fits,header,fresh,planned⟩ := kept.settled starts settled
  obtain ⟨latch',x,test',again,inside,other,cond,follow,ways⟩ := fits.posttest kind
  obtain rfl : latch' = latch := Option.some.inj (test'.symm.trans test)
  have headed := kept.owedHeader (planned kind) kind
  rw [header] at ways other headed
  have inGraph := kept.listed.settled starts settled
  have member := inGraph.test latch' test
  have opened := ((Moves.openLoop (p := p) s n).trans (.placed _ latch' (s.key (loopName n)))).trans
    (.marked (m := .entered) _ latch' (by decide))
  have sits : Sits p { scopes := loopScopes f shape n s, stop := some latch' }
      (((s.openLoop n).place latch' (s.key (loopName n))).setMark latch' .entered) :=
    (comes.later opened).loop (header ▸ rfl) (header ▸ fresh) fun y same => Option.some.inj same ▸ member
  have begins : Comes p { scopes := loopScopes f shape n s, stop := some latch' } n
      (((s.openLoop n).place latch' (s.key (loopName n))).setMark latch' .entered) :=
    ⟨sits,comes.member,fun met => comes.unmet ((seenOpenLoop n).mp ((State.seenPlace n).mp
      (((State.seenSetMark (by decide) n).mp met).resolve_right other.symm))),comes.inside⟩
  have moves := inner.moves kept.shaped kept.tested sits.named begins.inside
  have closed := Moves.marked (p := p) (m := .finished) s₁ latch' (by decide)
  have movesRest := rest.moves kept.shaped kept.tested comes.named trivial
  obtain ⟨loop,amongMore⟩ := among.cons
  have amongBody := amongLoop loop
  obtain ⟨-,mindedBody,mindedMore⟩ := overCons.mp minded
  obtain ⟨resumes,told⟩ := ihRest (comes.later ((opened.trans moves).trans closed)) inGraph.follow amongMore later
    j k bears mindedMore rests
  have leaves := resumes rfl
  have carry := ihInner begins amongBody (closed.later.trans (movesRest.later.trans later))
  have apart : n ≠ x := fun same => (fits.follow x follow).1 (same ▸ header ▸ fits.natural.header)
  have outs := loopOuts (kept.ends latch' member) cond ways
  have round (i) (le : i ≤ j) (here : ∀ d, Plays w p.graph i d (.loop (s.key (loopName n)) .posttest latch'
      (some (loopTest p.graph latch' n)) (dropLastContinue body) :: push more k) latch') :=
    carry i _ (bears.inLoop leaves le again (here _)) (mindedDropContinue (overLoop.mp mindedBody)) fun _ y either => by
      obtain rfl : latch' = y := by simpa using either
      exact here _
  have all := playsRounds kept (by decide) member cond (loopTakes cond apart ways)
    (fun i le here => playsDropContinue (headed ▸ (round i le here).1.less))
    (kept.owedLatch member around outs.1 outs.2 apart ▸ leaves x follow)
  have runs := round j (Nat.le_refl j) (all j (Nat.le_succ j))
  have plays : Plays w p.graph (j + 1) (w.due p n) (push (.loop (s.key (loopName n)) .posttest latch' n
      (some (loopTest p.graph latch' n)) (dropLastContinue body) :: more) k) n :=
    (playsDropContinue runs.1).silent rfl
  exact ⟨plays,talliesCons plays rfl (overLoop.mpr (talliesDropContinue runs.2)) told⟩

theorem carriesEndless {found shape : LoopShape} {body more : List Piece} {s₂ : State} (kept : Kept w p)
    (starts : shapeAt? p f n = some found) (settled : settleShape p s found = shape)
    (kind : shape.kind ≠ .pretest) (test : shape.kind = .posttest → shape.test = none)
    (inner : Writes p (.emit { scopes := loopScopes f shape n s } n body) (s.openLoop n) s₁)
    (ihInner : Job.Carries w p (.emit { scopes := loopScopes f shape n s } n body) (s.openLoop n) s₁)
    (rest : Writes p (.goOn f [.loop (s.key (loopName n)) .endless (-1) n none (dropLastContinue body)]
      shape.follow more) s₁ s₂)
    (ihRest : Job.Carries w p (.goOn f [.loop (s.key (loopName n)) .endless (-1) n none (dropLastContinue body)]
      shape.follow more) s₁ s₂) :
    Job.Carries w p (.emit f n (.loop (s.key (loopName n)) .endless (-1) n none (dropLastContinue body) :: more))
      s s₂ := by
  intro comes among later j k bears minded rests
  obtain ⟨fits,header,fresh,-⟩ := kept.settled starts settled
  have again : shape.continueAt = n := by
    cases form : shape.kind with
    | pretest => exact absurd form kind
    | posttest =>
      obtain ⟨latch,x,some,-⟩ := fits.posttest form
      exact absurd (some.symm.trans (test form)) nofun
    | endless => exact (fits.endless form).trans header
  have inGraph := kept.listed.settled starts settled
  have opened := Moves.openLoop (p := p) s n
  have sits : Sits p { scopes := loopScopes f shape n s } (s.openLoop n) :=
    (comes.later opened).loop (header ▸ rfl) (header ▸ fresh) nofun
  have begins : Comes p { scopes := loopScopes f shape n s } n (s.openLoop n) :=
    ⟨sits,comes.member,fun met => comes.unmet ((seenOpenLoop n).mp met),comes.inside⟩
  have moves := inner.moves kept.shaped kept.tested sits.named begins.inside
  have movesRest := rest.moves kept.shaped kept.tested comes.named trivial
  obtain ⟨loop,amongMore⟩ := among.cons
  have amongBody := amongLoop loop
  obtain ⟨-,mindedBody,mindedMore⟩ := overCons.mp minded
  obtain ⟨resumes,told⟩ := ihRest (comes.later (opened.trans moves)) inGraph.follow amongMore later j k bears
    mindedMore rests
  have leaves := resumes rfl
  have carry := ihInner begins amongBody (movesRest.later.trans later)
  have owed := Draft.owedHere (w := w) (insideAround comes.inside)
  have round (i) (le : i ≤ j) (here : Plays w p.graph i (w.due p n) (.loop (s.key (loopName n)) .endless (-1) none
      (dropLastContinue body) :: push more k) n) :=
    carry i _ (bears.inLoop leaves le again (owed ▸ here)) (mindedDropContinue (overLoop.mp mindedBody))
      fun _ y either => by simp at either
  have all := playsEndless fun i le here => playsDropContinue (round i le here).1
  have runs := round j (Nat.le_refl j) (all j (Nat.le_succ j))
  have plays : Plays w p.graph (j + 1) (w.due p n) (push (.loop (s.key (loopName n)) .endless (-1) n none
      (dropLastContinue body) :: more) k) n := (playsDropContinue runs.1).silent rfl
  exact ⟨plays,talliesCons plays rfl (overLoop.mpr (talliesDropContinue runs.2)) told⟩

/-! ### Protected code -/

section
variable {cs : List (CatchHead × List Piece)} {z : Option (List Piece)} {fits : String → Bool}
  {body more : List Piece}

theorem amongGuard (among : Among w [.guarded key r body cs z]) :
    cover r cs z ∈ w.covers ∧ Among w body ∧ ∀ d ∈ deedsCatches [] cs, d.2 ∈ deedsOf w.body := by
  have parts : deedsOf [.guarded key r body cs z] =
      .guard (cover r cs z) :: (deedsOf body ++ (deedsCatches [] cs).map Prod.snd) := by
    rw [deedsOf,deedsGuarded,List.cons_append,List.map_cons,List.map_append,
      deedsSameAll [cover r cs z] []]
    rfl
  rw [Among,parts] at among
  refine ⟨List.mem_filterMap.mpr ⟨_,among _ (List.mem_cons_self ..),rfl⟩,fun d member => ?_,fun d member => ?_⟩
  · exact among d (List.mem_cons_of_mem _ (List.mem_append_left _ member))
  · exact among d.2 (List.mem_cons_of_mem _ (List.mem_append_right _ (List.mem_map_of_mem member)))

theorem takesClauses (same : clauseHeads cs none = clausesOf p r)
    (dispatch : landing fits (clausesOf p r) = ownEntry p.graph fits r)
    (plays : ∀ h ∈ ownHandlers p.graph r, ∀ c ∈ cs, c.1.node = h.entry →
      Plays w p.graph j 0 (push c.2 k) h.entry) :
    ((ownHandlers p.graph r).find? (CatchEntry.Takes fits)).elim (caught fits cs none k = .jump (.raise fits) :: k)
      fun h => Plays w p.graph j 0 (caught fits cs none k) h.entry := by
  rw [← same,clauseHeads,Option.getD_none,sourcesAll,List.map_nil,List.append_nil,landing,List.find?_map,
    Option.map_map] at dispatch
  have found : ((cs.find? fun c => c.1.types.any fits).map fun c => (c.1.node : Int)) =
      ownEntry p.graph fits r := dispatch
  rw [ownEntry] at found
  unfold caught
  cases take : cs.find? fun c => c.1.types.any fits with
  | none =>
    rw [take,Option.map_none] at found
    rw [Option.map_eq_none_iff.mp found.symm]
    rfl
  | some c =>
    rw [take] at found
    obtain ⟨h,own,entry⟩ := Option.map_eq_some_iff.mp found.symm
    rw [own]
    exact plays h (List.mem_of_find?_eq_some own) c (List.mem_of_find?_eq_some take) (Int.ofNat_inj.mp entry.symm)

theorem catchesPass {c : CatchHead × List Piece} (member : c ∈ cs) (passes : endsInJump c.2 = false) :
    catchesEndInJump cs = false := by
  induction cs with
  | nil => contradiction
  | cons d cs ih =>
    rw [catchesEndInJump,Bool.and_eq_false_iff]
    rcases List.mem_cons.mp member with rfl | member
    · exact .inl passes
    · exact .inr (ih member)

/-- Who comes to the end of protected code goes on behind it, once its clean-up code is run. -/
theorem restsGuarded {follow : Option NodeId} (kept : Kept w p) (below : r < p.graph.regions.size) (sits : Sits p f s)
    (parent : activeRegion? f.scopes = p.graph.parentOf r) (bears : Bears w p j f.scopes k) (mends : Mends w p r z)
    (own : z ≠ none → ∀ x, follow = some x → p.regionExits r = [x])
    (leaves : ∀ x, follow = some x → Plays w p.graph j (w.owed p f.scopes x) k x) :
    Rests w p j (insideGuard f r follow) (.guard key r cs z :: k) := by
  intro x either
  have here : follow = some x := either.resolve_right nofun
  exact Plays.silent rfl (mends.plays kept.tidy kept.closed (sits.apart kept.shaped.nested below parent)
    (fun some => own some x here) (fun fits throwable => parent ▸ bears.raise kept.shaped.nested throwable)
    (leaves x here))

/-- The handler that is written as clean-up code runs it, and raises the exception again. -/
theorem playsCleanup {c : Cover} {e : NodeId} {code : List Stmt} (kept : Kept w p) (member : c ∈ w.covers)
    (only : c.cleanup = [((e : Int),code)]) (entry : e ∈ p.graph.rpo) (cleans : Cleans p c.region e x code)
    (raise : ∀ fits, fits anyThrown = true →
      Lands w p.graph j fits (p.graph.parentOf c.region) (.jump (.raise fits) :: k)) :
    Plays w p.graph j 0 (push [.stmts .none e code] (.again e :: k)) e := by
  have shares := kept.tidy.shares c member e code x only cleans.exits
  have plain := cleans.plain (kept.closed e entry)
  obtain ⟨first,last,receives,quiet,stmts⟩ := cleans.handler
  have closes := (kept.closed e entry).stmts
  rw [cleans.kind] at closes
  obtain ⟨front,a,acts,-,ends⟩ := closes
  rw [stmts,← List.cons_append,List.map_append,List.map_singleton] at acts
  obtain rfl : last.act = a := (List.append_inj' acts rfl).2 |> List.singleton_inj.mp
  have throws : ∃ v, last.act = .throw v := by
    cases act : last.act <;> simp_all [Action.closing?]
  have runs : p.graph.runs e = Stmt.run code ++ [last] := by
    obtain ⟨v,act⟩ := throws
    rw [Graph.runs,stmts,← List.singleton_append,Stmt.runAppend,Stmt.runAppend]
    simp [Stmt.run,receives,quiet,Stmt.isTest,act,Action.closing?]
  have lands : ∀ fits, fits anyThrown = true →
      Lands w p.graph j fits (p.graph.node e).region (.jump (.raise fits) :: k) := fun fits throwable =>
    shares.handler ▸ raise fits throwable
  refine Plays.silent (l := beats e (Stmt.run code) (.again e :: k)) rfl ?_
  cases j with
  | zero => trivial
  | succ j =>
    rw [Plays,List.drop_zero,runs]
    have ran : ∀ {t}, t ∈ Stmt.run code → t ∈ code ∧ t.isTest = false := fun {t} inside => by
      obtain ⟨member,runs⟩ := List.mem_filter.mp inside
      exact ⟨member,by simpa using (Bool.and_eq_true_iff.mp runs).2⟩
    refine playsBeats rfl (fun t inside => (ran inside).2) (.inl rfl) (fun _ fits throwable => ?_)
      ?_ fun _ => ?_
    · exact (lands fits throwable).less.drift (.single rfl)
    · rintro ⟨t,inside,returns⟩
      rw [Stmt.returns,plain t (ran inside).1] at returns
      contradiction
    · obtain ⟨v,act⟩ := throws
      refine ⟨_,fun event => .jump (.raise event.fits) :: k,.refl,?_,fun event => ?_⟩
      · rw [Stmt.label,act]
        rfl
      · rw [if_pos (by simp [Stmt.raises,act,Action.closing?])]
        exact (lands event.fits event.throwable).less

theorem mendsBare (kept : Kept w p) (covered : cover r cs none ∈ w.covers) : Mends w p r none := by
  refine .bare fun c member same => ?_
  by_contra filled
  obtain rfl := kept.tidy.once c member filled _ covered same.symm
  exact filled rfl

end

theorem carriesCleanup {entry : NodeId} {code : List Stmt} {copy : List Loc} {body more : List Piece}
    (kept : Kept w p) (outside : pendingRegion? p f n = some r)
    (clean : cleanup? p r (ownGroups p r) (guardFollow p s f r) = some (entry,code,copy))
    (inner : Writes p (.emit (insideGuard f r (guardFollow p s f r)) n body) ((s.openGuard n (guardFollow p
      s f r)).cleaned r entry copy (s.key "")) s₁)
    (ihInner : Job.Carries w p (.emit (insideGuard f r (guardFollow p s f r)) n body) ((s.openGuard n (guardFollow p
      s f r)).cleaned r entry copy (s.key "")) s₁)
    (rest : Writes p (.goOn f [.guarded (s.key "") r body [] (some [.stmts .none entry code])] (guardFollow
      p s f r) more) (s₁.release (guardFollow p s f r)) s₂)
    (ihRest : Job.Carries w p (.goOn f [.guarded (s.key "") r body [] (some [.stmts .none entry code])] (guardFollow
      p s f r) more) (s₁.release (guardFollow p s f r)) s₂) :
    Job.Carries w p (.emit f n (.guarded (s.key "") r body [] (some [.stmts .none entry code]) :: more)) s s₂ := by
  intro comes among later j k bears minded rests
  have nested := kept.shaped.nested
  obtain ⟨around,parent⟩ := parentOfPending nested (kept.shaped.inside n) comes.inside outside
  have below := Graph.aroundInside nested (kept.shaped.inside n) around
  have apart := comes.apart nested below parent
  obtain ⟨out,follow,cleans,-⟩ := cleansOf clean
  obtain ⟨a,group,types,same⟩ := cleanupGroup clean
  have meets : ∀ x, guardFollow p s f r = some x → x ∈ p.graph.rpo := fun x => kept.listed.followOfRegion
  obtain ⟨guard,amongMore⟩ := among.cons
  obtain ⟨covered,amongBody,-⟩ := amongGuard guard
  obtain ⟨h,own,here⟩ := groupEntries (group ▸ List.mem_singleton_self a : a ∈ ownGroups p r)
  have member : entry ∈ p.graph.rpo := same ▸ here ▸ kept.listed.handlers n comes.member r around h own
  have only : (cover r [] (some [Tree.stmts Key.none (entry : Int) code]) : Cover).cleanup = [((entry : Int),code)] :=
    rfl
  have shares := kept.tidy.shares _ covered entry code out only cleans.exits
  have other : n ≠ entry := by
    rintro rfl
    refine (apart r ?_).2 rfl
    rw [comes.around,parent]
    exact shares.handler ▸ around
  have opened := (Moves.openGuard (p := p) s n (guardFollow p s f r)).trans
    (.cleaned copy (s.key "") _ ⟨a,group,types,same⟩)
  have sits : Sits p (insideGuard f r (guardFollow p s f r))
      ((s.openGuard n (guardFollow p s f r)).cleaned r entry copy (s.key "")) :=
    (comes.later opened).guard nested below parent meets
  have begins : Comes p (insideGuard f r (guardFollow p s f r)) n
      ((s.openGuard n (guardFollow p s f r)).cleaned r entry copy (s.key "")) := by
    refine ⟨sits,comes.member,fun met => comes.unmet ?_,insideGuarded comes.inside around⟩
    have before := (State.seenPlace n).mp (((State.seenSetMark (by decide) n).mp met).resolve_right other)
    exact (State.seenPlace (s := s.bump) n).mp before
  have moves := inner.moves kept.shaped kept.tested sits.named begins.inside
  have released := Moves.released (p := p) s₁ (guardFollow p s f r)
  have movesRest := rest.moves kept.shaped kept.tested comes.named trivial
  obtain ⟨-,mindedGuard,mindedMore⟩ := overCons.mp minded
  obtain ⟨resumes,told⟩ := ihRest (comes.later ((opened.trans moves).trans released)) meets amongMore later j k bears
    mindedMore rests
  have passes : endsInExit code = false := endsPlain (cleans.plain (kept.closed _ member))
  have mends : Mends w p r (some [.stmts Key.none entry code]) :=
    .cleans covered rfl only cleans.filled member cleans
  have above := bearsPush bears more
  have bearsIn : Bears w p j (.guarded r :: f.scopes)
      (.guard (s.key "") r [] (some [.stmts .none entry code]) :: push more k) := by
    refine .guard parent.symm apart mends (fun fits throwable => ?_) above
    have lands := kept.tidy.dispatch _ covered fits throwable
    have table : clausesOf p r = [([anyThrown],(entry : Int))] := by rw [clausesOf,group,List.map_singleton,types,same]
    have lands : landing fits (clausesOf p r) = ownEntry p.graph fits r := lands
    rw [table,landing,List.find?_cons_of_pos (by simpa [Clause.Takes] using throwable)] at lands
    obtain ⟨h,own,here⟩ := Option.map_eq_some_iff.mp lands.symm
    rw [own]
    obtain rfl : h.entry = entry := Int.ofNat_inj.mp here
    exact playsCleanup kept covered only member cleans fun fits throwable =>
      parent ▸ above.raise nested throwable
  obtain ⟨plays,tallies⟩ := ihInner begins amongBody (released.later.trans (movesRest.later.trans later)) j _ bearsIn
    (overGuarded.mp mindedGuard).1 fun ends => restsGuarded kept below comes.toSits parent above mends
      (fun _ x here => Option.some.inj (follow.symm.trans here) ▸ cleans.exits)
      (resumes (by simp [endsInJump,isJump,passes,ends]))
  have plays : Plays w p.graph (j + 1) (w.due p n) (push (.guarded (s.key "") r body []
      (some [.stmts .none entry code]) :: more) k) n := plays.silent rfl
  exact ⟨plays,talliesCons plays inner.begins (overGuarded.mpr ⟨tallies,fun _ none => absurd none List.not_mem_nil⟩) told⟩

theorem carriesCatches {heads : List CatchHead} {body more : List Piece} {bodies : List (List Piece)}
    {s₂ s₃ : State}
    (kept : Kept w p) (outside : pendingRegion? p f n = some r)
    (clauses : (openClauses p.graph (ownGroups p r)).from (s.openGuard n (guardFollow p s f r)) = (heads,s₀))
    (inner : Writes p (.emit (insideGuard f r (guardFollow p s f r)) n body) (s₀.openRegion r (.catches heads)) s₁)
    (ihInner : Job.Carries w p (.emit (insideGuard f r (guardFollow p s f r)) n body) (s₀.openRegion r (.catches
      heads)) s₁)
    (handlers : Writes p (.each (heads.map fun h => (outsideGuard f (guardFollow p s f r),h.node)) bodies) s₁ s₂)
    (ihHandlers : Job.Carries w p (.each (heads.map fun h => (outsideGuard f (guardFollow p s f r),h.node)) bodies)
      s₁ s₂)
    (rest : Writes p (.goOn f [.guarded (s.key "") r body (heads.zip bodies) none] (guardFollow p s f r) more)
      (s₂.release (guardFollow p s f r)) s₃)
    (ihRest : Job.Carries w p (.goOn f [.guarded (s.key "") r body (heads.zip bodies) none] (guardFollow p s f r)
      more) (s₂.release (guardFollow p s f r)) s₃) :
    Job.Carries w p (.emit f n (.guarded (s.key "") r body (heads.zip bodies) none :: more)) s s₃ := by
  intro comes among later j k bears minded rests
  have nested := kept.shaped.nested
  obtain ⟨around,parent⟩ := parentOfPending nested (kept.shaped.inside n) comes.inside outside
  have below := Graph.aroundInside nested (kept.shaped.inside n) around
  have meets : ∀ x, guardFollow p s f r = some x → x ∈ p.graph.rpo := fun x => kept.listed.followOfRegion
  have same : bodies.length = heads.length := by rw [bodiesLength handlers,List.length_map]
  obtain ⟨guard,amongMore⟩ := among.cons
  obtain ⟨covered,amongBody,amongClauses⟩ := amongGuard guard
  rw [deedsZipCatches heads bodies same] at amongClauses
  have fits := (openClausesFits p.graph (ownGroups p r) (s.openGuard n (guardFollow p s f r))).1
  have marks := (openClausesFields p.graph (ownGroups p r) (s.openGuard n (guardFollow p s f r))).1
  have written := Moves.clauses (p := p) p.graph (ownGroups p r) (s.openGuard n (guardFollow p s f r))
  rw [clauses] at fits marks written
  have opened := ((Moves.openGuard (p := p) s n (guardFollow p s f r)).trans written).trans
    (.opened (r := r) (c := .catches heads) s₀ fits)
  have sits : Sits p (insideGuard f r (guardFollow p s f r)) (s₀.openRegion r (.catches heads)) :=
    (comes.later opened).guard nested below parent meets
  have begins : Comes p (insideGuard f r (guardFollow p s f r)) n (s₀.openRegion r (.catches heads)) := by
    refine ⟨sits,comes.member,fun met => comes.unmet ?_,insideGuarded comes.inside around⟩
    have before : s₀.mark n ≠ .unvisited := met
    rw [State.mark,marks] at before
    exact (State.seenPlace (s := s.bump) n).mp before
  have moves := inner.moves kept.shaped kept.tested sits.named begins.inside
  have jobs : ∀ job ∈ heads.map fun h => (outsideGuard f (guardFollow p s f r),h.node),
      Sits p job.1 s₁ ∧ job.2 ∈ p.graph.rpo := by
    intro job member
    obtain ⟨h,head,rfl⟩ := List.mem_map.mp member
    exact ⟨(comes.later (opened.trans moves)).meets meets,kept.listed.heads comes.member outside clauses h head⟩
  have movesClauses := handlers.moves kept.shaped kept.tested (fun job member => (jobs job member).1.named) trivial
  have released := Moves.released (p := p) s₂ (guardFollow p s f r)
  have movesRest := rest.moves kept.shaped kept.tested comes.named trivial
  have afterClauses := released.later.trans (movesRest.later.trans later)
  obtain ⟨-,mindedGuard,mindedMore⟩ := overCons.mp minded
  obtain ⟨resumes,told⟩ := ihRest (comes.later (((opened.trans moves).trans movesClauses).trans released)) meets
    amongMore later j k bears mindedMore rests
  obtain ⟨mindedBody,mindedClauses⟩ := overGuarded.mp mindedGuard
  have mends := mendsBare kept covered
  have above := bearsPush bears more
  have carries := ihHandlers jobs (fun d member => by
    obtain ⟨x,inside,rfl⟩ := List.mem_map.mp member
    exact amongClauses x inside) afterClauses
  have clause : ∀ c ∈ heads.zip bodies,
      Plays w p.graph j (w.owed p f.scopes c.1.node) (push c.2 (push more k)) c.1.node ∧
        Tallies w p (j + 1) (spotsAll c.2) (push more k) := by
    intro c member
    have carry := List.forall₂_zip (List.forall₂_map_left_iff.mp carries) member
    obtain ⟨goes,tallies⟩ := carry j (push more k) above (mindedClauses c member) fun ends x either =>
      resumes (by simp [endsInJump,isJump,catchesPass member ends]) x (either.resolve_right (Option.some_ne_none x).symm)
    exact ⟨goes c.1.node rfl,tallies⟩
  have table : clauseHeads (heads.zip bodies) none = clausesOf p r := by
    have all := congrArg (List.map fun y => (y.1,(y.2 : Int))) fits
    rw [List.map_map,List.map_map] at all
    rw [headsZip same]
    exact all
  have bearsIn : Bears w p j (.guarded r :: f.scopes) (.guard (s.key "") r (heads.zip bodies) none :: push more k) := by
    refine .guard parent.symm (comes.apart nested below parent) mends (fun fits throwable => ?_) above
    refine takesClauses table (kept.tidy.dispatch _ covered fits throwable) fun h own c member entry => ?_
    have plays := (clause c member).1
    rwa [entry,(kept.owedHandler comes.member around own).1] at plays
  obtain ⟨plays,tallies⟩ := ihInner begins amongBody (movesClauses.later.trans afterClauses) j _ bearsIn mindedBody
    fun ends => restsGuarded kept below comes.toSits parent above mends (fun some => absurd rfl some)
      (resumes (by simp [endsInJump,isJump,ends]))
  have plays : Plays w p.graph (j + 1) (w.due p n) (push (.guarded (s.key "") r body (heads.zip bodies) none :: more)
      k) n := plays.silent rfl
  exact ⟨plays,talliesCons plays inner.begins
    (overGuarded.mpr ⟨tallies,fun c member => (clause c member).2⟩) told⟩

theorem jumpsForm (heads : List CatchHead) (s : State) : ∀ c ∈ ((jumpClauses heads).from s).1,
    ∃ s', c.2 = [(State.goto c.1.node s').1] := by
  induction heads generalizing s with
  | nil => exact fun _ member => absurd member List.not_mem_nil
  | cons h heads ih =>
    intro c member
    rcases List.mem_cons.mp member with rfl | member
    · exact ⟨s,rfl⟩
    · exact ih (s.goto h.node).2 c member

theorem carriesAgain {c : Clauses} {catches : List (CatchHead × List Piece)} {body more : List Piece} {s₂ : State}
    (kept : Kept w p) (outside : pendingRegion? p f n = some r) (known : s.regions.get? r = some c)
    (clauses : (repeatClauses p.graph c).from (s.openGuard n (followOfRegion p s f r [])) = (catches,s₀))
    (inner : Writes p (.emit (insideGuard f r (followOfRegion p s f r [])) n body) s₀ s₁)
    (ihInner : Job.Carries w p (.emit (insideGuard f r (followOfRegion p s f r [])) n body) s₀ s₁)
    (rest : Writes p (.goOn f [.guarded (s.key "") r body catches none] (followOfRegion p s f r []) more)
      (s₁.release (followOfRegion p s f r [])) s₂)
    (ihRest : Job.Carries w p (.goOn f [.guarded (s.key "") r body catches none] (followOfRegion p s f r []) more)
      (s₁.release (followOfRegion p s f r [])) s₂) :
    Job.Carries w p (.emit f n (.guarded (s.key "") r body catches none :: more)) s s₂ := by
  intro comes among later j k bears minded rests
  have nested := kept.shaped.nested
  obtain ⟨around,parent⟩ := parentOfPending nested (kept.shaped.inside n) comes.inside outside
  have below := Graph.aroundInside nested (kept.shaped.inside n) around
  have meets : ∀ x, followOfRegion p s f r [] = some x → x ∈ p.graph.rpo := fun x => kept.listed.followOfRegion
  obtain ⟨guard,amongMore⟩ := among.cons
  obtain ⟨covered,amongBody,-⟩ := amongGuard guard
  have table := (repeatClausesFits (comes.known r c known) (s.openGuard n (followOfRegion p s f r []))).1
  have marks := repeatClausesMarks p.graph c (s.openGuard n (followOfRegion p s f r []))
  have written := Moves.repeated (p := p) p.graph c (s.openGuard n (followOfRegion p s f r []))
  rw [clauses] at table marks written
  -- A copy of clean-up code runs as no statement of the graph's.
  have jumps : ∀ d ∈ catches, ∃ s', d.2 = [(State.goto d.1.node s').1] := by
    cases c with
    | catches heads =>
      have form := jumpsForm heads (s.openGuard n (followOfRegion p s f r []))
      rw [show (jumpClauses heads).from _ = _ from clauses] at form
      exact form
    | cleanup entry =>
      cases clauses
      exact absurd (kept.tidy.whole _ covered) nofun
  have opened := (Moves.openGuard (p := p) s n (followOfRegion p s f r [])).trans written
  have sits : Sits p (insideGuard f r (followOfRegion p s f r [])) s₀ :=
    (comes.later opened).guard nested below parent meets
  have begins : Comes p (insideGuard f r (followOfRegion p s f r [])) n s₀ := by
    refine ⟨sits,comes.member,fun met => comes.unmet ?_,insideGuarded comes.inside around⟩
    have before : s₀.mark n ≠ .unvisited := met
    rw [State.mark,marks] at before
    exact (State.seenPlace (s := s.bump) n).mp before
  have moves := inner.moves kept.shaped kept.tested sits.named begins.inside
  have released := Moves.released (p := p) s₁ (followOfRegion p s f r [])
  have movesRest := rest.moves kept.shaped kept.tested comes.named trivial
  obtain ⟨-,mindedGuard,mindedMore⟩ := overCons.mp minded
  obtain ⟨mindedBody,mindedClauses⟩ := overGuarded.mp mindedGuard
  obtain ⟨resumes,told⟩ := ihRest (comes.later ((opened.trans moves).trans released)) meets amongMore later j k bears
    mindedMore rests
  have mends := mendsBare kept covered
  have above := bearsPush bears more
  have bearsIn : Bears w p j (.guarded r :: f.scopes) (.guard (s.key "") r catches none :: push more k) := by
    refine .guard parent.symm (comes.apart nested below parent) mends (fun fits throwable => ?_) above
    refine takesClauses table (kept.tidy.dispatch _ covered fits throwable) fun h own d member entry => ?_
    obtain ⟨s',form⟩ := jumps d member
    have leads := mindedClauses d member
    rw [form] at leads ⊢
    obtain ⟨stands,leads⟩ := Bool.and_eq_true_iff.mp (overCons.mp leads).1
    have plays : Plays w p.graph j _ (push [(State.goto d.1.node s').1] (push more k)) d.1.node :=
      Plays.silent rfl (above.goto kept.tidy nested kept.closed stands leads)
    rw [entry,(kept.owedHandler comes.member around own).1] at plays
    rwa [entry]
  obtain ⟨plays,tallies⟩ := ihInner begins amongBody (released.later.trans (movesRest.later.trans later)) j _ bearsIn
    mindedBody fun ends => restsGuarded kept below comes.toSits parent above mends (fun some => absurd rfl some)
      (resumes (by simp [endsInJump,isJump,ends]))
  have plays : Plays w p.graph (j + 1) (w.due p n) (push (.guarded (s.key "") r body catches none :: more) k) n :=
    plays.silent rfl
  refine ⟨plays,talliesCons plays inner.begins (overGuarded.mpr ⟨tallies,fun d member => ?_⟩) told⟩
  obtain ⟨s',form⟩ := jumps d member
  rw [form]
  exact talliesJump rfl rfl

theorem Writes.carries {job : Job} (writes : Writes p job s s') (kept : Kept w p) : job.Carries w p s s' := by
  induction writes with
  | nowhere => exact fun _ _ _ _ j k _ _ _ => ⟨fun x none => absurd none.symm (Option.some_ne_none x),overNil⟩
  | @inline f t out s s' way rest ih =>
    intro sits inside among later j k bears minded rests
    have comes : Comes p f t s :=
      ⟨sits,inside t rfl,fun met => met (routeInline way),routeInside way⟩
    obtain ⟨plays,tallies⟩ := ih comes among later j k bears minded rests
    refine ⟨fun x same => ?_,tallies⟩
    obtain rfl := Option.some.inj same
    rw [Draft.owedHere (insideAround (routeInside way))]
    exact plays.less
  | falls way =>
    intro sits inside among later j k bears minded rests
    refine ⟨fun x same => ?_,overNil⟩
    obtain rfl := Option.some.inj same
    exact rests rfl _ (routeDone way)
  | @breaks f t scope s way =>
    intro sits inside among later j k bears minded rests
    refine ⟨fun x same => ?_,talliesJump rfl rfl⟩
    obtain rfl := Option.some.inj same
    have jump := routeJump (.inl way)
    rw [way] at jump
    refine Plays.silent rfl (bears.breaks kept.whole sits.owned jump (fun key => Moves.called later) ?_)
    exact (overCons.mp minded).1
  | @continues f t scope s way =>
    intro sits inside among later j k bears minded rests
    refine ⟨fun x same => ?_,talliesJump rfl rfl⟩
    obtain rfl := Option.some.inj same
    have jump := routeJump (.inr way)
    rw [way] at jump
    refine Plays.silent rfl (bears.continues kept.whole sits.owned jump (fun key => Moves.called later) ?_)
    exact (overCons.mp minded).1
  | @jumps f t s way =>
    intro sits inside among later j k bears minded rests
    refine ⟨fun x same => ?_,talliesJump rfl rfl⟩
    obtain rfl := Option.some.inj same
    obtain ⟨stands,leads⟩ := Bool.and_eq_true_iff.mp (overCons.mp minded).1
    exact Plays.silent rfl (bears.goto kept.tidy kept.shaped.nested kept.closed stands leads)
  | nothing => exact fun _ _ _ => .nil
  | each first rest ihFirst ihRest =>
    intro jobs among later
    obtain ⟨⟨sits,inside⟩,others⟩ := List.forall_mem_cons.mp jobs
    rw [List.flatten_cons] at among
    obtain ⟨here,there⟩ := amongAppend.mp among
    have moves := first.moves kept.shaped kept.tested sits.named trivial
    have onward := rest.moves kept.shaped kept.tested (fun job member => (others job member).1.named) trivial
    exact .cons (ihFirst sits (fun x same => Option.some.inj same ▸ inside) here (onward.later.trans later))
      (ihRest (fun job member => (others job member).imp_left (·.later moves)) there later)
  | ends => exact fun _ _ _ _ j k _ _ _ => ⟨fun _ x none => absurd none.symm (Option.some_ne_none x),overNil⟩
  | never jump way =>
    intro sits inside among later j k bears minded rests
    exact ⟨fun passes => absurd passes (by simp [jump]),overNil⟩
  | @behind f lead t more s s' jump way rest ih =>
    intro sits inside among later j k bears minded rests
    have comes : Comes p f t s :=
      ⟨sits,inside t rfl,fun met => met (routeInline way),routeInside way⟩
    refine ⟨fun passes => absurd passes (by simp [jump]),?_⟩
    refine (ih comes among later j k bears minded fun passes => rests ?_).2
    rwa [endsAppend rest.nonempty]
  | on passes rest ih =>
    intro sits inside among later j k bears minded rests
    obtain ⟨plays,tallies⟩ := ih sits inside among later j k bears minded fun ends => rests (endsAfter passes ends)
    exact ⟨fun _ => plays,tallies⟩
  | last bare noBranch noSwitch alone => exact carriesLast kept bare noBranch noSwitch alone
  | plain bare kind succ rest ih => exact carriesPlain kept bare kind succ ih
  | branch bare kind sides start left right rest ihLeft ihRight ihRest =>
    exact carriesBranch kept bare kind sides start left ihLeft right ihRight rest ihRest
  | switch bare kind start arms rest ihArms ihRest =>
    exact carriesSwitch kept bare kind start arms ihArms rest ihRest
  | pretest outside starts settled kind inner rest ihInner ihRest =>
    exact carriesPretest kept outside starts settled kind inner ihInner rest ihRest
  | posttest outside starts settled kind test inner rest ihInner ihRest =>
    exact carriesPosttest kept outside starts settled kind test inner ihInner rest ihRest
  | endless outside starts settled kind test inner rest ihInner ihRest =>
    exact carriesEndless kept starts settled kind test inner ihInner rest ihRest
  | cleanup outside first clean inner rest ihInner ihRest =>
    exact carriesCleanup kept outside clean inner ihInner rest ihRest
  | catches outside first noCleanup clauses inner handlers rest ihInner ihHandlers ihRest =>
    exact carriesCatches kept outside clauses inner ihInner handlers ihHandlers rest ihRest
  | again outside known clauses inner rest ihInner ihRest =>
    exact carriesAgain kept outside known clauses inner ihInner rest ihRest

/-! ### Whole methods -/

theorem restsNowhere : Rests w p j {} k := fun x either =>
  absurd (or_self_iff.mp either) (Option.some_ne_none x).symm

theorem Moves.wanted (s : State) (n : NodeId) : Moves p s (s.want n) :=
  ⟨fun _ => id,fun known => known.same rfl,.quiet rfl rfl fun m member => by
    unfold State.want Graph.insertOnce
    split
    · exact member
    · exact List.mem_append_left _ member⟩

theorem Sits.outermost (known : Known p s) : Sits p {} s where
  loops _ _ member := absurd member List.not_mem_nil
  switches _ _ _ member := absurd member List.not_mem_nil
  names := List.nodup_nil
  around := Graph.aroundNone.symm
  stops := nofun
  known := known

theorem Comes.outermost (known : Known p s) (member : n ∈ p.graph.rpo) (unmet : ¬s.Seen n) : Comes p {} n s :=
  ⟨.outermost known,member,unmet,rfl⟩

theorem Remains.moves {ns : List NodeId} {out : List Piece} (remains : Remains p ns out s s') (shaped : p.graph.Shaped)
    (tested : Tested p) : Moves p s s' := by
  induction remains with
  | none => exact .quiet rfl rfl rfl rfl rfl
  | met met rest ih => exact ih
  | more free here rest ih => 
    exact ((Moves.wanted ..).trans (here.moves shaped tested nofun rfl)).trans ih

theorem Remains.carries {ns : List NodeId} {out : List Piece} (remains : Remains p ns out s s') (kept : Kept w p)
    (members : ∀ n ∈ ns, n ∈ p.graph.rpo) (known : Known p s) (among : Among w out) (later : Later s' w.state)
    (bears : Bears w p j [] k) (minded : Minded w p (spotsAll out) k) : Tallies w p (j + 1) (spotsAll out) k := by
  induction remains with
  | none => exact overNil
  | met met rest ih => exact ih (fun n member => members n (List.mem_cons_of_mem _ member)) known among later minded
  | @more n ns out outs s s₁ s₂ free here rest ih =>
    obtain ⟨member,others⟩ := List.forall_mem_cons.mp members
    obtain ⟨amongHere,amongRest⟩ := amongAppend.mp among
    obtain ⟨mindedHere,mindedRest⟩ := overJoin.mp minded
    have wanted := (Moves.wanted (p := p) s n).known known
    have moves := here.moves kept.shaped kept.tested (nofun : Frame.Named {}) rfl
    have onward := rest.moves kept.shaped kept.tested
    refine overJoin.mpr ⟨?_,ih others (moves.known wanted) amongRest later mindedRest⟩
    exact (here.carries kept (.outermost wanted member fun met => met free) amongHere (onward.later.trans later) j _
      (bearsPush bears outs) mindedHere fun _ => restsNowhere).2

section
variable {entry : NodeId} (kept : Kept w p) (drafted : Drafted p entry w) (member : entry ∈ p.graph.rpo)
include kept drafted member

end

end RegCode.Recovery
