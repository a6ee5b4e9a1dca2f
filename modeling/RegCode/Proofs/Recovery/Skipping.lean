import RegCode.Proofs.Recovery.Listing

/-! Which statements are left out where a node is written: the one that receives an exception, which the
head of a clause does instead, and those that clean-up code has a copy of. Both are left out of nodes that
are not written yet, so what is left out of a node is settled when the node is written. -/
namespace RegCode

def Stmt.receives (s : Stmt) : Bool :=
  match s.act with
  | .assign _ (.caught _) _ => true
  | _ => false

def Cover.code (c : Cover) : List Stmt := c.cleanup.flatMap (·.2)

namespace Recovery

open RegCode.Tree

variable {p : Plan} {f : Frame} {n u : NodeId} {s s₀ s₁ s₂ s' : State} {r : RegionId} {k : List Cover}
  {ds es : List (List Cover × Deed)}

structure Cleans (p : Plan) (r : RegionId) (entry out : NodeId) (code : List Stmt) : Prop where
  own : ∃ a ∈ ownGroups p r, a.entry = entry
  filled : code ≠ []
  kind : (p.graph.node entry).kind = .throw
  exits : p.regionExits r = [out]
  handler : ∃ first last, first.receives = true ∧ last.receives = false ∧
    (p.graph.node entry).stmts = first :: (code ++ [last])
  same : code.map (Stmt.text p.graph.vars) =
    ((p.graph.node out).stmts.take code.length).map (Stmt.text p.graph.vars)

theorem caughtReceives {v : VarId} {l : Loc} (caught : caught? p.graph u = some (v,l)) :
    ∃ first rest, (p.graph.node u).stmts = first :: rest ∧ first.receives = true ∧ first.loc = l := by
  unfold caught? at caught
  split at caught
  · rename_i l' v' ref declares rest stmts
    cases Option.some.inj caught
    exact ⟨_,rest,stmts,rfl,rfl⟩
  · contradiction

theorem cleansOf {follow : Option NodeId} {entry : NodeId} {code : List Stmt} {copy : List Loc}
    (clean : cleanup? p r (ownGroups p r) follow = some (entry,code,copy)) :
    ∃ out, follow = some out ∧ Cleans p r entry out code ∧
      copy = ((p.graph.node out).stmts.take code.length).map (·.loc) := by
  unfold cleanup? at clean
  split at clean
  · rename_i a out group
    obtain ⟨⟨v,l⟩,caught,fits⟩ := Option.bind_eq_some_iff.mp clean
    dsimp only at fits
    split at fits
    · rename_i all
      simp only [Option.some.injEq,Prod.mk.injEq] at fits
      obtain ⟨rfl,rfl,rfl⟩ := fits
      simp only [Bool.and_eq_true,beq_iff_eq,Bool.not_eq_true',List.isEmpty_eq_false_iff] at all
      obtain ⟨⟨⟨⟨⟨-,kind⟩,some⟩,rethrows⟩,exits⟩,same⟩ := all
      obtain ⟨first,rest,stmts,receives,-⟩ := caughtReceives caught
      rw [stmts,List.drop_one,List.tail_cons] at some
      have inside : rest ≠ [] := fun none => some (by rw [none]; rfl)
      obtain ⟨front,last,ends⟩ := List.eq_nil_or_concat' rest |>.resolve_left inside
      refine ⟨out,rfl,⟨⟨a,group ▸ List.mem_singleton_self a,rfl⟩,?_,kind,exits,⟨first,last,receives,?_,?_⟩,?_⟩,rfl⟩
      · rwa [stmts,List.drop_one,List.tail_cons]
      · unfold Recovery.rethrows Node.last? at rethrows
        rw [stmts,ends,← List.cons_append,List.getLast?_concat,Option.map_some] at rethrows
        unfold Stmt.receives
        split at rethrows
        · rename_i act
          rw [Option.some.inj act]
        · contradiction
      · rw [stmts,ends]
        simp
      · simpa using same
    · contradiction
  · contradiction

structure Right (p : Plan) (c : Cover) : Prop where
  cleanup : c.cleanup = [] ∨ ∃ (entry : NodeId) (out : NodeId) (code : List Stmt),
    c.cleanup = [((entry : Int),code)] ∧ Cleans p c.region entry out code
  copies : ∀ n ss, (n,ss) ∈ c.copies → ∃ m : NodeId, n = m ∧ ∃ first : Stmt,
    first.receives = true ∧ (p.graph.node m).stmts = first :: ss

def spared (p : Plan) (c : Cover) (u : NodeId) : List Loc :=
  ((p.graph.node u).stmts.take c.code.length).map (·.loc)

def Skips (p : Plan) (ds : List (List Cover × Deed)) (u : NodeId) (l : Loc) : Prop :=
  ∃ k c, (k,.guard c) ∈ ds ∧
    ((∃ a ∈ ownGroups p c.region, a.entry = u) ∧ (∃ v, caught? p.graph u = some (v,l)) ∨
      p.regionExits c.region = [u] ∧ l ∈ spared p c u)

theorem Skips.more {l : Loc} (skips : Skips p ds u l) (more : ∀ x ∈ ds, x ∈ es) : Skips p es u l := by
  obtain ⟨k,c,member,why⟩ := skips
  exact ⟨k,c,more _ member,why⟩

def Left (p : Plan) (ds : List (List Cover × Deed)) (skipped : List Loc) (n : NodeId) (ss : List Stmt) : Prop :=
  ∃ ls : List Loc, ss = (p.graph.node n).stmts.filter (fun t => !ls.contains t.loc) ∧ (∀ l ∈ ls, l ∈ skipped) ∧
    ∀ l ∈ skipped, l ∈ ls ∨ ∃ u ≠ n, Skips p ds u l

structure Took (p : Plan) (s : State) (ds : List (List Cover × Deed)) (s' : State) : Prop where
  grows : ∀ l ∈ s.skipped, l ∈ s'.skipped
  stays : ∀ m, s.mark m = .finished → s'.mark m = .finished
  origin : ∀ l ∈ s'.skipped, l ∈ s.skipped ∨ ∃ u, s.mark u ≠ .finished ∧ Skips p ds u l
  code : ∀ k (n : Int) ss, (k,.code n ss) ∈ ds →
    ∃ m : NodeId, n = m ∧ s'.mark m = .finished ∧ Left p ds s'.skipped m ss
  guards : ∀ k c, (k,.guard c) ∈ ds →
    Right p c ∧ ∀ u, p.regionExits c.region = [u] → ∀ l ∈ spared p c u, l ∈ s'.skipped

theorem repeatClausesMarks (g : Graph) (c : Clauses) (s : State) :
    ((repeatClauses g c).from s).2.marks = s.marks := by
  cases c with
  | cleanup entry => rfl
  | catches heads =>
    show ((jumpClauses heads).from s).2.marks = s.marks
    induction heads generalizing s with
    | nil => rfl
    | cons h heads ih =>
      simp only [jumpClauses,fromBind,fromPure,fromModifyGet]
      exact (ih (s.goto h.node).2).trans (s.gotoFields h.node).1

structure Still (s s' : State) : Prop where
  skipped : s'.skipped = s.skipped
  stays : ∀ m, s.mark m = .finished → s'.mark m = .finished
  regions : s'.regions = s.regions

namespace Still

theorem refl (s : State) : Still s s := ⟨rfl,fun _ => id,rfl⟩

theorem trans (first : Still s s₁) (second : Still s₁ s') : Still s s' :=
  ⟨second.skipped.trans first.skipped,fun m done => second.stays m (first.stays m done),
    second.regions.trans first.regions⟩

theorem same (skipped : s'.skipped = s.skipped) (marks : s'.marks = s.marks)
    (regions : s'.regions = s.regions) : Still s s' :=
  ⟨skipped,fun m done => by rwa [State.mark,marks],regions⟩

theorem placed (s : State) (n : NodeId) (key : Key) : Still s (s.place n key) := by
  refine .same ?_ (s.placeFields n key).1 (s.regionsPlace n key)
  unfold State.place
  split <;> rfl

theorem marked {m : Mark} (unfinished : s.mark n = .finished → m = .finished) : Still s (s.setMark n m) := by
  refine ⟨rfl,fun k done => ?_,rfl⟩
  rw [State.markSetMark]
  split
  · rename_i here
    exact unfinished (here ▸ done)
  · exact done

theorem finished (s : State) (n : NodeId) : Still s (s.setMark n .finished) := marked fun _ => rfl

theorem released (s : State) (follow : Option NodeId) : Still s (s.release follow) := same rfl rfl rfl

theorem named (s : State) (scope : Option Key) : Still s (s.nameScope scope) := by
  refine .same ?_ (s.nameScopeFields scope).1 (s.regionsNameScope scope)
  cases scope <;> rfl

theorem jumped (s : State) (n : NodeId) : Still s (s.goto n).2 := by
  refine .same ?_ (s.gotoFields n).1 (s.regionsGoto n)
  show (s.labelOf n).2.skipped = s.skipped
  unfold State.labelOf
  split
  · split <;> rfl
  · rfl

theorem begun (s : State) (n : NodeId) (key : Key) : Still s (s.bump.place n key) :=
  (same rfl rfl rfl : Still s s.bump).trans (placed s.bump n key)

theorem entered {own : String} {follow : Option NodeId} (unfinished : s.mark n ≠ .finished) :
    Still s (s.enter n own follow) := by
  have start := begun s n (s.key own)
  have same' : (s.bump.place n (s.key own)).mark n = s.mark n := by
    rw [State.mark,(s.bump.placeFields n (s.key own)).1]
    rfl
  have mark : Still (s.bump.place n (s.key own)) ((s.bump.place n (s.key own)).setMark n .entered) :=
    marked fun done => absurd (same' ▸ done) unfinished
  exact (start.trans mark).trans (same rfl rfl rfl)

theorem left (s : State) (n : NodeId) (follow : Option NodeId) : Still s (s.leave n follow) :=
  (released s follow).trans (finished _ n)

theorem statement (s : State) (n : NodeId) (ss : List Stmt) : Still s (s.statement n ss).2 :=
  (begun s n (s.key "")).trans (finished _ n)

theorem looped (s : State) (n : NodeId) : Still s (s.openLoop n) := begun s n (s.key (loopName n))

theorem guarding (s : State) (n : NodeId) (follow : Option NodeId) : Still s (s.openGuard n follow) :=
  (begun s n (s.key "")).trans (same rfl rfl rfl)

theorem again (g : Graph) (c : Clauses) (s : State) : Still s ((repeatClauses g c).from s).2 := by
  cases c with
  | cleanup entry => exact refl s
  | catches heads =>
    show Still s ((jumpClauses heads).from s).2
    induction heads generalizing s with
    | nil => exact refl s
    | cons h heads ih =>
      simp only [jumpClauses,fromBind,fromPure,fromModifyGet]
      exact (jumped s h.node).trans (ih (s.goto h.node).2)

end Still

namespace Took

theorem quiet (still : Still s s') : Took p s [] s' :=
  ⟨fun _ inside => still.skipped ▸ inside,still.stays,fun _ inside => .inl (still.skipped ▸ inside),
    fun _ _ _ member => absurd member List.not_mem_nil,fun _ _ member => absurd member List.not_mem_nil⟩

theorem trans (first : Took p s ds s₁) (second : Took p s₁ es s') : Took p s (ds ++ es) s' := by
  have inLeft : ∀ x ∈ ds, x ∈ ds ++ es := fun x => List.mem_append_left es
  have inRight : ∀ x ∈ es, x ∈ ds ++ es := fun x => List.mem_append_right ds
  refine ⟨fun l inside => second.grows l (first.grows l inside),
    fun m done => second.stays m (first.stays m done),fun l inside => ?_,fun k n ss member => ?_,
    fun k c member => ?_⟩
  · rcases second.origin l inside with before | ⟨u,unwritten,skips⟩
    · exact (first.origin l before).imp_right fun ⟨u,unwritten,skips⟩ => ⟨u,unwritten,skips.more inLeft⟩
    · exact .inr ⟨u,fun done => unwritten (first.stays u done),skips.more inRight⟩
  · rcases List.mem_append.mp member with member | member
    · obtain ⟨m,same,done,ls,filter,among,others⟩ := first.code k n ss member
      refine ⟨m,same,second.stays m done,ls,filter,fun l inside => second.grows l (among l inside),
        fun l inside => ?_⟩
      rcases second.origin l inside with before | ⟨u,unwritten,skips⟩
      · exact (others l before).imp_right fun ⟨u,other,skips⟩ => ⟨u,other,skips.more inLeft⟩
      · exact .inr ⟨u,fun here => unwritten (here ▸ done),skips.more inRight⟩
    · obtain ⟨m,same,done,ls,filter,among,others⟩ := second.code k n ss member
      exact ⟨m,same,done,ls,filter,among,fun l inside =>
        (others l inside).imp_right fun ⟨u,other,skips⟩ => ⟨u,other,skips.more inRight⟩⟩
  · rcases List.mem_append.mp member with member | member
    · obtain ⟨right,spares⟩ := first.guards k c member
      exact ⟨right,fun u exits l inside => second.grows l (spares u exits l inside)⟩
    · exact second.guards k c member

theorem before (took : Took p s₁ ds s') (still : Still s s₁) : Took p s ds s' :=
  List.nil_append ds ▸ (quiet still).trans took

theorem after (took : Took p s ds s₁) (still : Still s₁ s') : Took p s ds s' :=
  List.append_nil ds ▸ took.trans (quiet still)

theorem opened {c : Clauses} (took : Took p (s.openRegion r c) ds s') : Took p s ds s' :=
  ⟨took.grows,took.stays,took.origin,took.code,took.guards⟩

theorem test {i : Int} (s : State) : Took p s [(k,.test i)] s :=
  ⟨fun _ => id,fun _ => id,fun _ => .inl,by simp,by simp⟩

theorem statement (s : State) (n : NodeId) : Took p s
    (deedsAll k [(s.statement n (p.graph.node n).stmts).1]) (s.statement n (p.graph.node n).stmts).2 := by
  have still := Still.statement s n (p.graph.node n).stmts
  have done : (s.statement n (p.graph.node n).stmts).2.mark n = .finished := by
    simp [State.statement,State.markSetMark]
  rw [deedsStatement]
  refine ⟨fun l inside => still.skipped ▸ inside,still.stays,fun l inside => .inl (still.skipped ▸ inside),
    fun k' m ss member => ?_,by simp⟩
  obtain ⟨-,same⟩ := Prod.mk.inj (List.mem_singleton.mp member)
  cases same
  exact ⟨n,rfl,done,s.skipped,rfl,fun l inside => still.skipped ▸ inside,
    fun l inside => .inl (still.skipped ▸ inside)⟩

end Took

def Taking (p : Plan) (s : State) : Prop :=
  ∀ r entry, s.regions.get? r = some (.cleanup entry) →
    ∃ first rest, (p.graph.node entry).stmts = first :: rest ∧ first.receives = true

theorem Taking.still (taking : Taking p s) (still : Still s s') : Taking p s' :=
  fun r entry found => taking r entry (still.regions ▸ found)

theorem Taking.opened {c : Clauses} (taking : Taking p s) (receives : ∀ entry, c = .cleanup entry →
    ∃ first rest, (p.graph.node entry).stmts = first :: rest ∧ first.receives = true) :
    Taking p (s.openRegion r c) := by
  intro q entry found
  rw [State.openRegion,Table.get?_insert] at found
  split at found
  · exact receives entry (Option.some.inj found)
  · exact taking q entry found

theorem Taking.cleaned {entry out : NodeId} {code : List Stmt} {copy : List Loc} {key : Key}
    (taking : Taking p s) (cleans : Cleans p r entry out code) : Taking p (s.cleaned r entry copy key) := by
  have regions : (s.cleaned r entry copy key).regions = (s.openRegion r (.cleanup entry)).regions :=
    State.regionsPlace _ entry key
  have opened : Taking p (s.openRegion r (.cleanup entry)) := taking.opened fun other same => by
    cases same
    obtain ⟨first,last,receives,-,stmts⟩ := cleans.handler
    exact ⟨first,_,stmts,receives⟩
  exact fun q other found => opened q other (regions ▸ found)

/-! ### Clauses -/

theorem branchAmong (key : Key) (n : NodeId) (cond : Test) (meets : Bool) (onTrue onFalse : List Piece) :
    ∃ c a b, Tree.branch key n c a b ∈ branchPieces key n cond meets onTrue onFalse := by
  unfold branchPieces
  split
  · exact ⟨_,_,_,List.mem_singleton_self _⟩
  · split
    · exact ⟨_,_,_,List.mem_singleton_self _⟩
    · split
      · exact ⟨_,_,_,List.mem_cons_self ..⟩
      · exact ⟨_,_,_,List.mem_singleton_self _⟩

theorem Writes.emitted {key : Key} {i : Int} {ss : List Stmt}
    (writes : Writes p (.emit f n [.stmts key i ss]) s s') : ¬i < 0 := by
  generalize same : [Tree.stmts key i ss] = out at writes
  cases writes with
  | last | plain =>
    simp only [State.statement,List.cons.injEq,stmts.injEq] at same
    omega
  | @branch _ _ cond first second lead onTrue onFalse more _ s₀ =>
    obtain ⟨c,a,b,among⟩ := branchAmong (s₀.key "") n cond (p.branchFollows.get? n).isSome onTrue onFalse
    have inside := List.mem_append_left more (List.mem_append_right lead among)
    rw [← same] at inside
    simp at inside
  | @switch _ _ lead bodies more _ s₀ =>
    have inside := List.mem_append_left more (List.mem_append_right lead (List.mem_singleton_self
      (Tree.switch (s₀.key (switchName n)) (n : Int) (switchValue (p.graph.node n)) (writtenArms p f n bodies))))
    rw [← same] at inside
    simp at inside
  | pretest | posttest | endless | cleanup | catches | again => simp at same

theorem Writes.original {jobs : List (Frame × NodeId)} {bodies : List (List Piece)}
    (writes : Writes p (.each jobs bodies) s s') : ∀ out ∈ bodies, ∀ h, copied? (h,out) = none := by
  generalize same : Job.each jobs bodies = job at writes
  induction writes generalizing jobs bodies with
  | nothing =>
    cases same
    exact fun _ member => absurd member List.not_mem_nil
  | each first rest ihFirst ihRest =>
    cases same
    refine List.forall_mem_cons.mpr ⟨fun h => ?_,ihRest rfl⟩
    unfold copied?
    split
    · rename_i body
      dsimp only at body
      subst body
      cases first with
      | inline way rest => rw [if_neg rest.emitted]
    · rfl
  | _ => cases same

theorem openClausesSkips (g : Graph) (groups : List Group) (s : State) :
    (∀ l ∈ s.skipped, l ∈ ((openClauses g groups).from s).2.skipped) ∧
      ∀ l ∈ ((openClauses g groups).from s).2.skipped, l ∈ s.skipped ∨
        ∃ a ∈ groups, s.mark a.entry = .unvisited ∧ ∃ v, caught? g a.entry = some (v,l) := by
  induction groups generalizing s with
  | nil => exact ⟨fun _ => id,fun _ => .inl⟩
  | cons a groups ih =>
    have head : (∀ l ∈ s.skipped, l ∈ ((openClause g a).from s).2.skipped) ∧
        (∀ l ∈ ((openClause g a).from s).2.skipped, l ∈ s.skipped ∨
          s.mark a.entry = .unvisited ∧ ∃ v, caught? g a.entry = some (v,l)) ∧
        ((openClause g a).from s).2.marks = s.marks := by
      unfold openClause
      split
      · rename_i v loc caught
        rw [fromBind,fromGet]
        split
        · rename_i free
          refine ⟨fun l inside => List.mem_append_left _ inside,fun l inside => ?_,rfl⟩
          refine (List.mem_append.mp inside).imp_right fun here => ⟨free,v,?_⟩
          rw [caught,List.mem_singleton.mp here]
        · exact ⟨fun _ => id,fun _ => .inl,rfl⟩
      · exact ⟨fun _ => id,fun _ => .inl,rfl⟩
    obtain ⟨grows,origin,marks⟩ := head
    obtain ⟨growsRest,originRest⟩ := ih ((openClause g a).from s).2
    simp only [openClauses,fromBind,fromPure]
    refine ⟨fun l inside => growsRest l (grows l inside),fun l inside => ?_⟩
    rcases originRest l inside with before | ⟨b,member,free,caught⟩
    · exact (origin l before).imp_right fun found => ⟨a,List.mem_cons_self ..,found.1,found.2⟩
    · rw [State.mark,marks] at free
      exact .inr ⟨b,List.mem_cons_of_mem _ member,free,caught⟩

theorem Took.clauses {heads : List CatchHead} {bodies : List (List Piece)}
    (original : ∀ out ∈ bodies, ∀ h, copied? (h,out) = none)
    (clauses : (openClauses p.graph (ownGroups p r)).from s = (heads,s')) :
    Took p s [(k,.guard (cover r (heads.zip bodies) none))] s' := by
  obtain ⟨grows,origin⟩ := openClausesSkips p.graph (ownGroups p r) s
  have marks := (openClausesFields p.graph (ownGroups p r) s).1
  rw [clauses] at grows origin marks
  refine ⟨grows,fun m done => by rwa [State.mark,marks],fun l inside => ?_,by simp,fun k' c member => ?_⟩
  · rcases origin l inside with before | ⟨a,group,free,caught⟩
    · exact .inl before
    · refine .inr ⟨a.entry,fun done => ?_,k,_,List.mem_singleton_self _,.inl ⟨⟨a,group,rfl⟩,caught⟩⟩
      rw [free] at done
      cases done
  · cases List.mem_singleton.mp member
    have none : (heads.zip bodies).filterMap copied? = [] := by
      refine List.filterMap_eq_nil_iff.mpr fun x inside => ?_
      exact original x.2 (List.of_mem_zip inside).2 x.1
    refine ⟨⟨.inl rfl,fun n ss inside => ?_⟩,fun u _ l inside => ?_⟩
    · rw [cover,none] at inside
      exact absurd inside List.not_mem_nil
    · exact absurd inside List.not_mem_nil

theorem Took.cleaned {follow : Option NodeId} {entry : NodeId} {code : List Stmt} {copy : List Loc}
    {key : Key} (clean : cleanup? p r (ownGroups p r) follow = some (entry,code,copy))
    (unfinished : ∀ out, follow = some out → s.mark out ≠ .finished) :
    Took p s [(k,.guard (cover r [] (some [Tree.stmts Key.none entry code])))]
      (s.cleaned r entry copy key) := by
  obtain ⟨out,rfl,cleans,rfl⟩ := cleansOf clean
  have still := Still.placed ((s.openRegion r (.cleanup entry)).skip
    (((p.graph.node out).stmts.take code.length).map (·.loc))) entry key
  have skipped : (s.cleaned r entry (((p.graph.node out).stmts.take code.length).map (·.loc)) key).skipped =
      s.skipped ++ ((p.graph.node out).stmts.take code.length).map (·.loc) := still.skipped
  have kept : Cover.code (cover r [] (some [Tree.stmts Key.none entry code])) = code := by
    simp [Cover.code,cover,statements?]
  refine ⟨fun l inside => ?_,fun m done => ?_,fun l inside => ?_,by simp,fun k' c member => ?_⟩
  · rw [skipped]
    exact List.mem_append_left _ inside
  · rw [State.cleaned,State.markSetMark]
    split
    · rfl
    · exact still.stays m done
  · rw [skipped] at inside
    refine (List.mem_append.mp inside).imp_right fun copied => ⟨out,unfinished out rfl,k,_,
      List.mem_singleton_self _,.inr ⟨cleans.exits,?_⟩⟩
    rwa [spared,kept]
  · cases List.mem_singleton.mp member
    refine ⟨⟨.inr ⟨entry,out,code,rfl,cleans⟩,fun n ss inside => absurd inside List.not_mem_nil⟩,
      fun u exits l inside => ?_⟩
    obtain rfl : out = u := List.singleton_inj.mp (cleans.exits.symm.trans exits)
    rw [spared,kept] at inside
    rw [skipped]
    exact List.mem_append_right _ inside

theorem jumpClausesOriginal (heads : List CatchHead) (s : State) :
    ((jumpClauses heads).from s).1.filterMap copied? = [] := by
  induction heads generalizing s with
  | nil => rfl
  | cons h heads ih =>
    simp only [jumpClauses,fromBind,fromPure,fromModifyGet]
    exact ih (s.goto h.node).2

theorem Took.again {c : Clauses} {catches : List (CatchHead × List Piece)} (taking : Taking p s)
    (known : s.regions.get? r = some c)
    (clauses : (repeatClauses p.graph c).from s = (catches,s')) :
    Took p s [(k,.guard (cover r catches none))] s' := by
  have still := Still.again p.graph c s
  rw [clauses] at still
  refine ⟨fun _ inside => still.skipped ▸ inside,still.stays,fun _ inside => .inl (still.skipped ▸ inside),
    by simp,fun k' d member => ?_⟩
  cases List.mem_singleton.mp member
  refine ⟨⟨.inl rfl,fun n ss inside => ?_⟩,fun u _ l inside => absurd inside List.not_mem_nil⟩
  cases c with
  | cleanup entry =>
    obtain ⟨first,rest,stmts,receives⟩ := taking r entry known
    cases clauses
    rw [cover,stmts] at inside
    cases List.mem_singleton.mp inside
    exact ⟨entry,rfl,first,receives,stmts⟩
  | catches heads =>
    have none := jumpClausesOriginal heads s
    rw [show (jumpClauses heads).from s = (catches,s') from clauses] at none
    rw [cover,none] at inside
    exact absurd inside List.not_mem_nil

/-! ### Jobs -/

def Job.Took (p : Plan) : Job → State → State → Prop
  | .emit _ n out, s, s' => (s.mark n = .finished → (p.graph.node n).kind = .throw) → Taking p s →
    (∀ k, Recovery.Took p s (deedsAll k out) s') ∧ Taking p s'
  | .go _ _ out, s, s' => Taking p s → (∀ k, Recovery.Took p s (deedsAll k out) s') ∧ Taking p s'
  | .goOn _ _ _ more, s, s' => Taking p s → (∀ k, Recovery.Took p s (deedsAll k more) s') ∧ Taking p s'
  | .each _ outs, s, s' =>
    Taking p s → (∀ k, Recovery.Took p s (deedsAll k outs.flatten) s') ∧ Taking p s'

theorem tookBranch {cond : Test} {first second : Option NodeId} {lead onTrue onFalse more : List Piece}
    {s₃ : State} (shaped : p.graph.Shaped) (kind : (p.graph.node n).kind = .cond)
    (sides : orient p s f (p.graph.node n) (p.branchFollows.get? n) = (cond,first,second))
    (start : s.lead n (p.graph.node n).stmts = (lead,s₀))
    (ihLeft : Job.Took p (.go (sideFrame f (p.branchFollows.get? n)) first onTrue) (s₀.enter n ""
      (p.branchFollows.get? n)) s₁)
    (ihRight : Job.Took p (.go (sideFrame f (p.branchFollows.get? n)) second onFalse) s₁ s₂)
    (rest : Writes p (.goOn f (lead ++ branchPieces (s₀.key "") n cond (p.branchFollows.get? n).isSome onTrue
      onFalse) (p.branchFollows.get? n) more) (s₂.leave n (p.branchFollows.get? n)) s₃)
    (ihRest : Job.Took p (.goOn f (lead ++ branchPieces (s₀.key "") n cond (p.branchFollows.get? n).isSome
      onTrue onFalse) (p.branchFollows.get? n) more) (s₂.leave n (p.branchFollows.get? n)) s₃) :
    Job.Took p (.emit f n (lead ++ branchPieces (s₀.key "") n cond (p.branchFollows.get? n).isSome onTrue
      onFalse ++ more)) s s₃ := by
  intro unfinished taking
  obtain ⟨rfl,rfl⟩ := leadNone shaped (.inl kind) start
  have entered : Still s₀ (s₀.enter n "" (p.branchFollows.get? n)) :=
    .entered fun done => absurd (kind.symm.trans (unfinished done)) (by decide)
  obtain ⟨tookLeft,taking₁⟩ := ihLeft (taking.still entered)
  obtain ⟨tookRight,taking₂⟩ := ihRight taking₁
  obtain ⟨tookRest,taking₃⟩ := ihRest (taking₂.still (.left ..))
  refine ⟨fun k => ?_,taking₃⟩
  rw [List.nil_append,deedsAppend,deedsBranch]
  have sides := (((tookLeft k).before entered).trans (tookRight k)).after (.left s₂ n (p.branchFollows.get? n))
  exact ((Took.test s₀).trans sides).trans (tookRest k)

theorem tookSwitch {lead more : List Piece} {bodies : List (List Piece)} (shaped : p.graph.Shaped)
    (kind : (p.graph.node n).kind = .switch) (start : s.lead n (p.graph.node n).stmts = (lead,s₀))
    (arms : Writes p (.each (switchJobs p f n s₀) bodies) (s₀.enter n (switchName n) (switchFollow p f n)) s₁)
    (ihArms : Job.Took p (.each (switchJobs p f n s₀) bodies) (s₀.enter n (switchName n) (switchFollow p f n)) s₁)
    (rest : Writes p (.goOn f (lead ++ [.switch (s₀.key (switchName n)) n (switchValue (p.graph.node n))
      (writtenArms p f n bodies)]) (switchFollow p f n) more) (s₁.leave n (switchFollow p f n)) s₂)
    (ihRest : Job.Took p (.goOn f (lead ++ [.switch (s₀.key (switchName n)) n (switchValue (p.graph.node n))
      (writtenArms p f n bodies)]) (switchFollow p f n) more) (s₁.leave n (switchFollow p f n)) s₂) :
    Job.Took p (.emit f n (lead ++ [.switch (s₀.key (switchName n)) n (switchValue (p.graph.node n))
      (writtenArms p f n bodies)] ++ more)) s s₂ := by
  intro unfinished taking
  obtain ⟨rfl,rfl⟩ := leadNone shaped (.inr kind) start
  have entered : Still s₀ (s₀.enter n (switchName n) (switchFollow p f n)) :=
    .entered fun done => absurd (kind.symm.trans (unfinished done)) (by decide)
  obtain ⟨tookArms,taking₁⟩ := ihArms (taking.still entered)
  obtain ⟨tookRest,taking₂⟩ := ihRest (taking₁.still (.left ..))
  refine ⟨fun k => ?_,taking₂⟩
  rw [List.nil_append,deedsAppend,deedsSwitch arms]
  have inner := ((tookArms k).before entered).after (.left s₁ n (switchFollow p f n))
  exact ((Took.test s₀).trans inner).trans (tookRest k)

theorem tookPretest {found shape : LoopShape} {body more : List Piece} (tested : Tested p)
    (starts : shapeAt? p f n = some found) (settled : settleShape p s found = shape)
    (kind : shape.kind = .pretest)
    (ihInner : Job.Took p (.go { scopes := loopScopes f shape n s, stop := some n } (some shape.start) body)
      ((s.openLoop n).setMark n .entered) s₁)
    (ihRest : Job.Took p (.goOn f [.loop (s.key (loopName n)) .pretest n n (some (loopTest p.graph n
      shape.start)) (dropLastContinue body)] shape.follow more) (s₁.setMark n .finished) s₂) :
    Job.Took p (.emit f n (.loop (s.key (loopName n)) .pretest n n (some (loopTest p.graph n shape.start))
      (dropLastContinue body) :: more)) s s₂ := by
  intro unfinished taking
  have test := (testedShape tested starts settled).1 kind
  have opened : Still s ((s.openLoop n).setMark n .entered) := (Still.looped s n).trans <| .marked fun done => by
    rw [State.mark,(openLoopFields s n).1] at done
    exact absurd (test.symm.trans (unfinished done)) (by decide)
  obtain ⟨tookInner,taking₁⟩ := ihInner (taking.still opened)
  obtain ⟨tookRest,taking₂⟩ := ihRest (taking₁.still (.finished ..))
  refine ⟨fun k => ?_,taking₂⟩
  rw [← List.singleton_append,deedsAppend,deedsLoop,realNode]
  have around := ((tookInner k).before opened).after (.finished s₁ n)
  exact ((Took.test s).trans around).trans (tookRest k)

theorem tookPosttest {found shape : LoopShape} {latch : NodeId} {body more : List Piece} (tested : Tested p)
    (starts : shapeAt? p f n = some found) (settled : settleShape p s found = shape)
    (kind : shape.kind = .posttest) (test : shape.test = some latch)
    (ihInner : Job.Took p (.emit { scopes := loopScopes f shape n s, stop := some latch } n body) (((s.openLoop
      n).place latch (s.key (loopName n))).setMark latch .entered) s₁)
    (ihRest : Job.Took p (.goOn f [.loop (s.key (loopName n)) .posttest latch n (some (loopTest p.graph latch
      n)) (dropLastContinue body)] shape.follow more) (s₁.setMark latch .finished) s₂) :
    Job.Took p (.emit f n (.loop (s.key (loopName n)) .posttest latch n (some (loopTest p.graph latch n))
      (dropLastContinue body) :: more)) s s₂ := by
  intro unfinished taking
  have free := settledFree settled kind test
  have apart : n ≠ latch := Ne.symm ((testedShape tested starts settled).2 kind latch test).2
  have placed := (Still.looped s n).trans (.placed (s.openLoop n) latch (s.key (loopName n)))
  have marks : (((s.openLoop n).place latch (s.key (loopName n)))).marks = s.marks :=
    ((s.openLoop n).placeFields latch _).1.trans (openLoopFields s n).1
  have opened : Still s (((s.openLoop n).place latch (s.key (loopName n))).setMark latch .entered) :=
    placed.trans <| .marked fun done => by
      rw [State.mark,marks] at done
      exact absurd (free.symm.trans done) (by decide)
  obtain ⟨tookInner,taking₁⟩ := ihInner (fun done => by
    rw [State.markSetMark,if_neg apart,State.mark,marks] at done
    exact unfinished done) (taking.still opened)
  obtain ⟨tookRest,taking₂⟩ := ihRest (taking₁.still (.finished ..))
  refine ⟨fun k => ?_,taking₂⟩
  rw [← List.singleton_append,deedsAppend,deedsLoop,realNode]
  have around := ((tookInner k).before opened).after (.finished s₁ latch)
  exact ((Took.test s).trans around).trans (tookRest k)

theorem tookEndless {shape : LoopShape} {body more : List Piece}
    (ihInner : Job.Took p (.emit { scopes := loopScopes f shape n s } n body) (s.openLoop n) s₁)
    (ihRest : Job.Took p (.goOn f [.loop (s.key (loopName n)) .endless (-1) n none (dropLastContinue body)]
      shape.follow more) s₁ s₂) :
    Job.Took p (.emit f n (.loop (s.key (loopName n)) .endless (-1) n none (dropLastContinue body) :: more)) s
      s₂ := by
  intro unfinished taking
  have opened := Still.looped s n
  obtain ⟨tookInner,taking₁⟩ := ihInner (fun done => by
    rw [State.mark,(openLoopFields s n).1] at done
    exact unfinished done) (taking.still opened)
  obtain ⟨tookRest,taking₂⟩ := ihRest taking₁
  refine ⟨fun k => ?_,taking₂⟩
  rw [← List.singleton_append,deedsAppend,deedsLoop]
  exact ((tookInner k).before opened).trans (tookRest k)

theorem tookCleanup {entry : NodeId} {code : List Stmt} {copy : List Loc} {body more : List Piece}
    (clean : cleanup? p r (ownGroups p r) (guardFollow p s f r) = some (entry,code,copy))
    (ihInner : Job.Took p (.emit (insideGuard f r (guardFollow p s f r)) n body) ((s.openGuard n (guardFollow p
      s f r)).cleaned r entry copy (s.key "")) s₁)
    (ihRest : Job.Took p (.goOn f [.guarded (s.key "") r body [] (some [.stmts .none entry code])] (guardFollow
      p s f r) more) (s₁.release (guardFollow p s f r)) s₂) :
    Job.Took p (.emit f n (.guarded (s.key "") r body [] (some [.stmts .none entry code]) :: more)) s s₂ := by
  intro unfinished taking
  obtain ⟨out,-,cleans,-⟩ := cleansOf clean
  have guarding := Still.guarding s n (guardFollow p s f r)
  have marks : ∀ m, (s.openGuard n (guardFollow p s f r)).mark m = s.mark m := fun m => by
    rw [State.mark,State.mark,(openGuardFields s n (guardFollow p s f r)).1]
  obtain ⟨tookInner,taking₁⟩ := ihInner (fun done => by
    rw [State.cleaned,State.markSetMark] at done
    split at done
    · rename_i here
      exact here ▸ cleans.kind
    · rw [State.mark,(State.placeFields _ entry _).1] at done
      exact unfinished ((marks n).symm.trans done)) ((taking.still guarding).cleaned cleans)
  obtain ⟨tookRest,taking₂⟩ := ihRest (taking₁.still (.released ..))
  refine ⟨fun k => ?_,taking₂⟩
  rw [← List.singleton_append,deedsAppend,deedsGuarded,deedsCatches,List.append_nil,← List.singleton_append]
  have begun : Took p (s.openGuard n (guardFollow p s f r))
      [(k,.guard (cover r [] (some [Tree.stmts Key.none entry code])))]
      ((s.openGuard n (guardFollow p s f r)).cleaned r entry copy (s.key "")) :=
    Took.cleaned clean fun out follow => by
      rw [marks]
      simpa using (Bool.and_eq_true_iff.mp (List.mem_filter.mp (LoopShape.earliestMem follow)).2).2
  have around := ((begun.before guarding).trans
    (tookInner (cover r [] (some [Tree.stmts Key.none entry code]) :: k))).after (.released s₁ (guardFollow p s f r))
  exact around.trans (tookRest k)

theorem tookCatches {heads : List CatchHead} {body more : List Piece} {bodies : List (List Piece)} {s₃ : State}
    (clauses : (openClauses p.graph (ownGroups p r)).from (s.openGuard n (guardFollow p s f r)) = (heads,s₀))
    (ihInner : Job.Took p (.emit (insideGuard f r (guardFollow p s f r)) n body) (s₀.openRegion r (.catches
      heads)) s₁)
    (handlers : Writes p (.each (heads.map fun h => (outsideGuard f (guardFollow p s f r),h.node)) bodies) s₁ s₂)
    (ihHandlers : Job.Took p (.each (heads.map fun h => (outsideGuard f (guardFollow p s f r),h.node)) bodies)
      s₁ s₂)
    (ihRest : Job.Took p (.goOn f [.guarded (s.key "") r body (heads.zip bodies) none] (guardFollow p s f r)
      more) (s₂.release (guardFollow p s f r)) s₃) :
    Job.Took p (.emit f n (.guarded (s.key "") r body (heads.zip bodies) none :: more)) s s₃ := by
  intro unfinished taking
  have guarding := Still.guarding s n (guardFollow p s f r)
  have regions := (openClausesFits p.graph (ownGroups p r) (s.openGuard n (guardFollow p s f r))).2
  have marks := (openClausesFields p.graph (ownGroups p r) (s.openGuard n (guardFollow p s f r))).1
  rw [clauses] at regions marks
  have taking₀ : Taking p s₀ := fun q entry found => taking q entry (by
    rwa [← guarding.regions,← regions])
  obtain ⟨tookInner,taking₁⟩ := ihInner (fun done => unfinished (by
    rwa [State.mark,show (s₀.openRegion r (.catches heads)).marks = s.marks from
      marks.trans (openGuardFields s n _).1] at done)) (taking₀.opened fun _ same => by cases same)
  obtain ⟨tookHandlers,taking₂⟩ := ihHandlers taking₁
  obtain ⟨tookRest,taking₃⟩ := ihRest (taking₂.still (.released ..))
  have same : bodies.length = heads.length := by rw [bodiesLength handlers,List.length_map]
  refine ⟨fun k => ?_,taking₃⟩
  rw [← List.singleton_append,deedsAppend,deedsGuarded,deedsZipCatches _ _ same,← List.singleton_append]
  have begun := (Took.clauses (k := k) handlers.original clauses).before guarding
  have body := begun.trans (tookInner (cover r (heads.zip bodies) none :: k)).opened
  have around := (body.trans (tookHandlers k)).after (.released s₂ (guardFollow p s f r))
  exact around.trans (tookRest k)

theorem tookAgain {c : Clauses} {catches : List (CatchHead × List Piece)} {body more : List Piece}
    (known : s.regions.get? r = some c)
    (clauses : (repeatClauses p.graph c).from (s.openGuard n (followOfRegion p s f r [])) = (catches,s₀))
    (ihInner : Job.Took p (.emit (insideGuard f r (followOfRegion p s f r [])) n body) s₀ s₁)
    (ihRest : Job.Took p (.goOn f [.guarded (s.key "") r body catches none] (followOfRegion p s f r []) more)
      (s₁.release (followOfRegion p s f r [])) s₂) :
    Job.Took p (.emit f n (.guarded (s.key "") r body catches none :: more)) s s₂ := by
  intro unfinished taking
  have guarding := Still.guarding s n (followOfRegion p s f r [])
  have again := Still.again p.graph c (s.openGuard n (followOfRegion p s f r []))
  have marks := repeatClausesMarks p.graph c (s.openGuard n (followOfRegion p s f r []))
  rw [clauses] at again marks
  obtain ⟨tookInner,taking₁⟩ := ihInner (fun done => unfinished (by
    rwa [State.mark,marks,(openGuardFields s n _).1] at done)) ((taking.still guarding).still again)
  obtain ⟨tookRest,taking₂⟩ := ihRest (taking₁.still (.released ..))
  refine ⟨fun k => ?_,taking₂⟩
  have empty := deedsRepeatClauses (k := k) p.graph c (s.openGuard n (followOfRegion p s f r []))
  rw [clauses] at empty
  rw [← List.singleton_append,deedsAppend,deedsGuarded,empty,List.append_nil,← List.singleton_append]
  have begun := (Took.again (k := k) (taking.still guarding) (guarding.regions ▸ known) clauses).before guarding
  have around := (begun.trans (tookInner (cover r catches none :: k))).after (.released s₁ (followOfRegion p s f r []))
  exact around.trans (tookRest k)

theorem Writes.took {job : Job} (shaped : p.graph.Shaped) (tested : Tested p)
    (writes : Writes p job s s') : job.Took p s s' := by
  have idle : ∀ {s s' : State} {out : List Piece}, (∀ k, deedsAll k out = []) → Still s s' → Taking p s →
      (∀ k, Took p s (deedsAll k out) s') ∧ Taking p s' := fun none still taking =>
    ⟨fun k => (none k).symm ▸ .quiet still,taking.still still⟩
  have met : ∀ {f t} {s : State}, route p s f t = .inline → s.mark t = .finished →
      (p.graph.node t).kind = .throw := fun way done => by
    rw [routeInline way] at done
    contradiction
  induction writes with
  | nowhere => exact idle (fun _ => rfl) (.refl _)
  | inline way rest ih => exact ih (met way)
  | falls way => exact idle (fun _ => rfl) (.refl _)
  | breaks way => exact idle (fun _ => rfl) (.named ..)
  | continues way => exact idle (fun _ => rfl) (.named ..)
  | jumps way => exact idle (fun _ => rfl) (.jumped ..)
  | nothing => exact idle (fun _ => rfl) (.refl _)
  | each first rest ihFirst ihRest =>
    intro taking
    obtain ⟨took,taking₁⟩ := ihFirst taking
    obtain ⟨tookRest,taking₂⟩ := ihRest taking₁
    refine ⟨fun k => ?_,taking₂⟩
    rw [List.flatten_cons,deedsAppend]
    exact (took k).trans (tookRest k)
  | ends => exact idle (fun _ => rfl) (.refl _)
  | never jump way => exact idle (fun _ => rfl) (.refl _)
  | behind jump way rest ih => exact ih (met way)
  | on passes rest ih => exact ih
  | last bare noBranch noSwitch alone =>
    exact fun _ taking => ⟨fun _ => .statement ..,taking.still (.statement ..)⟩
  | @plain f n t out s s' bare kind succ rest ih =>
    intro _ taking
    obtain ⟨took,taking₁⟩ := ih (taking.still (.statement ..))
    exact ⟨fun k => (Took.statement s n).trans (took k),taking₁⟩
  | branch bare kind sides start left right rest ihLeft ihRight ihRest =>
    exact tookBranch shaped kind sides start ihLeft ihRight rest ihRest
  | switch bare kind start arms rest ihArms ihRest => exact tookSwitch shaped kind start arms ihArms rest ihRest
  | pretest outside starts settled kind inner rest ihInner ihRest =>
    exact tookPretest tested starts settled kind ihInner ihRest
  | posttest outside starts settled kind test inner rest ihInner ihRest =>
    exact tookPosttest tested starts settled kind test ihInner ihRest
  | endless outside starts settled kind test inner rest ihInner ihRest => exact tookEndless ihInner ihRest
  | cleanup outside first clean inner rest ihInner ihRest => exact tookCleanup clean ihInner ihRest
  | catches outside first noCleanup clauses inner handlers rest ihInner ihHandlers ihRest =>
    exact tookCatches clauses ihInner handlers ihHandlers ihRest
  | again outside known clauses inner rest ihInner ihRest => exact tookAgain known clauses ihInner ihRest

theorem remainsTook {ns : List NodeId} {out : List Piece} (shaped : p.graph.Shaped) (tested : Tested p)
    (remains : Remains p ns out s s') (taking : Taking p s) : Took p s (deedsAll k out) s' := by
  induction remains with
  | none => exact .quiet (.refl _)
  | met met rest ih => exact ih taking
  | @more n ns out outs s s₁ s₂ free here rest ih =>
    have wanted : Still s (s.want n) := .same rfl rfl rfl
    obtain ⟨took,taking₁⟩ := here.took shaped tested (fun done => nomatch free.symm.trans done)
      (taking.still wanted)
    rw [deedsAppend]
    exact ((took k).before wanted).trans (ih taking₁)

theorem draftTook {entry : NodeId} {w : Draft} (shaped : p.graph.Shaped) (tested : Tested p)
    (drafted : Drafted p entry w) : Took p {} (deedsAll k w.body) w.state := by
  obtain ⟨out,rest,s,here,remains,body⟩ := drafted
  obtain ⟨took,taking⟩ := here.took shaped tested nofun fun r c found => nomatch found
  rw [body,deedsAppend]
  exact (took k).trans (remainsTook shaped tested remains taking)

end Recovery

end RegCode
