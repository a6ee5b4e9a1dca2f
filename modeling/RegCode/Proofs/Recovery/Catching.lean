import RegCode.Proofs.Recovery.Labels
import RegCode.Proofs.Recovery.Skipping

/-! Where the exception of a handler is put in its variable. The handler does so with its first statement. The
head of a clause does it instead when the clause is opened before the handler is met, and then the statement is
left out where the handler is written, whichever clause leads there. -/
namespace RegCode

namespace Tree

variable {α : Type}

structure Watch (α : Type) where
  region : RegionId
  catches : List (CatchHead × List (Tree α))
  cleanup : Option (List (Tree α))

mutual

def watches : Tree α → List (Watch α)
  | block _ body => watchesAll body
  | branch _ _ _ t none => watchesAll t
  | branch _ _ _ t (some e) => watchesAll t ++ watchesAll e
  | loop _ _ _ _ _ body => watchesAll body
  | switch _ _ _ arms => watchesArms arms
  | guarded _ r body cs z => ⟨r,cs,z⟩ :: (watchesAll body ++ watchesCatches cs)
  | stmts _ _ _ | goto _ _ | breakTo _ _ | continueTo _ _ => []

def watchesAll : List (Tree α) → List (Watch α)
  | [] => []
  | t :: ts => t.watches ++ watchesAll ts

def watchesArms : List (ArmHead × List (Tree α)) → List (Watch α)
  | [] => []
  | (_,body) :: rest => watchesAll body ++ watchesArms rest

def watchesCatches : List (CatchHead × List (Tree α)) → List (Watch α)
  | [] => []
  | (_,body) :: rest => watchesAll body ++ watchesCatches rest

end

mutual

def begins : Tree α → Option Int
  | block _ body => beginsAll body
  | stmts _ n _ | branch _ n _ _ _ | switch _ n _ _ | loop _ _ _ n _ _ => some n
  | guarded _ _ body _ _ => beginsAll body
  | goto _ _ | breakTo _ _ | continueTo _ _ => none

def beginsAll : List (Tree α) → Option Int
  | [] => none
  | t :: _ => t.begins

end

theorem watchesAppend (xs ys : List (Tree α)) :
    watchesAll (xs ++ ys) = watchesAll xs ++ watchesAll ys := by
  induction xs with
  | nil => rfl
  | cons x xs ih => rw [List.cons_append,watchesAll,watchesAll,ih,List.append_assoc]

theorem watchesZipArms (heads : List ArmHead) (bodies : List (List (Tree α)))
    (same : bodies.length = heads.length) :
    watchesArms (heads.zip bodies) = watchesAll bodies.flatten := by
  induction heads generalizing bodies with
  | nil => rw [List.eq_nil_of_length_eq_zero same]; rfl
  | cons h heads ih =>
    cases bodies with
    | nil => contradiction
    | cons b bodies =>
      rw [List.zip_cons_cons,watchesArms,ih bodies (Nat.succ.inj same),List.flatten_cons,watchesAppend]

theorem watchesZipCatches (heads : List CatchHead) (bodies : List (List (Tree α)))
    (same : bodies.length = heads.length) :
    watchesCatches (heads.zip bodies) = watchesAll bodies.flatten := by
  induction heads generalizing bodies with
  | nil => rw [List.eq_nil_of_length_eq_zero same]; rfl
  | cons h heads ih =>
    cases bodies with
    | nil => contradiction
    | cons b bodies =>
      rw [List.zip_cons_cons,watchesCatches,ih bodies (Nat.succ.inj same),List.flatten_cons,watchesAppend]

/-! ### Protected code is begun in the tree -/

def Begins (ds : List (List Cover × Deed)) (r : RegionId) : Prop := ∃ k c, (k,.guard c) ∈ ds ∧ c.region = r

theorem Begins.more {ds es : List (List Cover × Deed)} {r : RegionId} (begun : Begins ds r)
    (more : ∀ x ∈ ds, x ∈ es) : Begins es r := by
  obtain ⟨k,c,member,region⟩ := begun
  exact ⟨k,c,more _ member,region⟩

mutual

theorem watchBegins (k : List Cover) : ∀ t : Tree α, ∀ x ∈ t.watches, Begins (t.deeds k) x.region
  | block _ body => watchBeginsAll k body
  | branch _ _ _ t none => fun x member =>
    (watchBeginsAll k t x member).more fun _ => List.mem_cons_of_mem _
  | branch _ _ _ t (some e) => fun x member => (List.mem_append.mp member).elim
    (fun inside => (watchBeginsAll k t x inside).more fun _ here =>
      List.mem_append_left _ (List.mem_cons_of_mem _ here))
    fun inside => (watchBeginsAll k e x inside).more fun _ => List.mem_append_right _
  | loop _ _ _ _ _ body => fun x member =>
    (watchBeginsAll k body x member).more fun _ => List.mem_append_right _
  | switch _ _ _ arms => fun x member =>
    (watchBeginsArms k arms x member).more fun _ => List.mem_cons_of_mem _
  | guarded _ r body cs z => fun x member => by
    rw [watches] at member
    rcases List.mem_cons.mp member with rfl | member
    · exact ⟨k,cover r cs z,List.mem_append_left _ (List.mem_cons_self ..),rfl⟩
    · rcases List.mem_append.mp member with inside | inside
      · exact (watchBeginsAll _ body x inside).more fun _ here =>
          List.mem_append_left _ (List.mem_cons_of_mem _ here)
      · exact (watchBeginsCatches k cs x inside).more fun _ => List.mem_append_right _
  | stmts _ _ _ | goto _ _ | breakTo _ _ | continueTo _ _ => fun _ member => absurd member List.not_mem_nil

theorem watchBeginsAll (k : List Cover) : ∀ ts : List (Tree α), ∀ x ∈ watchesAll ts,
    Begins (deedsAll k ts) x.region
  | [] => fun _ member => absurd member List.not_mem_nil
  | t :: ts => fun x member => (List.mem_append.mp member).elim
    (fun inside => (watchBegins k t x inside).more fun _ => List.mem_append_left _)
    fun inside => (watchBeginsAll k ts x inside).more fun _ => List.mem_append_right _

theorem watchBeginsArms (k : List Cover) : ∀ arms : List (ArmHead × List (Tree α)), ∀ x ∈ watchesArms arms,
    Begins (deedsArms k arms) x.region
  | [] => fun _ member => absurd member List.not_mem_nil
  | (_,body) :: rest => fun x member => (List.mem_append.mp member).elim
    (fun inside => (watchBeginsAll k body x inside).more fun _ => List.mem_append_left _)
    fun inside => (watchBeginsArms k rest x inside).more fun _ => List.mem_append_right _

theorem watchBeginsCatches (k : List Cover) : ∀ cs : List (CatchHead × List (Tree α)),
    ∀ x ∈ watchesCatches cs, Begins (deedsCatches k cs) x.region
  | [] => fun _ member => absurd member List.not_mem_nil
  | (_,body) :: rest => fun x member => (List.mem_append.mp member).elim
    (fun inside => (watchBeginsAll k body x inside).more fun _ => List.mem_append_left _)
    fun inside => (watchBeginsCatches k rest x inside).more fun _ => List.mem_append_right _

end

end Tree

namespace Recovery

open RegCode.Tree

variable {p : Plan} {f : Frame} {n : NodeId} {s s₀ s₁ s₂ s' : State} {r : RegionId} {l : Loc} {v : VarId}

theorem Skips.home {g : Graph} {d : Dominators} {policy : Policy} {ds : List (List Cover × Deed)} {u : NodeId}
    (readied : g.Readied) (guards : Guards (Plan.ofGraph g d policy) ds)
    (skips : Skips (Plan.ofGraph g d policy) ds u l) (member : n ∈ g.rpo) (inside : l ∈ g.locsAt n) : u = n := by
  obtain ⟨k,c,guard,why⟩ := skips
  have there : u ∈ g.rpo ∧ l ∈ g.locsAt u := by
    rcases why with ⟨⟨a,group,rfl⟩,v,caught⟩ | ⟨exits,spared⟩
    · obtain ⟨m,here,around⟩ := guards k c guard
      obtain ⟨h,own,entry⟩ := groupEntries group
      obtain ⟨first,rest,stmts,-,loc⟩ := caughtReceives caught
      refine ⟨entry ▸ readied.handlers here around h own,?_⟩
      exact List.mem_map.mpr ⟨first,stmts ▸ List.mem_cons_self ..,loc⟩
    · refine ⟨?_,(List.take_sublist _ _).map _ |>.subset spared⟩
      obtain ⟨m,here,out⟩ := exitOf (exits ▸ List.mem_singleton_self u)
      exact (readied.edged.succs m here u out).1
  exact readied.spaced.node (readied.rpo ▸ there.1) (readied.rpo ▸ member) there.2 inside

/-! ### What constructs make of protected code -/

theorem watchesDropLast {ps : List Piece} {j : Piece} (last : ps.getLast? = some j) (none : j.watches = []) :
    watchesAll ps.dropLast = watchesAll ps := by
  obtain ⟨front,rfl⟩ := List.getLast?_eq_some_iff.mp last
  rw [List.dropLast_concat,watchesAppend,watchesAll,none]
  exact (List.append_nil _).symm

theorem watchesLoop (key : Key) (kind : LoopKind) (test header : Int) (cond : Option Test) (body : List Piece) :
    watchesAll [.loop key kind test header cond (dropLastContinue body)] = watchesAll body := by
  have dropped : watchesAll (dropLastContinue body) = watchesAll body := by
    unfold dropLastContinue
    split
    · rename_i last
      exact watchesDropLast last rfl
    · rfl
  rw [watchesAll,watches,dropped]
  exact List.append_nil _

theorem watchesDropBreak (arms : List (ArmHead × List Piece)) :
    watchesArms (dropLastBreak arms) = watchesArms arms := by
  induction arms with
  | nil => rfl
  | cons a arms ih =>
    obtain ⟨h,body⟩ := a
    cases arms with
    | nil =>
      unfold dropLastBreak
      split
      · rename_i last
        rw [watchesArms,watchesDropLast last rfl]
        rfl
      · rfl
    | cons b arms =>
      rw [dropLastBreak,watchesArms,watchesArms,ih]
      simp

theorem watchesSwitch {bodies : List (List Piece)} (arms : Writes p (.each (switchJobs p f n s) bodies) s₁ s₂)
    (key : Key) (value : Option Expr) :
    watchesAll [Tree.switch key n value (writtenArms p f n bodies)] = watchesAll bodies.flatten := by
  have same : bodies.length = ((switchArms p f n).map (·.head)).length := by
    rw [bodiesLength arms,switchJobs,armJobsLength,List.length_map]
  rw [watchesAll,watches,writtenArms,watchesDropBreak,watchesZipArms _ _ same]
  exact List.append_nil _

theorem watchesBranch (key : Key) (n : NodeId) (cond : Test) (meets : Bool) (onTrue onFalse : List Piece) :
    watchesAll (branchPieces key n cond meets onTrue onFalse) = watchesAll onTrue ++ watchesAll onFalse := by
  unfold branchPieces
  split
  · rename_i empty
    rw [List.isEmpty_iff.mp empty]
    simp [watchesAll,watches]
  · split
    · rename_i empty
      rw [List.isEmpty_iff.mp empty]
      simp [watchesAll,watches]
    · split <;> simp [watchesAll,watches]

theorem watchesGuarded (key : Key) (r : RegionId) (body : List Piece) (cs : List (CatchHead × List Piece))
    (z : Option (List Piece)) : watchesAll [.guarded key r body cs z] =
      ⟨r,cs,z⟩ :: (watchesAll body ++ watchesCatches cs) := by
  rw [watchesAll,watches]
  exact List.append_nil _

theorem watchesRepeatClauses (g : Graph) (c : Clauses) (s : State) :
    watchesCatches ((repeatClauses g c).from s).1 = [] := by
  cases c with
  | cleanup entry => rfl
  | catches heads =>
    show watchesCatches ((jumpClauses heads).from s).1 = []
    induction heads generalizing s with
    | nil => rfl
    | cons h heads ih =>
      have piece : (s.goto h.node).1 = .goto (.aim h.node) (s.labelOf h.node).1 := rfl
      simp only [jumpClauses,fromBind,fromPure,fromModifyGet,piece,watchesCatches,watchesAll,watches,ih,
        List.append_nil]

/-! ### Where clauses lead -/

/-- Code that comes to a node: it starts with the node, jumps to it, or is left where the node comes next. -/
inductive Enters (n : NodeId) : List Piece → Prop
  | here {body : List Piece} (begins : beginsAll body = some (n : Int)) : Enters n body
  | jumps (text : String) : Enters n [.goto (.aim n) text]
  | breaks (text : String) : Enters n [.breakTo .none text]
  | continues (text : String) : Enters n [.continueTo .none text]
  | falls : Enters n []

theorem branchBegins (key : Key) (n : NodeId) (cond : Test) (meets : Bool) (onTrue onFalse more : List Piece) :
    beginsAll (branchPieces key n cond meets onTrue onFalse ++ more) = some (n : Int) := by
  unfold branchPieces
  repeat' split
  all_goals rfl

theorem leadForm {ss : List Stmt} {lead : List Piece} (start : s.lead n ss = (lead,s₀)) :
    lead = [] ∧ s₀ = s ∨ lead = [(s.statement n ss.dropLast).1] ∧ s₀ = (s.statement n ss.dropLast).2 := by
  unfold State.lead at start
  split at start <;> cases start
  · exact .inl ⟨rfl,rfl⟩
  · exact .inr ⟨rfl,rfl⟩

theorem Writes.begins {out : List Piece} (writes : Writes p (.emit f n out) s s') :
    beginsAll out = some (n : Int) := by
  generalize same : Job.emit f n out = job at writes
  induction writes generalizing f n out with
  | last | plain | pretest | posttest | endless => cases same; rfl
  | branch bare kind sides start =>
    cases same
    rcases leadForm start with ⟨rfl,rfl⟩ | ⟨rfl,rfl⟩
    · exact branchBegins ..
    · rfl
  | switch bare kind start =>
    cases same
    rcases leadForm start with ⟨rfl,rfl⟩ | ⟨rfl,rfl⟩ <;> rfl
  | cleanup outside first clean inner rest ihInner =>
    cases same
    have inside : beginsAll _ = some _ := ihInner rfl
    exact inside
  | catches outside first noCleanup clauses inner handlers rest ihInner =>
    cases same
    have inside : beginsAll _ = some _ := ihInner rfl
    exact inside
  | again outside known clauses inner rest ihInner =>
    cases same
    have inside : beginsAll _ = some _ := ihInner rfl
    exact inside
  | _ => cases same

theorem Writes.entersEach {jobs : List (Frame × NodeId)} {bodies : List (List Piece)}
    (writes : Writes p (.each jobs bodies) s s') : List.Forall₂ (fun j body => Enters j.2 body) jobs bodies := by
  generalize same : Job.each jobs bodies = job at writes
  induction writes generalizing jobs bodies with
  | nothing => cases same; exact .nil
  | each first rest ihFirst ihRest =>
    cases same
    refine .cons ?_ (ihRest rfl)
    cases first with
    | inline way rest => exact .here rest.begins
    | falls way => exact .falls
    | breaks way => exact .breaks _
    | continues way => exact .continues _
    | jumps way => exact .jumps _
  | _ => cases same

theorem Writes.entersHeads {heads : List CatchHead} {bodies : List (List Piece)} {f' : Frame}
    (writes : Writes p (.each (heads.map fun h => (f',h.node)) bodies) s s') :
    ∀ c ∈ heads.zip bodies, Enters c.1.node c.2 :=
  fun _ member => (List.forall₂_iff_zip.mp (List.forall₂_map_left_iff.mp writes.entersEach)).2 member

theorem jumpClausesEnter (heads : List CatchHead) (s : State) :
    ((jumpClauses heads).from s).1.map Prod.fst = heads ∧
      ∀ c ∈ ((jumpClauses heads).from s).1, Enters c.1.node c.2 := by
  induction heads generalizing s with
  | nil => exact ⟨rfl,fun _ member => absurd member List.not_mem_nil⟩
  | cons h heads ih =>
    obtain ⟨same,enters⟩ := ih (s.goto h.node).2
    simp only [jumpClauses,fromBind,fromPure,fromModifyGet,List.map_cons,same]
    exact ⟨trivial,List.forall_mem_cons.mpr ⟨.jumps _,enters⟩⟩

def copiedClause (g : Graph) (entry : NodeId) : CatchHead × List Piece :=
  (⟨[anyThrown],(caught? g entry).map Prod.fst,entry⟩,[.stmts .none (-1) ((g.node entry).stmts.drop 1)])

inductive Clauses.Stand (p : Plan) : Clauses → Watch Key → Prop
  | catches {r cs} (enters : ∀ c ∈ cs, Enters c.1.node c.2) : Stand p (.catches (cs.map Prod.fst)) ⟨r,cs,none⟩
  | cleanup {r entry z} : Stand p (.cleanup entry) ⟨r,[],some z⟩
  | copied {r entry} : Stand p (.cleanup entry) ⟨r,[copiedClause p.graph entry],none⟩

theorem repeatClausesStand (c : Clauses) (s : State) :
    c.Stand p ⟨r,((repeatClauses p.graph c).from s).1,none⟩ := by
  cases c with
  | cleanup entry => exact .copied
  | catches heads =>
    obtain ⟨same,enters⟩ := jumpClausesEnter heads s
    have stand := Clauses.Stand.catches (p := p) (r := r) enters
    rwa [same] at stand

/-! ### What is left out for clauses -/

def Clauses.Spares (p : Plan) (r : RegionId) (l : Loc) : Clauses → Prop
  | .catches heads => ∃ h ∈ heads, ∃ v, h.var = some v ∧ caught? p.graph h.node = some (v,l)
  | .cleanup _ => ∃ out, p.regionExits r = [out] ∧ l ∈ p.graph.locsAt out

structure Booked (p : Plan) (s : State) : Prop where
  nodes : ∀ r heads, s.regions.get? r = some (.catches heads) →
    heads.map (·.node) = (ownGroups p r).map (·.entry)
  heads : ∀ r heads, s.regions.get? r = some (.catches heads) → ∀ h ∈ heads, ∀ v l,
    caught? p.graph h.node = some (v,l) → h.var = none ∨ h.var = some v ∧ l ∈ s.skipped
  cleanup : ∀ r entry, s.regions.get? r = some (.cleanup entry) → ∃ out, p.regionExits r = [out] ∧
    ∀ v l, caught? p.graph out = some (v,l) → l ∈ s.skipped
  source : ∀ l ∈ s.skipped, ∃ r c, s.regions.get? r = some c ∧ c.Spares p r l

/-- Two states know the same of regions and leave out the same. -/
def Level (s s' : State) : Prop := s'.skipped = s.skipped ∧ s'.regions = s.regions

theorem Still.level (still : Still s s') : Level s s' := ⟨still.skipped,still.regions⟩

theorem Level.trans (first : Level s s₁) (second : Level s₁ s') : Level s s' :=
  ⟨second.1.trans first.1,second.2.trans first.2⟩

theorem levelEntered {own : String} {follow : Option NodeId} : Level s (s.enter n own follow) :=
  (Still.begun s n (s.key own)).level.trans ⟨rfl,rfl⟩

theorem Booked.level (booked : Booked p s) (level : Level s s') : Booked p s' := by
  obtain ⟨skipped,regions⟩ := level
  refine ⟨?_,?_,?_,?_⟩ <;> rw [regions] <;> try rw [skipped]
  · exact booked.nodes
  · exact booked.heads
  · exact booked.cleanup
  · exact booked.source

structure Books (p : Plan) (s : State) (xs : List (Watch Key)) (s' : State) : Prop where
  keeps : ∀ r c, s.regions.get? r = some c → s'.regions.get? r = some c
  stands : ∀ x ∈ xs, ∃ c, s'.regions.get? x.region = some c ∧ c.Stand p x
  origin : ∀ r c, s'.regions.get? r = some c → s.regions.get? r = some c ∨
    ∃ x ∈ xs, x.region = r ∧ ∀ entry, c = .cleanup entry → x.cleanup ≠ none

namespace Books

variable {xs ys : List (Watch Key)}

theorem quiet (level : Level s s') : Books p s [] s' :=
  ⟨fun _ _ here => level.2 ▸ here,fun _ member => absurd member List.not_mem_nil,
    fun _ _ here => .inl (level.2 ▸ here)⟩

theorem trans (first : Books p s xs s₁) (second : Books p s₁ ys s') : Books p s (xs ++ ys) s' := by
  refine ⟨fun r c here => second.keeps r c (first.keeps r c here),fun x member => ?_,fun r c here => ?_⟩
  · rcases List.mem_append.mp member with before | after
    · obtain ⟨c,known,stand⟩ := first.stands x before
      exact ⟨c,second.keeps x.region c known,stand⟩
    · exact second.stands x after
  · rcases second.origin r c here with before | ⟨x,member,why⟩
    · exact (first.origin r c before).imp_right fun ⟨x,member,why⟩ =>
        ⟨x,List.mem_append_left _ member,why⟩
    · exact .inr ⟨x,List.mem_append_right _ member,why⟩

theorem before (books : Books p s₁ xs s') (level : Level s s₁) : Books p s xs s' :=
  List.nil_append xs ▸ (quiet level).trans books

theorem after (books : Books p s xs s₁) (level : Level s₁ s') : Books p s xs s' :=
  List.append_nil xs ▸ books.trans (quiet level)

theorem opened {x : Watch Key} {c : Clauses} (first : s.regions.get? x.region = none)
    (regions : s'.regions = (s.openRegion x.region c).regions) (stand : c.Stand p x)
    (clean : ∀ entry, c = .cleanup entry → x.cleanup ≠ none) : Books p s [x] s' := by
  refine ⟨fun q d known => ?_,fun y member => ?_,fun q d known => ?_⟩
  · rw [regions,State.openRegion,Table.get?_insert]
    split
    · rename_i here
      rw [beq_iff_eq.mp here,first] at known
      contradiction
    · exact known
  · cases List.mem_singleton.mp member
    refine ⟨c,?_,stand⟩
    rw [regions,State.openRegion,Table.get?_insert,if_pos (beq_self_eq_true _)]
  · rw [regions,State.openRegion,Table.get?_insert] at known
    split at known
    · rename_i here
      cases Option.some.inj known
      exact .inr ⟨x,List.mem_singleton_self x,(beq_iff_eq.mp here).symm,clean⟩
    · exact .inl known

theorem again {x : Watch Key} {c : Clauses} (known : s.regions.get? x.region = some c) (stand : c.Stand p x)
    (level : Level s s') : Books p s [x] s' :=
  ⟨fun _ _ here => level.2 ▸ here,fun y member => by
    cases List.mem_singleton.mp member
    exact ⟨c,level.2 ▸ known,stand⟩,fun _ _ here => .inl (level.2 ▸ here)⟩

end Books

theorem Booked.opened {c : Clauses} (booked : Booked p s) (first : s.regions.get? r = none)
    (regions : s'.regions = (s.openRegion r c).regions) (grows : ∀ l ∈ s.skipped, l ∈ s'.skipped)
    (nodes : ∀ heads, c = .catches heads → heads.map (·.node) = (ownGroups p r).map (·.entry))
    (heads : ∀ heads, c = .catches heads → ∀ h ∈ heads, ∀ v l, caught? p.graph h.node = some (v,l) →
      h.var = none ∨ h.var = some v ∧ l ∈ s'.skipped)
    (cleanup : ∀ entry, c = .cleanup entry → ∃ out, p.regionExits r = [out] ∧
      ∀ v l, caught? p.graph out = some (v,l) → l ∈ s'.skipped)
    (source : ∀ l ∈ s'.skipped, l ∈ s.skipped ∨ c.Spares p r l) : Booked p s' := by
  have known : ∀ q d, s'.regions.get? q = some d → q = r ∧ c = d ∨ s.regions.get? q = some d := by
    intro q d here
    rw [regions,State.openRegion,Table.get?_insert] at here
    split at here
    · rename_i same
      exact .inl ⟨beq_iff_eq.mp same,Option.some.inj here⟩
    · exact .inr here
  refine ⟨fun q hs here => ?_,fun q hs here => ?_,fun q entry here => ?_,fun l inside => ?_⟩
  · rcases known q _ here with ⟨rfl,same⟩ | old
    · exact nodes hs same
    · exact booked.nodes q hs old
  · rcases known q _ here with ⟨rfl,same⟩ | old
    · exact heads hs same
    · exact fun h member v l caught => (booked.heads q hs old h member v l caught).imp_right fun both =>
        ⟨both.1,grows l both.2⟩
  · rcases known q _ here with ⟨rfl,same⟩ | old
    · exact cleanup entry same
    · obtain ⟨out,exits,first⟩ := booked.cleanup q entry old
      exact ⟨out,exits,fun v l caught => grows l (first v l caught)⟩
  · rcases source l inside with before | spares
    · obtain ⟨q,d,here,spares⟩ := booked.source l before
      refine ⟨q,d,?_,spares⟩
      rw [regions,State.openRegion,Table.get?_insert]
      split
      · rename_i same
        rw [beq_iff_eq.mp same,first] at here
        contradiction
      · exact here
    · refine ⟨r,c,?_,spares⟩
      rw [regions,State.openRegion,Table.get?_insert,if_pos (beq_self_eq_true _)]

theorem openClausesBind (g : Graph) (groups : List Group) (s : State) :
    (∀ h ∈ ((openClauses g groups).from s).1, ∀ v l, caught? g h.node = some (v,l) →
      h.var = none ∨ h.var = some v ∧ l ∈ ((openClauses g groups).from s).2.skipped) ∧
    ∀ l ∈ ((openClauses g groups).from s).2.skipped, l ∈ s.skipped ∨
      ∃ h ∈ ((openClauses g groups).from s).1, ∃ v, h.var = some v ∧ caught? g h.node = some (v,l) := by
  induction groups generalizing s with
  | nil => exact ⟨fun _ member => absurd member List.not_mem_nil,fun _ => .inl⟩
  | cons a groups ih =>
    have head : (∀ v l, caught? g ((openClause g a).from s).1.node = some (v,l) →
          ((openClause g a).from s).1.var = none ∨
            ((openClause g a).from s).1.var = some v ∧ l ∈ ((openClause g a).from s).2.skipped) ∧
        ∀ l ∈ ((openClause g a).from s).2.skipped, l ∈ s.skipped ∨
          ∃ v, ((openClause g a).from s).1.var = some v ∧
            caught? g ((openClause g a).from s).1.node = some (v,l) := by
      unfold openClause
      split
      · rename_i v loc caught
        rw [fromBind,fromGet]
        split
        · refine ⟨fun w l same => ?_,fun l inside => ?_⟩
          · obtain ⟨rfl,rfl⟩ := Prod.mk.inj (Option.some.inj (caught.symm.trans same))
            exact .inr ⟨rfl,List.mem_append_right _ (List.mem_singleton_self _)⟩
          · refine (List.mem_append.mp inside).imp_right fun here => ⟨v,rfl,?_⟩
            rw [List.mem_singleton.mp here]
            exact caught
        · exact ⟨fun _ _ _ => .inl rfl,fun _ => .inl⟩
      · exact ⟨fun _ _ _ => .inl rfl,fun _ => .inl⟩
    obtain ⟨binds,source⟩ := head
    obtain ⟨bindsRest,sourceRest⟩ := ih ((openClause g a).from s).2
    have grows := (openClausesSkips g groups ((openClause g a).from s).2).1
    simp only [openClauses,fromBind,fromPure]
    refine ⟨List.forall_mem_cons.mpr ⟨fun v l caught => (binds v l caught).imp_right fun both =>
      ⟨both.1,grows l both.2⟩,bindsRest⟩,fun l inside => ?_⟩
    rcases sourceRest l inside with before | ⟨h,member,bound⟩
    · exact (source l before).imp_right fun bound => ⟨_,List.mem_cons_self ..,bound⟩
    · exact .inr ⟨h,List.mem_cons_of_mem _ member,bound⟩

theorem Booked.clauses {heads : List CatchHead} {bodies : List (List Piece)} (booked : Booked p s)
    (first : s.regions.get? r = none) (same : bodies.length = heads.length)
    (enters : ∀ c ∈ heads.zip bodies, Enters c.1.node c.2)
    (clauses : (openClauses p.graph (ownGroups p r)).from s = (heads,s₀)) :
    Booked p (s₀.openRegion r (.catches heads)) ∧
      Books p s [⟨r,heads.zip bodies,none⟩] (s₀.openRegion r (.catches heads)) := by
  obtain ⟨binds,source⟩ := openClausesBind p.graph (ownGroups p r) s
  obtain ⟨fits,regions⟩ := openClausesFits p.graph (ownGroups p r) s
  have grows := (openClausesSkips p.graph (ownGroups p r) s).1
  rw [clauses] at binds source fits regions grows
  have nodes : heads.map (·.node) = (ownGroups p r).map (·.entry) := by
    have both := congrArg (List.map Prod.snd) fits
    rwa [List.map_map,List.map_map] at both
  have known : (s₀.openRegion r (.catches heads)).regions = (s.openRegion r (.catches heads)).regions := by
    rw [State.openRegion,State.openRegion,regions]
  have zipped : (heads.zip bodies).map Prod.fst = heads := List.map_fst_zip (Nat.le_of_eq same.symm)
  constructor
  · refine booked.opened first known grows ?_ ?_ ?_ fun l inside => source l inside
    all_goals intro _ same; cases same
    · exact nodes
    · exact binds
  · have stand := Clauses.Stand.catches (p := p) (r := r) enters
    rw [zipped] at stand
    exact .opened first known stand fun _ same => by cases same

theorem cleanupSome {follow : Option NodeId} {entry : NodeId} {code : List Stmt} {copy : List Loc}
    {groups : List Group} (clean : cleanup? p r groups follow = some (entry,code,copy)) : code ≠ [] := by
  unfold cleanup? at clean
  split at clean
  · obtain ⟨_,-,fits⟩ := Option.bind_eq_some_iff.mp clean
    dsimp only at fits
    split at fits
    · rename_i all
      simp only [Option.some.injEq,Prod.mk.injEq] at fits
      obtain ⟨-,rfl,-⟩ := fits
      simp only [Bool.and_eq_true,Bool.not_eq_true',List.isEmpty_eq_false_iff] at all
      exact all.1.1.1.2
    · contradiction
  · contradiction

theorem Booked.cleaned {follow : Option NodeId} {entry : NodeId} {code : List Stmt} {copy : List Loc}
    (key : Key) (booked : Booked p s) (first : s.regions.get? r = none)
    (clean : cleanup? p r (ownGroups p r) follow = some (entry,code,copy)) :
    Booked p (s.cleaned r entry copy key) ∧
      Books p s [⟨r,[],some [.stmts .none entry code]⟩] (s.cleaned r entry copy key) := by
  have level : Level ((s.openRegion r (.cleanup entry)).skip copy) (s.cleaned r entry copy key) :=
    (Still.placed _ entry key).level.trans ⟨rfl,rfl⟩
  have skipped : (s.cleaned r entry copy key).skipped = s.skipped ++ copy := level.1
  obtain ⟨out,-,cleans,copied⟩ := cleansOf clean
  refine ⟨booked.opened first level.2 ?_ nofun nofun ?_ ?_,.opened first level.2 .cleanup fun _ _ => nofun⟩
  · exact fun l inside => skipped ▸ List.mem_append_left _ inside
  · rintro _ ⟨⟩
    refine ⟨out,cleans.exits,fun v l caught => ?_⟩
    obtain ⟨one,rest,stmts,-,rfl⟩ := caughtReceives caught
    rw [skipped,copied,stmts]
    refine List.mem_append_right _ (List.mem_map_of_mem ?_)
    rw [List.take_cons (List.length_pos_iff.mpr (cleanupSome clean))]
    exact List.mem_cons_self ..
  · intro l inside
    rw [skipped] at inside
    refine (List.mem_append.mp inside).imp_right fun here => ⟨out,cleans.exits,?_⟩
    rw [copied] at here
    exact ((List.take_sublist _ _).map _).subset here

/-! ### Jobs -/

theorem booksStatement (booked : Booked p s) (n : NodeId) (ss : List Stmt) :
    Booked p (s.statement n ss).2 ∧ Books p s (watchesAll [(s.statement n ss).1]) (s.statement n ss).2 :=
  ⟨booked.level (Still.statement s n ss).level,.quiet (Still.statement s n ss).level⟩

theorem booksLead {ss : List Stmt} {lead : List Piece} (booked : Booked p s)
    (start : s.lead n ss = (lead,s₀)) : Booked p s₀ ∧ Books p s (watchesAll lead) s₀ := by
  rcases leadForm start with ⟨rfl,rfl⟩ | ⟨rfl,rfl⟩
  · exact ⟨booked,.quiet ⟨rfl,rfl⟩⟩
  · exact booksStatement booked n _

theorem booksBranch {cond : Test} {first second : Option NodeId} {lead onTrue onFalse more : List Piece}
    {s₃ : State} (start : s.lead n (p.graph.node n).stmts = (lead,s₀))
    (ihLeft : Booked p (s₀.enter n "" (p.branchFollows.get? n)) → Booked p s₁ ∧ Books p (s₀.enter n ""
      (p.branchFollows.get? n)) (watchesAll (Job.written (.go (sideFrame f (p.branchFollows.get? n)) first
      onTrue))) s₁)
    (ihRight : Booked p s₁ → Booked p s₂ ∧ Books p s₁ (watchesAll (Job.written (.go (sideFrame f
      (p.branchFollows.get? n)) second onFalse))) s₂)
    (ihRest : Booked p (s₂.leave n (p.branchFollows.get? n)) → Booked p s₃ ∧ Books p (s₂.leave n
      (p.branchFollows.get? n)) (watchesAll (Job.written (.goOn f (lead ++ branchPieces (s₀.key "") n cond
      (p.branchFollows.get? n).isSome onTrue onFalse) (p.branchFollows.get? n) more))) s₃) :
    Booked p s → Booked p s₃ ∧ Books p s (watchesAll (Job.written (.emit f n (lead ++ branchPieces (s₀.key "")
      n cond (p.branchFollows.get? n).isSome onTrue onFalse ++ more)))) s₃ := by
  intro booked
  obtain ⟨booked₀,booksLead⟩ := booksLead booked start
  obtain ⟨booked₁,booksLeft⟩ := ihLeft (booked₀.level levelEntered)
  obtain ⟨booked₂,booksRight⟩ := ihRight booked₁
  have leaves := (Still.left s₂ n (p.branchFollows.get? n)).level
  obtain ⟨booked₃,booksRest⟩ := ihRest (booked₂.level leaves)
  refine ⟨booked₃,?_⟩
  rw [Job.written,watchesAppend,watchesAppend,watchesBranch]
  have sides := ((booksLeft.before levelEntered).trans booksRight).after leaves
  exact (booksLead.trans sides).trans booksRest

theorem booksSwitch {lead more : List Piece} {bodies : List (List Piece)}
    (start : s.lead n (p.graph.node n).stmts = (lead,s₀))
    (arms : Writes p (.each (switchJobs p f n s₀) bodies) (s₀.enter n (switchName n) (switchFollow p f n)) s₁)
    (ihArms : Booked p (s₀.enter n (switchName n) (switchFollow p f n)) → Booked p s₁ ∧ Books p (s₀.enter n
      (switchName n) (switchFollow p f n)) (watchesAll (Job.written (.each (switchJobs p f n s₀) bodies))) s₁)
    (ihRest : Booked p (s₁.leave n (switchFollow p f n)) → Booked p s₂ ∧ Books p (s₁.leave n (switchFollow p f
      n)) (watchesAll (Job.written (.goOn f (lead ++ [.switch (s₀.key (switchName n)) n (switchValue
      (p.graph.node n)) (writtenArms p f n bodies)]) (switchFollow p f n) more))) s₂) :
    Booked p s → Booked p s₂ ∧ Books p s (watchesAll (Job.written (.emit f n (lead ++ [.switch (s₀.key
      (switchName n)) n (switchValue (p.graph.node n)) (writtenArms p f n bodies)] ++ more)))) s₂ := by
  intro booked
  obtain ⟨booked₀,booksLead⟩ := booksLead booked start
  obtain ⟨booked₁,booksArms⟩ := ihArms (booked₀.level levelEntered)
  have leaves := (Still.left s₁ n (switchFollow p f n)).level
  obtain ⟨booked₂,booksRest⟩ := ihRest (booked₁.level leaves)
  refine ⟨booked₂,?_⟩
  rw [Job.written,watchesAppend,watchesAppend,watchesSwitch arms]
  exact (booksLead.trans ((booksArms.before levelEntered).after leaves)).trans booksRest

theorem booksPretest {shape : LoopShape} {body more : List Piece}
    (ihInner : Booked p ((s.openLoop n).setMark n .entered) → Booked p s₁ ∧ Books p ((s.openLoop n).setMark n
      .entered) (watchesAll (Job.written (.go { scopes := loopScopes f shape n s, stop := some n } (some
      shape.start) body))) s₁)
    (ihRest : Booked p (s₁.setMark n .finished) → Booked p s₂ ∧ Books p (s₁.setMark n .finished) (watchesAll
      (Job.written (.goOn f [.loop (s.key (loopName n)) .pretest n n (some (loopTest p.graph n shape.start))
      (dropLastContinue body)] shape.follow more))) s₂) :
    Booked p s → Booked p s₂ ∧ Books p s (watchesAll (Job.written (.emit f n (.loop (s.key (loopName n))
      .pretest n n (some (loopTest p.graph n shape.start)) (dropLastContinue body) :: more)))) s₂ := by
  intro booked
  have opened : Level s ((s.openLoop n).setMark n .entered) := (Still.looped s n).level.trans ⟨rfl,rfl⟩
  have closed := (Still.finished s₁ n).level
  obtain ⟨booked₁,books⟩ := ihInner (booked.level opened)
  obtain ⟨booked₂,booksRest⟩ := ihRest (booked₁.level closed)
  refine ⟨booked₂,?_⟩
  rw [Job.written,← List.singleton_append,watchesAppend,watchesLoop]
  exact ((books.before opened).after closed).trans booksRest

theorem booksPosttest {shape : LoopShape} {latch : NodeId} {body more : List Piece}
    (ihInner : Booked p (((s.openLoop n).place latch (s.key (loopName n))).setMark latch .entered) → Booked p
      s₁ ∧ Books p (((s.openLoop n).place latch (s.key (loopName n))).setMark latch .entered) (watchesAll
      (Job.written (.emit { scopes := loopScopes f shape n s, stop := some latch } n body))) s₁)
    (ihRest : Booked p (s₁.setMark latch .finished) → Booked p s₂ ∧ Books p (s₁.setMark latch .finished)
      (watchesAll (Job.written (.goOn f [.loop (s.key (loopName n)) .posttest latch n (some (loopTest p.graph
      latch n)) (dropLastContinue body)] shape.follow more))) s₂) :
    Booked p s → Booked p s₂ ∧ Books p s (watchesAll (Job.written (.emit f n (.loop (s.key (loopName n))
      .posttest latch n (some (loopTest p.graph latch n)) (dropLastContinue body) :: more)))) s₂ := by
  intro booked
  have placed := (Still.looped s n).trans (.placed (s.openLoop n) latch (s.key (loopName n)))
  have opened : Level s (((s.openLoop n).place latch (s.key (loopName n))).setMark latch .entered) :=
    placed.level.trans ⟨rfl,rfl⟩
  have closed := (Still.finished s₁ latch).level
  obtain ⟨booked₁,books⟩ := ihInner (booked.level opened)
  obtain ⟨booked₂,booksRest⟩ := ihRest (booked₁.level closed)
  refine ⟨booked₂,?_⟩
  rw [Job.written,← List.singleton_append,watchesAppend,watchesLoop]
  exact ((books.before opened).after closed).trans booksRest

theorem booksCleanup {entry : NodeId} {code : List Stmt} {copy : List Loc} {body more : List Piece}
    (first : s.regions.get? r = none)
    (clean : cleanup? p r (ownGroups p r) (guardFollow p s f r) = some (entry,code,copy))
    (ihInner : Booked p ((s.openGuard n (guardFollow p s f r)).cleaned r entry copy (s.key "")) → Booked p s₁ ∧
      Books p ((s.openGuard n (guardFollow p s f r)).cleaned r entry copy (s.key "")) (watchesAll (Job.written
      (.emit (insideGuard f r (guardFollow p s f r)) n body))) s₁)
    (ihRest : Booked p (s₁.release (guardFollow p s f r)) → Booked p s₂ ∧ Books p (s₁.release (guardFollow p s
      f r)) (watchesAll (Job.written (.goOn f [.guarded (s.key "") r body [] (some [.stmts .none entry code])]
      (guardFollow p s f r) more))) s₂) :
    Booked p s → Booked p s₂ ∧ Books p s (watchesAll (Job.written (.emit f n (.guarded (s.key "") r body []
      (some [.stmts .none entry code]) :: more)))) s₂ := by
  intro booked
  have guarding := (Still.guarding s n (guardFollow p s f r)).level
  have closed := (Still.released s₁ (guardFollow p s f r)).level
  obtain ⟨booked₀,begun⟩ := (booked.level guarding).cleaned (s.key "") (by rwa [guarding.2]) clean
  obtain ⟨booked₁,books⟩ := ihInner booked₀
  obtain ⟨booked₂,booksRest⟩ := ihRest (booked₁.level closed)
  refine ⟨booked₂,?_⟩
  rw [Job.written,← List.singleton_append,watchesAppend,watchesGuarded,watchesCatches,List.append_nil,
    ← List.singleton_append]
  exact (((begun.before guarding).trans books).after closed).trans booksRest

theorem booksCatches {heads : List CatchHead} {body more : List Piece} {bodies : List (List Piece)} {s₃ : State}
    (first : s.regions.get? r = none)
    (clauses : (openClauses p.graph (ownGroups p r)).from (s.openGuard n (guardFollow p s f r)) = (heads,s₀))
    (ihInner : Booked p (s₀.openRegion r (.catches heads)) → Booked p s₁ ∧ Books p (s₀.openRegion r (.catches
      heads)) (watchesAll (Job.written (.emit (insideGuard f r (guardFollow p s f r)) n body))) s₁)
    (handlers : Writes p (.each (heads.map fun h => (outsideGuard f (guardFollow p s f r),h.node)) bodies) s₁ s₂)
    (ihHandlers : Booked p s₁ → Booked p s₂ ∧ Books p s₁ (watchesAll (Job.written (.each (heads.map fun h =>
      (outsideGuard f (guardFollow p s f r),h.node)) bodies))) s₂)
    (ihRest : Booked p (s₂.release (guardFollow p s f r)) → Booked p s₃ ∧ Books p (s₂.release (guardFollow p s
      f r)) (watchesAll (Job.written (.goOn f [.guarded (s.key "") r body (heads.zip bodies) none] (guardFollow
      p s f r) more))) s₃) :
    Booked p s → Booked p s₃ ∧ Books p s (watchesAll (Job.written (.emit f n (.guarded (s.key "") r body
      (heads.zip bodies) none :: more)))) s₃ := by
  intro booked
  have guarding := (Still.guarding s n (guardFollow p s f r)).level
  have closed := (Still.released s₂ (guardFollow p s f r)).level
  have same : bodies.length = heads.length := by rw [bodiesLength handlers,List.length_map]
  obtain ⟨booked₀,begun⟩ := (booked.level guarding).clauses (by rwa [guarding.2]) same
    handlers.entersHeads clauses
  obtain ⟨booked₁,books⟩ := ihInner booked₀
  obtain ⟨booked₂,booksHandlers⟩ := ihHandlers booked₁
  obtain ⟨booked₃,booksRest⟩ := ihRest (booked₂.level closed)
  refine ⟨booked₃,?_⟩
  rw [Job.written,← List.singleton_append,watchesAppend,watchesGuarded,watchesZipCatches _ _ same,
    ← List.singleton_append]
  have around := (begun.before guarding).trans (books.trans booksHandlers)
  exact (around.after closed).trans booksRest

theorem booksAgain {c : Clauses} {catches : List (CatchHead × List Piece)} {body more : List Piece}
    (known : s.regions.get? r = some c)
    (clauses : (repeatClauses p.graph c).from (s.openGuard n (followOfRegion p s f r [])) = (catches,s₀))
    (ihInner : Booked p s₀ → Booked p s₁ ∧ Books p s₀ (watchesAll (Job.written (.emit (insideGuard f r
      (followOfRegion p s f r [])) n body))) s₁)
    (ihRest : Booked p (s₁.release (followOfRegion p s f r [])) → Booked p s₂ ∧ Books p (s₁.release
      (followOfRegion p s f r [])) (watchesAll (Job.written (.goOn f [.guarded (s.key "") r body catches none]
      (followOfRegion p s f r []) more))) s₂) :
    Booked p s → Booked p s₂ ∧ Books p s (watchesAll (Job.written (.emit f n (.guarded (s.key "") r body
      catches none :: more)))) s₂ := by
  intro booked
  have guarding := (Still.guarding s n (followOfRegion p s f r [])).level
  have again := (Still.again p.graph c (s.openGuard n (followOfRegion p s f r []))).level
  have closed := (Still.released s₁ (followOfRegion p s f r [])).level
  have stand := repeatClausesStand (p := p) (r := r) c (s.openGuard n (followOfRegion p s f r []))
  have empty := watchesRepeatClauses p.graph c (s.openGuard n (followOfRegion p s f r []))
  rw [clauses] at again stand empty
  have opened := guarding.trans again
  obtain ⟨booked₁,books⟩ := ihInner (booked.level opened)
  obtain ⟨booked₂,booksRest⟩ := ihRest (booked₁.level closed)
  refine ⟨booked₂,?_⟩
  rw [Job.written,← List.singleton_append,watchesAppend,watchesGuarded,empty,List.append_nil,
    ← List.singleton_append]
  have begun : Books p s [⟨r,catches,none⟩] s₀ := .again known stand opened
  exact ((begun.trans books).after closed).trans booksRest

theorem Writes.books {job : Job} (writes : Writes p job s s') :
    Booked p s → Booked p s' ∧ Books p s (watchesAll job.written) s' := by
  -- Only protected code changes what the books are about; all other constructs are level around their parts.
  have idle : ∀ {s s' : State}, Level s s' → Booked p s → Booked p s' ∧ Books p s [] s' :=
    fun level booked => ⟨booked.level level,.quiet level⟩
  induction writes with
  | nowhere | falls | nothing | ends | never => exact idle ⟨rfl,rfl⟩
  | breaks way | continues way => exact idle (Still.named ..).level
  | jumps way => exact idle (Still.jumped ..).level
  | inline way rest ih | behind jump way rest ih | on passes rest ih => exact ih
  | each first rest ihFirst ihRest =>
    intro booked
    obtain ⟨booked₁,books⟩ := ihFirst booked
    obtain ⟨booked₂,booksRest⟩ := ihRest booked₁
    refine ⟨booked₂,?_⟩
    rw [Job.written,List.flatten_cons,watchesAppend]
    exact books.trans booksRest
  | last bare noBranch noSwitch alone => exact fun booked => booksStatement booked _ _
  | @plain f n t out s s' bare kind succ rest ih =>
    intro booked
    obtain ⟨booked₁,books⟩ := booksStatement booked n (p.graph.node n).stmts
    obtain ⟨booked₂,booksRest⟩ := ih booked₁
    refine ⟨booked₂,?_⟩
    rw [Job.written,← List.singleton_append,watchesAppend]
    exact books.trans booksRest
  | branch bare kind sides start left right rest ihLeft ihRight ihRest =>
    exact booksBranch start ihLeft ihRight ihRest
  | switch bare kind start arms rest ihArms ihRest => exact booksSwitch start arms ihArms ihRest
  | pretest outside starts settled kind inner rest ihInner ihRest => exact booksPretest ihInner ihRest
  | posttest outside starts settled kind test inner rest ihInner ihRest => exact booksPosttest ihInner ihRest
  | @endless f n found shape body more s s₁ s₂ outside starts settled kind test inner rest ihInner
      ihRest =>
    intro booked
    have opened := (Still.looped s n).level
    obtain ⟨booked₁,books⟩ := ihInner (booked.level opened)
    obtain ⟨booked₂,booksRest⟩ := ihRest booked₁
    refine ⟨booked₂,?_⟩
    rw [Job.written,← List.singleton_append,watchesAppend,watchesLoop]
    exact (books.before opened).trans booksRest
  | cleanup outside first clean inner rest ihInner ihRest => exact booksCleanup first clean ihInner ihRest
  | catches outside first noCleanup clauses inner handlers rest ihInner ihHandlers ihRest =>
    exact booksCatches first clauses ihInner handlers ihHandlers ihRest
  | again outside known clauses inner rest ihInner ihRest => exact booksAgain known clauses ihInner ihRest

theorem remainsBooks {ns : List NodeId} {out : List Piece} (remains : Remains p ns out s s')
    (booked : Booked p s) : Booked p s' ∧ Books p s (watchesAll out) s' := by
  induction remains with
  | none => exact ⟨booked,.quiet ⟨rfl,rfl⟩⟩
  | met met rest ih => exact ih booked
  | @more n ns out outs s s₁ s₂ free here rest ih =>
    have wanted : Level s (s.want n) := ⟨rfl,rfl⟩
    obtain ⟨booked₁,books⟩ := here.books (booked.level wanted)
    obtain ⟨booked₂,booksRest⟩ := ih booked₁
    rw [watchesAppend]
    exact ⟨booked₂,(books.before wanted).trans booksRest⟩

theorem draftBooks {entry : NodeId} {w : Draft} (drafted : Drafted p entry w) :
    Booked p w.state ∧ Books p {} (watchesAll w.body) w.state := by
  obtain ⟨out,rest,s,here,remains,body⟩ := drafted
  obtain ⟨booked,books⟩ := here.books ⟨nofun,nofun,nofun,fun _ inside => absurd inside List.not_mem_nil⟩
  obtain ⟨booked',booksRest⟩ := remainsBooks remains booked
  rw [body,watchesAppend]
  exact ⟨booked',books.trans booksRest⟩

/-! ### Statements that are written -/

theorem groupsDistinct (p : Plan) (r : RegionId) : ((ownGroups p r).map (·.entry)).Nodup := by
  have distinct := (groupedHandlers (fun _ => false) (ownHandlers p.graph r)).distinct
  have widened : ∀ groups : List Group, (groups.map fun a =>
      if a.catchAll then { a with types := [anyThrown] } else a).map (·.entry) = groups.map (·.entry) := by
    intro groups
    rw [List.map_map]
    refine List.map_congr_left fun a _ => ?_
    rw [Function.comp_apply]
    split <;> rfl
  rw [← widened] at distinct
  unfold ownGroups groupHandlers
  cases p.policy.handlers with
  | table => exact distinct
  | catchAllLast =>
    refine (List.Perm.map _ ?_).nodup_iff.mpr distinct
    simpa using List.filter_append_perm (fun a : Group => !a.catchAll) _

/-- The statement at a location of a node is written where the node is. -/
def Draft.Stores (w : Draft) (n : NodeId) (l : Loc) : Prop :=
  ∃ k ss, (k,.code n ss) ∈ deedsAll [] w.body ∧ l ∈ ss.map (·.loc)

/-- The exception of a clause reaches the variable: the head of the clause puts it there, or the statement at the
location does, in the code that the clause comes to. -/
def Draft.Delivers (w : Draft) (v : VarId) (l : Loc) (c : CatchHead × List Piece) : Prop :=
  c.1.var = some v ∨ Enters c.1.node c.2 ∧ w.Stores c.1.node l

/-- A handler keeps its first statement: it is written outside of clean-up code, no clause of a region other than
the given one has its variable, and no region with clean-up code is left for it. -/
structure Draft.Keeps (w : Draft) (p : Plan) (r : RegionId) (n : NodeId) : Prop where
  written : ∃ k ss, (k,.code n ss) ∈ deedsAll [] w.body
  unbound : ∀ x ∈ watchesAll w.body, x.region ≠ r → ∀ c ∈ x.catches, c.1.node = n → Enters n c.2 →
    c.1.var = none
  apart : ∀ x ∈ watchesAll w.body, x.cleanup ≠ none → p.regionExits x.region ≠ [n]

theorem copiedApart {g : Graph} {entry : NodeId} : ¬Enters n (copiedClause g entry).2 := by
  rintro ⟨begins⟩
  have negative : (-1 : Int) = n := Option.some.inj begins
  omega

end Recovery

namespace Graph

open RegCode.Tree Recovery

variable {g : Graph} {policy : Policy} {w : Draft} {n : NodeId} {l : Loc} {v : VarId} {x : Watch Key}

structure Audited (g : Graph) (policy : Policy) (w : Draft) : Prop where
  booked : Booked (Plan.ofGraph g (Dominators.ofGraph g) policy) w.state
  books : Books (Plan.ofGraph g (Dominators.ofGraph g) policy) {} (watchesAll w.body) w.state
  took : Took (Plan.ofGraph g (Dominators.ofGraph g) policy) {} (deedsAll [] w.body) w.state
  guards : Guards (Plan.ofGraph g (Dominators.ofGraph g) policy) (deedsAll [] w.body)

theorem Readied.audited (readied : g.Readied) {entry : NodeId} (start : g.entry = some entry)
    (drafted : Drafted (Plan.ofGraph g (Dominators.ofGraph g) policy) entry w) : g.Audited policy w :=
  ⟨(draftBooks drafted).1,(draftBooks drafted).2,
    draftTook readied.shaped (tested g (Dominators.ofGraph g) policy) drafted,
    draftInGraph (readied.listed policy) readied.shaped drafted (readied.edged.entry entry start) []⟩

theorem caughtHere (caught : caught? g n = some (v,l)) : l ∈ g.locsAt n := by
  obtain ⟨first,rest,stmts,-,rfl⟩ :=
    caughtReceives (p := Plan.ofGraph g (Dominators.ofGraph g) {}) caught
  exact List.mem_map_of_mem (stmts ▸ List.mem_cons_self ..)

namespace Audited

variable (audited : g.Audited policy w) (readied : g.Readied)
include audited readied

theorem storesIff (member : n ∈ g.rpo) (inside : l ∈ g.locsAt n) :
    w.Stores n l ↔ (∃ k ss, (k,.code n ss) ∈ deedsAll [] w.body) ∧ l ∉ w.state.skipped := by
  have kept : ∀ k ss, (k,.code n ss) ∈ deedsAll [] w.body →
      (l ∈ ss.map (·.loc) ↔ l ∉ w.state.skipped) := by
    intro k ss code
    obtain ⟨m,same,-,ls,rfl,among,others⟩ := audited.took.code k n ss code
    obtain rfl : n = m := Int.ofNat_inj.mp same
    have home : l ∈ w.state.skipped → l ∈ ls := fun left => (others l left).resolve_right
      fun ⟨u,other,skips⟩ => other (skips.home readied audited.guards member inside)
    constructor
    · rintro written left
      obtain ⟨t,there,rfl⟩ := List.mem_map.mp written
      have stays : t.loc ∉ ls := by simpa using (List.mem_filter.mp there).2
      exact stays (home left)
    · intro stays
      obtain ⟨t,there,rfl⟩ := List.mem_map.mp inside
      refine List.mem_map_of_mem (List.mem_filter.mpr ⟨there,?_⟩)
      simpa using fun here => stays (among _ here)
  constructor
  · rintro ⟨k,ss,code,written⟩
    exact ⟨⟨k,ss,code⟩,(kept k ss code).mp written⟩
  · rintro ⟨⟨k,ss,code⟩,stays⟩
    exact ⟨k,ss,code,(kept k ss code).mpr stays⟩

theorem handlers (member : x ∈ watchesAll w.body) {heads : List CatchHead}
    (known : w.state.regions.get? x.region = some (.catches heads)) : ∀ h ∈ heads, h.node ∈ g.rpo := by
  intro h inside
  obtain ⟨k,c,guard,region⟩ := watchBeginsAll [] w.body x member
  obtain ⟨m,here,around⟩ := audited.guards k c guard
  have node : h.node ∈ heads.map (·.node) := List.mem_map_of_mem inside
  rw [audited.booked.nodes x.region heads known] at node
  obtain ⟨a,group,same⟩ := List.mem_map.mp node
  obtain ⟨e,own,entry⟩ := groupEntries group
  rw [← same,← entry]
  exact readied.handlers here around e (region ▸ own)

omit readied in
theorem keeps (caught : caught? g n = some (v,l)) (stays : l ∉ w.state.skipped)
    (written : ∃ k ss, (k,.code n ss) ∈ deedsAll [] w.body) (r : RegionId) :
    w.Keeps (Plan.ofGraph g (Dominators.ofGraph g) policy) r n := by
  refine ⟨written,fun y member _ c clause same enters => ?_,fun y member clean exits => ?_⟩
  · obtain ⟨cs,known,stand⟩ := audited.books.stands y member
    cases stand with
    | cleanup => exact absurd clause List.not_mem_nil
    | copied =>
      cases List.mem_singleton.mp clause
      exact absurd enters copiedApart
    | @catches r cs =>
      have binds := audited.booked.heads r _ known c.1 (List.mem_map_of_mem clause) v l (same ▸ caught)
      exact binds.resolve_right fun both => stays both.2
  · obtain ⟨cs,known,stand⟩ := audited.books.stands y member
    cases stand with
    | cleanup =>
      obtain ⟨out,exits',first⟩ := audited.booked.cleanup _ _ known
      obtain rfl := List.singleton_inj.mp (exits'.symm.trans exits)
      exact stays (first v l caught)
    | catches | copied => exact clean rfl

theorem stays {heads : List CatchHead} {h : CatchHead} (member : x ∈ watchesAll w.body)
    (known : w.state.regions.get? x.region = some (.catches heads)) (clause : h ∈ heads)
    (caught : caught? g h.node = some (v,l)) (unbound : h.var = none)
    (keeps : w.Keeps (Plan.ofGraph g (Dominators.ofGraph g) policy) x.region h.node) :
    l ∉ w.state.skipped := by
  intro left
  have node := audited.handlers readied member known h clause
  have home : ∀ u ∈ g.rpo, l ∈ g.locsAt u → u = h.node := fun u there here =>
    readied.spaced.node (readied.rpo ▸ there) (readied.rpo ▸ node) here (caughtHere caught)
  obtain ⟨q,d,recorded,spares⟩ := audited.booked.source l left
  obtain fresh | ⟨y,other,rfl,clean⟩ := audited.books.origin q d recorded
  · contradiction
  cases d with
  | cleanup e =>
    obtain ⟨out,exits,there⟩ := spares
    obtain ⟨m,inside,leaves⟩ := exitOf (exits ▸ List.mem_singleton_self out)
    have same := home out (readied.edged.succs m inside out leaves).1 there
    exact keeps.apart y other (clean e rfl) (same ▸ exits)
  | catches heads' =>
    obtain ⟨h',among,w',bound,caught'⟩ := spares
    have same := home h'.node (audited.handlers readied other recorded h' among) (caughtHere caught')
    by_cases region : y.region = x.region
    · -- Clauses of one region are for different handlers, so this one is the clause itself.
      rw [region] at recorded
      cases Option.some.inj (recorded.symm.trans known)
      have distinct := groupsDistinct (Plan.ofGraph g (Dominators.ofGraph g) policy) x.region
      rw [← audited.booked.nodes x.region _ known] at distinct
      obtain rfl := List.inj_on_of_nodup_map distinct among clause same
      rw [unbound] at bound
      contradiction
    · obtain ⟨d,recorded',stand⟩ := audited.books.stands y other
      obtain rfl := Option.some.inj (recorded.symm.trans recorded')
      cases stand with
      | @catches r cs enters =>
        obtain ⟨c,written,rfl⟩ := List.mem_map.mp among
        have none := keeps.unbound _ other region c written same (same ▸ enters c written)
        rw [none] at bound
        contradiction

theorem delivers (member : x ∈ watchesAll w.body) {c : CatchHead × List Piece} (clause : c ∈ x.catches)
    (caught : caught? g c.1.node = some (v,l)) :
    (c.1.var = none ∨ c.1.var = some v) ∧
      (Enters c.1.node c.2 ∨ c.1.var = some v ∧ c.2 = (copiedClause g c.1.node).2) ∧
      (w.Delivers v l c ↔ c.1.var = some v ∨
        w.Keeps (Plan.ofGraph g (Dominators.ofGraph g) policy) x.region c.1.node) := by
  obtain ⟨cs,known,stand⟩ := audited.books.stands x member
  cases stand with
  | cleanup => exact absurd clause List.not_mem_nil
  | copied =>
    cases List.mem_singleton.mp clause
    have bound : (copiedClause g _).1.var = some v := congrArg (Option.map Prod.fst) caught
    exact ⟨.inr bound,.inr ⟨bound,rfl⟩,⟨fun _ => .inl bound,fun _ => .inl bound⟩⟩
  | @catches r cs enters =>
    have head : c.1 ∈ cs.map Prod.fst := List.mem_map_of_mem clause
    have node := audited.handlers readied member known c.1 head
    have stores := audited.storesIff readied node (caughtHere caught)
    have binds := audited.booked.heads r _ known c.1 head v l caught
    refine ⟨binds.imp_right And.left,.inl (enters c clause),?_⟩
    constructor
    · rintro (bound | ⟨-,stored⟩)
      · exact .inl bound
      · obtain ⟨written,stays⟩ := stores.mp stored
        exact .inr (audited.keeps caught stays written r)
    · rintro (bound | keeps)
      · exact .inl bound
      · refine binds.symm.imp And.left fun unbound => ⟨enters c clause,stores.mpr ⟨keeps.written,?_⟩⟩
        exact audited.stays readied member known head caught unbound keeps

end Audited

/-- Clauses whose handlers start by storing the exception. A clause has the variable or none, and its code comes
to the handler or is a copy of it. The exception reaches the variable just when the clause has it or the handler
keeps the statement that stores it: outside of clean-up code, with no clause of another region that has the
variable instead, and with no clean-up code in front of it. -/
theorem recoverDelivers (g : Graph) (ready : g.entry ≠ none → g.Readied) (policy : Policy) : ∃ r,
    g.recover (Dominators.ofGraph g) policy = .ok r ∧
    r.root = (Tree.block Key.none (g.written (Dominators.ofGraph g) policy).body).relabel
      (g.written (Dominators.ofGraph g) policy).name ∧
    ∀ x ∈ watchesAll (g.written (Dominators.ofGraph g) policy).body, ∀ c ∈ x.catches, ∀ v l,
      caught? g c.1.node = some (v,l) →
        (c.1.var = none ∨ c.1.var = some v) ∧
        (Enters c.1.node c.2 ∨ c.1.var = some v ∧ c.2 = (copiedClause g c.1.node).2) ∧
        ((g.written (Dominators.ofGraph g) policy).Delivers v l c ↔ c.1.var = some v ∨
          (g.written (Dominators.ofGraph g) policy).Keeps (Plan.ofGraph g (Dominators.ofGraph g) policy)
            x.region c.1.node) := by
  obtain ⟨r,code,root,-⟩ := g.recoverWritten (Dominators.ofGraph g) policy
  refine ⟨r,code,root,fun x member c clause v l caught => ?_⟩
  cases start : g.entry with
  | none =>
    rw [written,start] at member
    exact absurd member List.not_mem_nil
  | some entry =>
    have readied := ready (start ▸ Option.some_ne_none entry)
    have drafted : Drafted (Plan.ofGraph g (Dominators.ofGraph g) policy) entry
        (g.written (Dominators.ofGraph g) policy) := by
      rw [written,start]
      exact Recovery.drafted (Nat.le_refl _) entry
    exact (readied.audited start drafted).delivers readied member clause caught

end Graph

def Method.joined : Method := .short
  [.callOf 0 "g",.callOf 3 "done",.callOf 6 "k",.leave 9,.receive 10,.raise 11]
  [⟨0,3,[⟨"Ljava/lang/Exception;",10⟩]⟩,⟨6,9,[⟨"Ljava/lang/Error;",10⟩]⟩]

namespace Graph

open RegCode.Tree Recovery

def drops (g : Graph) (w : Draft) : Bool := (watchesAll w.body).any fun x => x.catches.any fun c =>
  match caught? g c.1.node with
  | some (_,l) => c.1.var.isNone && (deedsAll [] w.body).all fun
    | (_,.code n ss) => n != c.1.node || !(ss.map (·.loc)).contains l
    | _ => true
  | none => false

set_option maxRecDepth 100000 in
theorem joinedDrops : (Method.joined.recovered? {}).any (fun x => x.1.splitTests.simplify.drops
    (x.1.splitTests.simplify.written (Dominators.ofGraph x.1.splitTests.simplify) {})) = true := by
  simp only [Method.recovered?,ofMethod,Block.split,Block.starts,TryTable.ascending,simplify,renumber,
    reversePostorder,Flow.exploreNested,sortByHalves]
  decide +kernel

theorem lostOfDrops {g : Graph} {w : Draft} (drops : g.drops w = true) :
    ∃ x ∈ watchesAll w.body, ∃ c ∈ x.catches, ∃ v l,
      caught? g c.1.node = some (v,l) ∧ c.1.var = none ∧ ¬w.Stores c.1.node l := by
  obtain ⟨x,member,drops⟩ := List.any_eq_true.mp drops
  obtain ⟨c,clause,drops⟩ := List.any_eq_true.mp drops
  split at drops
  · rename_i v l caught
    obtain ⟨unbound,without⟩ := Bool.and_eq_true_iff.mp drops
    refine ⟨x,member,c,clause,v,l,caught,Option.isNone_iff_eq_none.mp unbound,?_⟩
    rintro ⟨k,ss,code,stored⟩
    simpa [stored] using List.all_eq_true.mp without _ code
  · contradiction

/-- The second clause of `joined` leaves the exception to a handler that the first one has taken it from. -/
theorem recoverDeliversJoined : ∃ g r, ofMethod .joined = .ok g ∧
    (g.splitTests.simplify.entry ≠ none → g.splitTests.simplify.Readied) ∧
    g.splitTests.simplify.recover (Dominators.ofGraph g.splitTests.simplify) {} = .ok r ∧
    ∃ x ∈ watchesAll (g.splitTests.simplify.written (Dominators.ofGraph g.splitTests.simplify) {}).body,
      ∃ c ∈ x.catches, ∃ v l, caught? g.splitTests.simplify c.1.node = some (v,l) ∧
        ¬(g.splitTests.simplify.written (Dominators.ofGraph g.splitTests.simplify) {}).Delivers v l c ∧
        ¬(g.splitTests.simplify.written (Dominators.ofGraph g.splitTests.simplify) {}).Keeps
          (Plan.ofGraph g.splitTests.simplify (Dominators.ofGraph g.splitTests.simplify) {}) x.region c.1.node := by
  obtain ⟨g,r,made,code,drops⟩ := recoveredAny joinedDrops
  have ready := (readiedOfMethod made).resolve_left
  obtain ⟨r',code',-,delivers⟩ := recoverDelivers g.splitTests.simplify ready {}
  obtain rfl := Except.ok.inj (code.symm.trans code')
  obtain ⟨x,member,c,clause,v,l,caught,unbound,lost⟩ := lostOfDrops drops
  obtain ⟨-,-,exact⟩ := delivers x member c clause v l caught
  have undelivered : ¬(g.splitTests.simplify.written (Dominators.ofGraph g.splitTests.simplify) {}).Delivers v l c := by
    rintro (bound | ⟨-,stored⟩)
    · rw [unbound] at bound
      contradiction
    · exact lost stored
  exact ⟨g,r,made,ready,code,x,member,c,clause,v,l,caught,undelivered,
    fun keeps => undelivered (exact.mpr (.inr keeps))⟩

end Graph

end RegCode
