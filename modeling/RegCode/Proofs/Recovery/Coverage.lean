import RegCode.Proofs.Recovery.Writing
import RegCode.Proofs.Text.Numerals

/-! Nodes and jumps of trees, list by list: what constructs make of the parts that they are given
neither loses a node nor adds or loses a jump to a label. -/
namespace RegCode

namespace Tree

variable {α β : Type}

theorem sourcesAppend (xs ys : List (Tree α)) :
    sourcesAll (xs ++ ys) = sourcesAll xs ++ sourcesAll ys := by
  induction xs with
  | nil => rfl
  | cons x xs ih => rw [List.cons_append,sourcesAll,sourcesAll,ih,List.append_assoc]

theorem kindsAppend (xs ys : List (Tree α)) : kindsAll (xs ++ ys) = kindsAll xs ++ kindsAll ys := by
  induction xs with
  | nil => rfl
  | cons x xs ih => rw [List.cons_append,kindsAll,kindsAll,ih,List.append_assoc]

def jumpCount (ts : List (Tree α)) : Nat := (kindsAll ts).count .goto

theorem jumpCountAppend (xs ys : List (Tree α)) :
    jumpCount (xs ++ ys) = jumpCount xs + jumpCount ys := by
  rw [jumpCount,kindsAppend,List.count_append]
  rfl

theorem jumpCountCons (t : Tree α) (ts : List (Tree α)) :
    jumpCount (t :: ts) = t.kinds.count .goto + jumpCount ts := by
  rw [jumpCount,kindsAll,List.count_append]
  rfl

theorem sourcesZipArms (heads : List ArmHead) (bodies : List (List (Tree α)))
    (same : bodies.length = heads.length) :
    sourcesArms (heads.zip bodies) = sourcesAll bodies.flatten := by
  induction heads generalizing bodies with
  | nil => rw [List.eq_nil_of_length_eq_zero same]; rfl
  | cons h heads ih =>
    cases bodies with
    | nil => contradiction
    | cons b bodies =>
      rw [List.zip_cons_cons,sourcesArms,ih bodies (Nat.succ.inj same),List.flatten_cons,
        sourcesAppend]

theorem jumpsZipArms (heads : List ArmHead) (bodies : List (List (Tree α)))
    (same : bodies.length = heads.length) :
    (kindsArms (heads.zip bodies)).count .goto = jumpCount bodies.flatten := by
  induction heads generalizing bodies with
  | nil => rw [List.eq_nil_of_length_eq_zero same]; rfl
  | cons h heads ih =>
    cases bodies with
    | nil => contradiction
    | cons b bodies =>
      rw [List.zip_cons_cons,kindsArms,List.count_append,ih bodies (Nat.succ.inj same),
        List.flatten_cons,jumpCountAppend,jumpCount,List.count_cons_of_ne (by decide)]
      rfl

theorem sourcesZipCatches (heads : List CatchHead) (bodies : List (List (Tree α)))
    (same : bodies.length = heads.length) :
    sourcesCatches (heads.zip bodies) = sourcesAll bodies.flatten := by
  induction heads generalizing bodies with
  | nil => rw [List.eq_nil_of_length_eq_zero same]; rfl
  | cons h heads ih =>
    cases bodies with
    | nil => contradiction
    | cons b bodies =>
      rw [List.zip_cons_cons,sourcesCatches,ih bodies (Nat.succ.inj same),List.flatten_cons,
        sourcesAppend]

theorem jumpsZipCatches (heads : List CatchHead) (bodies : List (List (Tree α)))
    (same : bodies.length = heads.length) :
    (kindsCatches (heads.zip bodies)).count .goto = jumpCount bodies.flatten := by
  induction heads generalizing bodies with
  | nil => rw [List.eq_nil_of_length_eq_zero same]; rfl
  | cons h heads ih =>
    cases bodies with
    | nil => contradiction
    | cons b bodies =>
      rw [List.zip_cons_cons,kindsCatches,List.count_append,ih bodies (Nat.succ.inj same),
        List.flatten_cons,jumpCountAppend,jumpCount,List.count_cons_of_ne (by decide)]
      rfl

end Tree

namespace Recovery

open RegCode.Tree

theorem dropLastQuiet {ps : List Piece} {j : Piece} (last : ps.getLast? = some j)
    (noSource : j.sources = []) (noJump : j.kinds.count .goto = 0) :
    sourcesAll ps.dropLast = sourcesAll ps ∧ jumpCount ps.dropLast = jumpCount ps := by
  obtain ⟨front,rfl⟩ := List.getLast?_eq_some_iff.mp last
  rw [List.dropLast_concat,sourcesAppend,jumpCountAppend,sourcesAll,noSource,jumpCountCons,noJump]
  exact ⟨(List.append_nil _).symm,rfl⟩

theorem dropLastContinueQuiet (body : List Piece) :
    sourcesAll (dropLastContinue body) = sourcesAll body ∧
      jumpCount (dropLastContinue body) = jumpCount body := by
  unfold dropLastContinue
  split
  · rename_i last
    exact dropLastQuiet last rfl rfl
  · exact ⟨rfl,rfl⟩

theorem dropLastBreakQuiet (arms : List (ArmHead × List Piece)) :
    sourcesArms (dropLastBreak arms) = sourcesArms arms ∧
      (kindsArms (dropLastBreak arms)).count .goto = (kindsArms arms).count .goto := by
  induction arms with
  | nil => exact ⟨rfl,rfl⟩
  | cons a arms ih =>
    cases arms with
    | nil =>
      obtain ⟨h,body⟩ := a
      unfold dropLastBreak
      split
      · rename_i last
        obtain ⟨sources,jumps⟩ := dropLastQuiet last rfl rfl
        rw [jumpCount,jumpCount] at jumps
        simp only [sourcesArms,kindsArms,sources,List.append_nil,List.count_cons,jumps,and_self]
      · exact ⟨rfl,rfl⟩
    | cons b arms =>
      obtain ⟨h,body⟩ := a
      rw [dropLastBreak,sourcesArms,sourcesArms,kindsArms,kindsArms,List.count_append,
        List.count_append,ih.1,ih.2]
      · exact ⟨rfl,rfl⟩
      · simp

theorem branchPiecesSources (key : Key) (n : NodeId) (cond : Test) (meets : Bool)
    (onTrue onFalse : List Piece) (m : Int) :
    m ∈ sourcesAll (branchPieces key n cond meets onTrue onFalse) ↔
      m = n ∨ m ∈ sourcesAll onTrue ∨ m ∈ sourcesAll onFalse := by
  unfold branchPieces
  split
  · rename_i none
    rw [List.isEmpty_iff.mp none]
    simp [sourcesAll,sources]
  · split
    · rename_i none
      rw [List.isEmpty_iff.mp none]
      simp [sourcesAll,sources]
    · split
      · simp [sourcesAll,sources]
      · simp [sourcesAll,sources]

theorem branchPiecesJumps (key : Key) (n : NodeId) (cond : Test) (meets : Bool)
    (onTrue onFalse : List Piece) :
    jumpCount (branchPieces key n cond meets onTrue onFalse) =
      jumpCount onTrue + jumpCount onFalse := by
  unfold branchPieces
  split
  · rename_i none
    rw [List.isEmpty_iff.mp none]
    simp [jumpCount,kindsAll,kinds]
  · split
    · rename_i none
      rw [List.isEmpty_iff.mp none]
      simp [jumpCount,kindsAll,kinds]
    · split
      · simp [jumpCount,kindsAll,kinds]
      · simp [jumpCount,kindsAll,kinds]

theorem bodiesLength {p : Plan} {jobs : List (Frame × NodeId)} {outs : List (List Piece)}
    {s s' : State} (writes : Writes p (.each jobs outs) s s') : outs.length = jobs.length := by
  generalize same : Job.each jobs outs = job at writes
  induction writes generalizing jobs outs with
  | nothing => cases same; rfl
  | each first rest ihFirst ihRest => cases same; exact congrArg Nat.succ (ihRest rfl)
  | _ => contradiction

theorem sideScopes (f : Frame) (follow : Option NodeId) : (sideFrame f follow).scopes = f.scopes := by
  unfold sideFrame
  split <;> rfl

theorem armJobsLength (scopes : List Scope) (arms : List Arm) :
    (armJobs scopes arms).length = arms.length := by
  induction arms with
  | nil => rfl
  | cons a arms ih => rw [armJobs,List.length_cons,List.length_cons,ih]

end Recovery

end RegCode

/-! What is written covers what is marked. Writing leaves a node as it was or finished; whatever it
finishes stands in the code, and every jump to a label in the code is counted. -/
namespace RegCode.Recovery

open RegCode.Tree

namespace State

theorem markSetMark (s : State) (n k : NodeId) (m : Mark) :
    (s.setMark n m).mark k = if k = n then m else s.mark k := by
  simp only [mark,setMark,Table.getD,Table.get?_insert,beq_iff_eq]
  split <;> rfl

theorem placeFields (s : State) (n : NodeId) (key : Key) :
    (s.place n key).marks = s.marks ∧ (s.place n key).gotos = s.gotos := by
  unfold place
  split <;> exact ⟨rfl,rfl⟩

theorem gotoFields (s : State) (n : NodeId) :
    (s.goto n).2.marks = s.marks ∧ (s.goto n).2.gotos = s.gotos + 1 := by
  have label : (s.labelOf n).2.marks = s.marks ∧ (s.labelOf n).2.gotos = s.gotos := by
    unfold labelOf
    split
    · split <;> exact ⟨rfl,rfl⟩
    · exact ⟨rfl,rfl⟩
  exact ⟨label.1,congrArg (· + 1) label.2⟩

theorem nameScopeFields (s : State) (scope : Option Key) :
    (s.nameScope scope).marks = s.marks ∧ (s.nameScope scope).gotos = s.gotos := by
  cases scope <;> exact ⟨rfl,rfl⟩

end State

structure Wrote (s : State) (sources : List Int) (jumps : Nat) (s' : State) : Prop where
  marks : ∀ m, s'.mark m = s.mark m ∨ s'.mark m = .finished
  sources : ∀ m : NodeId, s'.mark m = .finished → s.mark m = .finished ∨ (m : Int) ∈ sources
  jumps : s'.gotos = s.gotos + jumps

namespace Wrote

variable {s s₁ s₂ s' : State} {xs ys : List Int} {j k : Nat}

theorem quiet (marks : s'.marks = s.marks) (gotos : s'.gotos = s.gotos) : Wrote s xs 0 s' := by
  have same : ∀ m, s'.mark m = s.mark m := fun m => by rw [State.mark,State.mark,marks]
  exact ⟨fun m => .inl (same m),fun m finished => .inl ((same m).symm.trans finished),gotos⟩

theorem trans (first : Wrote s xs j s₁) (second : Wrote s₁ ys k s₂) :
    Wrote s (xs ++ ys) (j + k) s₂ := by
  refine ⟨fun m => ?_,fun m finished => ?_,?_⟩
  · rcases second.marks m with same | finished
    · rw [same]; exact first.marks m
    · exact .inr finished
  · rcases second.sources m finished with before | member
    · exact (first.sources m before).imp id (List.mem_append_left ys)
    · exact .inr (List.mem_append_right xs member)
  · rw [second.jumps,first.jumps,Nat.add_assoc]

theorem mono (wrote : Wrote s xs j s') (more : ∀ m ∈ xs, m ∈ ys) : Wrote s ys j s' :=
  ⟨wrote.marks,fun m finished => (wrote.sources m finished).imp id (more m),wrote.jumps⟩

theorem around {n : NodeId} (member : (n : Int) ∈ xs) (entered : ∀ m, m ≠ n → s₁.mark m = s.mark m)
    (gotos : s₁.gotos = s.gotos) (wrote : Wrote s₁ xs j s₂) (marks' : s'.marks = s₂.marks)
    (gotos' : s'.gotos = s₂.gotos) : Wrote s xs j (s'.setMark n .finished) := by
  have after : ∀ m, s'.mark m = s₂.mark m := fun m => by rw [State.mark,State.mark,marks']
  refine ⟨fun m => ?_,fun m finished => ?_,?_⟩
  · rw [State.markSetMark]
    split
    · exact .inr rfl
    · rename_i other
      rw [after,← entered m other]
      exact wrote.marks m
  · rw [State.markSetMark] at finished
    split at finished
    · rename_i here
      exact .inr (here ▸ member)
    · rename_i other
      rw [after] at finished
      exact (wrote.sources m finished).imp (entered m other ▸ id) id
  · exact gotos'.trans (wrote.jumps.trans (congrArg (· + j) gotos))

end Wrote

def Job.Covers : Job → State → State → Prop
  | .emit _ n out, s, s' => Wrote s (sourcesAll out) (jumpCount out) s' ∧ s'.mark n = .finished
  | .go _ _ out, s, s' => Wrote s (sourcesAll out) (jumpCount out) s'
  | .goOn _ _ _ more, s, s' => Wrote s (sourcesAll more) (jumpCount more) s'
  | .each _ outs, s, s' => Wrote s (sourcesAll outs.flatten) (jumpCount outs.flatten) s'

theorem openClausesFields (g : Graph) (groups : List Group) (s : State) :
    ((openClauses g groups).from s).2.marks = s.marks ∧
      ((openClauses g groups).from s).2.gotos = s.gotos := by
  induction groups generalizing s with
  | nil => exact ⟨rfl,rfl⟩
  | cons a groups ih =>
    have head : ((openClause g a).from s).2.marks = s.marks ∧
        ((openClause g a).from s).2.gotos = s.gotos := by
      unfold openClause
      split
      · rw [fromBind,fromGet]
        split <;> exact ⟨rfl,rfl⟩
      · exact ⟨rfl,rfl⟩
    simp only [openClauses,fromBind,fromPure]
    exact ⟨(ih _).1.trans head.1,(ih _).2.trans head.2⟩

theorem jumpClausesWrote (heads : List CatchHead) (s : State) :
    Wrote s (sourcesCatches ((jumpClauses heads).from s).1)
      ((kindsCatches ((jumpClauses heads).from s).1).count .goto) ((jumpClauses heads).from s).2 := by
  induction heads generalizing s with
  | nil => exact .quiet rfl rfl
  | cons h heads ih =>
    obtain ⟨marks,gotos⟩ := s.gotoFields h.node
    have same : ∀ m, (s.goto h.node).2.mark m = s.mark m := fun m => by
      rw [State.mark,State.mark,marks]
    have jump : Wrote s [] 1 (s.goto h.node).2 :=
      ⟨fun m => .inl (same m),fun m finished => .inl ((same m).symm.trans finished),gotos⟩
    have all := jump.trans (ih (s.goto h.node).2)
    have piece : (s.goto h.node).1 = .goto (.aim h.node) (s.labelOf h.node).1 := rfl
    simp only [jumpClauses,fromBind,fromPure,fromModifyGet,piece]
    simpa [sourcesCatches,kindsCatches,sourcesAll,sources,kindsAll,kinds,Nat.add_comm] using all

theorem repeatClausesWrote (g : Graph) (c : Clauses) (s : State) :
    Wrote s (sourcesCatches ((repeatClauses g c).from s).1)
      ((kindsCatches ((repeatClauses g c).from s).1).count .goto) ((repeatClauses g c).from s).2 := by
  cases c with
  | cleanup entry => exact .quiet rfl rfl
  | catches heads => exact jumpClausesWrote heads s

theorem statementCovers (s : State) (n : NodeId) (ss : List Stmt) :
    Wrote s (sourcesAll [(s.statement n ss).1]) (jumpCount [(s.statement n ss).1])
      (s.statement n ss).2 := by
  obtain ⟨marks,gotos⟩ := s.bump.placeFields n (s.key "")
  have member : (n : Int) ∈ sourcesAll [(s.statement n ss).1] := by
    simp [State.statement,sourcesAll,sources,nodeIfReal]
  exact .around member (fun _ _ => rfl) rfl (.quiet rfl rfl) marks gotos

theorem leadCovers {s s₀ : State} {n : NodeId} {ss : List Stmt} {lead : List Piece}
    (start : s.lead n ss = (lead,s₀)) : Wrote s (sourcesAll lead) (jumpCount lead) s₀ := by
  unfold State.lead at start
  split at start
  · cases start; exact .quiet rfl rfl
  · cases start; exact statementCovers s n _

theorem enterFields (s : State) (n : NodeId) (own : String) (follow : Option NodeId) :
    (∀ m, m ≠ n → (s.enter n own follow).mark m = s.mark m) ∧
      (s.enter n own follow).gotos = s.gotos := by
  obtain ⟨marks,gotos⟩ := s.bump.placeFields n (s.key own)
  refine ⟨fun m other => ?_,gotos⟩
  have entered : (s.enter n own follow).mark m = ((s.bump.place n (s.key own)).setMark n .entered).mark m :=
    rfl
  rw [entered,State.markSetMark,if_neg other,State.mark,marks]
  rfl

theorem Wrote.within {s s₁ : State} {n : NodeId} {own : String} {follow : Option NodeId}
    {xs : List Int} {j : Nat} (member : (n : Int) ∈ xs) (wrote : Wrote (s.enter n own follow) xs j s₁) :
    Wrote s xs j (s₁.leave n follow) :=
  .around member (enterFields s n own follow).1 (enterFields s n own follow).2 wrote rfl rfl

theorem leaveMark (s : State) (n : NodeId) (follow : Option NodeId) :
    (s.leave n follow).mark n = .finished := by
  rw [State.leave,State.markSetMark,if_pos rfl]

theorem Wrote.finished {s s' : State} {xs : List Int} {j : Nat} (wrote : Wrote s xs j s') {n : NodeId}
    (before : s.mark n = .finished) : s'.mark n = .finished :=
  (wrote.marks n).elim (fun same => same.trans before) id

theorem openLoopFields (s : State) (n : NodeId) :
    (s.openLoop n).marks = s.marks ∧ (s.openLoop n).gotos = s.gotos := s.bump.placeFields n _

theorem openGuardFields (s : State) (n : NodeId) (follow : Option NodeId) :
    (s.openGuard n follow).marks = s.marks ∧ (s.openGuard n follow).gotos = s.gotos :=
  s.bump.placeFields n _

theorem loopSources (key : Key) (kind : LoopKind) (test header : Int) (cond : Option Test)
    (body : List Piece) :
    sourcesAll [.loop key kind test header cond (dropLastContinue body)] =
      nodeIfReal test ++ sourcesAll body := by
  rw [sourcesAll,sources,(dropLastContinueQuiet body).1]
  simp [sourcesAll]

theorem loopJumps (key : Key) (kind : LoopKind) (test header : Int) (cond : Option Test)
    (body : List Piece) :
    jumpCount [.loop key kind test header cond (dropLastContinue body)] = jumpCount body := by
  rw [jumpCountCons,kinds,List.count_cons_of_ne (by decide),List.count_cons_of_ne (by decide)]
  exact (dropLastContinueQuiet body).2

theorem guardedJumps (key : Key) (r : RegionId) (body : List Piece)
    (catches : List (CatchHead × List Piece)) :
    jumpCount [.guarded key r body catches none] =
      jumpCount body + (kindsCatches catches).count .goto := by
  simp [jumpCount,kindsAll,kinds]

theorem Wrote.guard {s s₁ s₂ : State} {piece : Piece} {more : List Piece} {follow : Option NodeId}
    {xs : List Int} {j n : Nat} (inner : Wrote s xs j s₁) (sources : ∀ m ∈ xs, m ∈ sourcesAll [piece])
    (jumps : j = jumpCount [piece]) (rest : Wrote (s₁.release follow) (sourcesAll more)
      (jumpCount more) s₂) (finished : s₁.mark n = .finished) :
    Wrote s (sourcesAll (piece :: more)) (jumpCount (piece :: more)) s₂ ∧ s₂.mark n = .finished := by
  have closed : Wrote s₁ [] 0 (s₁.release follow) := .quiet rfl rfl
  have all := ((inner.mono sources).trans closed).trans rest
  rw [jumps,List.append_nil,Nat.add_zero,← sourcesAppend,← jumpCountAppend] at all
  exact ⟨all,rest.finished (closed.finished finished)⟩

section

variable {p : Plan} {f : Frame} {n : NodeId} {r : RegionId} {s s₀ s₁ s₂ s₃ : State}

theorem coversBranch {cond : Test} {first second : Option NodeId} {lead onTrue onFalse more : List Piece}
    (start : s.lead n (p.graph.node n).stmts = (lead,s₀))
    (ihLeft : Job.Covers (.go (sideFrame f (p.branchFollows.get? n)) first onTrue) (s₀.enter n ""
      (p.branchFollows.get? n)) s₁)
    (ihRight : Job.Covers (.go (sideFrame f (p.branchFollows.get? n)) second onFalse) s₁ s₂)
    (ihRest : Job.Covers (.goOn f (lead ++ branchPieces (s₀.key "") n cond (p.branchFollows.get? n).isSome
      onTrue onFalse) (p.branchFollows.get? n) more) (s₂.leave n (p.branchFollows.get? n)) s₃) :
    Job.Covers (.emit f n (lead ++ branchPieces (s₀.key "") n cond (p.branchFollows.get? n).isSome onTrue
      onFalse ++ more)) s s₃ := by
  have member := branchPiecesSources (s₀.key "") n cond (p.branchFollows.get? n).isSome onTrue onFalse
  have inner := (ihLeft.trans ihRight).mono fun m inside =>
    (member m).mpr (.inr (List.mem_append.mp inside))
  rw [← branchPiecesJumps (s₀.key "") n cond (p.branchFollows.get? n).isSome] at inner
  have all := ((leadCovers start).trans (inner.within ((member n).mpr (.inl rfl)))).trans ihRest
  rw [← sourcesAppend,← sourcesAppend,← jumpCountAppend,← jumpCountAppend] at all
  exact ⟨all,Wrote.finished ihRest (leaveMark s₂ n _)⟩

theorem coversSwitch {lead more : List Piece} {bodies : List (List Piece)}
    (start : s.lead n (p.graph.node n).stmts = (lead,s₀))
    (arms : Writes p (.each (switchJobs p f n s₀) bodies) (s₀.enter n (switchName n) (switchFollow p f n)) s₁)
    (ihArms : Job.Covers (.each (switchJobs p f n s₀) bodies) (s₀.enter n (switchName n) (switchFollow p f n)) s₁)
    (ihRest : Job.Covers (.goOn f (lead ++ [.switch (s₀.key (switchName n)) n (switchValue (p.graph.node n))
      (writtenArms p f n bodies)]) (switchFollow p f n) more) (s₁.leave n (switchFollow p f n)) s₂) :
    Job.Covers (.emit f n (lead ++ [.switch (s₀.key (switchName n)) n (switchValue (p.graph.node n))
      (writtenArms p f n bodies)] ++ more)) s s₂ := by
  have same : bodies.length = ((switchArms p f n).map (·.head)).length := by
    rw [bodiesLength arms,switchJobs,armJobsLength,List.length_map]
  obtain ⟨sources,jumps⟩ := dropLastBreakQuiet (((switchArms p f n).map (·.head)).zip bodies)
  rw [sourcesZipArms _ _ same] at sources
  rw [jumpsZipArms _ _ same] at jumps
  have piece : sourcesAll [Tree.switch (s₀.key (switchName n)) n (switchValue (p.graph.node n))
      (writtenArms p f n bodies)] = (n : Int) :: sourcesAll bodies.flatten := by
    simp only [sourcesAll,Tree.sources,writtenArms,sources,List.append_nil]
  have count : jumpCount [Tree.switch (s₀.key (switchName n)) n (switchValue (p.graph.node n))
      (writtenArms p f n bodies)] = jumpCount bodies.flatten := by
    rw [← jumps]
    simp [jumpCount,kindsAll,kinds,writtenArms]
  have inner := Wrote.mono ihArms fun m inside => List.mem_cons_of_mem (n : Int) inside
  have all := ((leadCovers start).trans (inner.within (List.mem_cons_self ..))).trans ihRest
  rw [← piece,← count,← sourcesAppend,← sourcesAppend,← jumpCountAppend,← jumpCountAppend] at all
  exact ⟨all,Wrote.finished ihRest (leaveMark s₁ n _)⟩

theorem coversPretest {shape : LoopShape} {body more : List Piece}
    (ihInner : Job.Covers (.go { scopes := loopScopes f shape n s, stop := some n } (some shape.start) body)
      ((s.openLoop n).setMark n .entered) s₁)
    (ihRest : Job.Covers (.goOn f [.loop (s.key (loopName n)) .pretest n n (some (loopTest p.graph n
      shape.start)) (dropLastContinue body)] shape.follow more) (s₁.setMark n .finished) s₂) :
    Job.Covers (.emit f n (.loop (s.key (loopName n)) .pretest n n (some (loopTest p.graph n shape.start))
      (dropLastContinue body) :: more)) s s₂ := by
  obtain ⟨marks,gotos⟩ := openLoopFields s n
  have entered : ∀ m, m ≠ n → ((s.openLoop n).setMark n .entered).mark m = s.mark m := by
    intro m other
    rw [State.markSetMark,if_neg other,State.mark,marks]
    rfl
  have member : (n : Int) ∈ nodeIfReal n ++ sourcesAll body := by simp [nodeIfReal]
  have around := Wrote.around member entered gotos
    (Wrote.mono ihInner fun m inside => List.mem_append_right (nodeIfReal n) inside) rfl rfl
  rw [← loopSources,← loopJumps] at around
  have all := around.trans ihRest
  rw [← sourcesAppend,← jumpCountAppend] at all
  exact ⟨all,Wrote.finished ihRest (by rw [State.markSetMark,if_pos rfl])⟩

theorem coversPosttest {shape : LoopShape} {latch : NodeId} {body more : List Piece}
    (ihInner : Job.Covers (.emit { scopes := loopScopes f shape n s, stop := some latch } n body) (((s.openLoop
      n).place latch (s.key (loopName n))).setMark latch .entered) s₁)
    (ihRest : Job.Covers (.goOn f [.loop (s.key (loopName n)) .posttest latch n (some (loopTest p.graph latch
      n)) (dropLastContinue body)] shape.follow more) (s₁.setMark latch .finished) s₂) :
    Job.Covers (.emit f n (.loop (s.key (loopName n)) .posttest latch n (some (loopTest p.graph latch n))
      (dropLastContinue body) :: more)) s s₂ := by
  obtain ⟨marks,gotos⟩ := openLoopFields s n
  obtain ⟨marks',gotos'⟩ := (s.openLoop n).placeFields latch (s.key (loopName n))
  have entered : ∀ m, m ≠ latch → (((s.openLoop n).place latch (s.key (loopName n))).setMark latch
      .entered).mark m = s.mark m := by
    intro m other
    rw [State.markSetMark,if_neg other,State.mark,marks',marks]
    rfl
  have member : (latch : Int) ∈ nodeIfReal latch ++ sourcesAll body := by simp [nodeIfReal]
  have around := Wrote.around member entered (gotos'.trans gotos)
    (ihInner.1.mono fun m inside => List.mem_append_right (nodeIfReal latch) inside) rfl rfl
  rw [← loopSources,← loopJumps] at around
  have all := around.trans ihRest
  rw [← sourcesAppend,← jumpCountAppend] at all
  refine ⟨all,Wrote.finished ihRest ?_⟩
  rw [State.markSetMark]
  split
  · rfl
  · exact ihInner.2

theorem coversEndless {shape : LoopShape} {body more : List Piece}
    (ihInner : Job.Covers (.emit { scopes := loopScopes f shape n s } n body) (s.openLoop n) s₁)
    (ihRest : Job.Covers (.goOn f [.loop (s.key (loopName n)) .endless (-1) n none (dropLastContinue body)]
      shape.follow more) s₁ s₂) :
    Job.Covers (.emit f n (.loop (s.key (loopName n)) .endless (-1) n none (dropLastContinue body) :: more)) s
      s₂ := by
  obtain ⟨marks,gotos⟩ := openLoopFields s n
  have opened : Wrote s [] 0 (s.openLoop n) := .quiet marks gotos
  have all := (opened.trans ihInner.1).trans ihRest
  rw [Nat.zero_add] at all
  have sources := loopSources (s.key (loopName n)) .endless (-1) n none body
  rw [show nodeIfReal (-1) = [] from rfl] at sources
  rw [← sources,← loopJumps (s.key (loopName n)) .endless (-1) n none body,← sourcesAppend,
    ← jumpCountAppend] at all
  exact ⟨all,Wrote.finished ihRest ihInner.2⟩

theorem coversCleanup {entry : NodeId} {code : List Stmt} {copy : List Loc} {body more : List Piece}
    (ihInner : Job.Covers (.emit (insideGuard f r (guardFollow p s f r)) n body) ((s.openGuard n (guardFollow p
      s f r)).cleaned r entry copy (s.key "")) s₁)
    (ihRest : Job.Covers (.goOn f [.guarded (s.key "") r body [] (some [.stmts .none entry code])] (guardFollow
      p s f r) more) (s₁.release (guardFollow p s f r)) s₂) :
    Job.Covers (.emit f n (.guarded (s.key "") r body [] (some [.stmts .none entry code]) :: more)) s s₂ := by
  obtain ⟨marks,gotos⟩ := openGuardFields s n (guardFollow p s f r)
  obtain ⟨marks',gotos'⟩ := (((s.openGuard n (guardFollow p s f r)).openRegion r
    (.cleanup entry)).skip copy).placeFields entry (s.key "")
  have member : (entry : Int) ∈ sourcesAll [Tree.guarded (s.key "") r body []
      (some [.stmts .none entry code])] := by
    simp [sourcesAll,sources,nodeIfReal]
  have begun : Wrote s _ 0 _ := .around member (fun _ _ => rfl) rfl (.quiet rfl rfl)
    (marks'.trans marks) (gotos'.trans gotos)
  refine (begun.trans ihInner.1).guard (fun m inside => ?_) ?_ ihRest ihInner.2
  · simp only [sourcesAll,sources,sourcesCatches,List.append_nil,List.mem_append] at inside ⊢
    exact inside.elim id .inl
  · simp [jumpCount,kindsAll,kinds,kindsCatches]

theorem coversCatches {heads : List CatchHead} {body more : List Piece} {bodies : List (List Piece)}
    (clauses : (openClauses p.graph (ownGroups p r)).from (s.openGuard n (guardFollow p s f r)) = (heads,s₀))
    (ihInner : Job.Covers (.emit (insideGuard f r (guardFollow p s f r)) n body) (s₀.openRegion r (.catches
      heads)) s₁)
    (handlers : Writes p (.each (heads.map fun h => (outsideGuard f (guardFollow p s f r),h.node)) bodies) s₁ s₂)
    (ihHandlers : Job.Covers (.each (heads.map fun h => (outsideGuard f (guardFollow p s f r),h.node)) bodies)
      s₁ s₂)
    (ihRest : Job.Covers (.goOn f [.guarded (s.key "") r body (heads.zip bodies) none] (guardFollow p s f r)
      more) (s₂.release (guardFollow p s f r)) s₃) :
    Job.Covers (.emit f n (.guarded (s.key "") r body (heads.zip bodies) none :: more)) s s₃ := by
  obtain ⟨marks,gotos⟩ := openGuardFields s n (guardFollow p s f r)
  obtain ⟨marks',gotos'⟩ := openClausesFields p.graph (ownGroups p r)
    (s.openGuard n (guardFollow p s f r))
  rw [clauses] at marks' gotos'
  have begun : Wrote s [] 0 (s₀.openRegion r (.catches heads)) :=
    .quiet (marks'.trans marks) (gotos'.trans gotos)
  have same : bodies.length = heads.length := by rw [bodiesLength handlers,List.length_map]
  refine ((begun.trans ihInner.1).trans ihHandlers).guard (fun m inside => ?_) ?_ ihRest
    (Wrote.finished ihHandlers ihInner.2)
  · simpa [sourcesAll,sources,sourcesZipCatches _ _ same] using inside
  · rw [guardedJumps,jumpsZipCatches _ _ same,Nat.zero_add]

theorem coversAgain {c : Clauses} {catches : List (CatchHead × List Piece)} {body more : List Piece}
    (clauses : (repeatClauses p.graph c).from (s.openGuard n (followOfRegion p s f r [])) = (catches,s₀))
    (ihInner : Job.Covers (.emit (insideGuard f r (followOfRegion p s f r [])) n body) s₀ s₁)
    (ihRest : Job.Covers (.goOn f [.guarded (s.key "") r body catches none] (followOfRegion p s f r []) more)
      (s₁.release (followOfRegion p s f r [])) s₂) :
    Job.Covers (.emit f n (.guarded (s.key "") r body catches none :: more)) s s₂ := by
  obtain ⟨marks,gotos⟩ := openGuardFields s n (followOfRegion p s f r [])
  have begun : Wrote s [] 0 (s.openGuard n (followOfRegion p s f r [])) := .quiet marks gotos
  have again := repeatClausesWrote p.graph c (s.openGuard n (followOfRegion p s f r []))
  rw [clauses] at again
  refine ((begun.trans again).trans ihInner.1).guard (fun m inside => ?_) ?_ ihRest ihInner.2
  · simpa [sourcesAll,sources,or_comm] using inside
  · rw [guardedJumps,Nat.zero_add,Nat.add_comm]

end

theorem Writes.covers {p : Plan} {job : Job} {s s' : State} (writes : Writes p job s s') :
    job.Covers s s' := by
  induction writes with
  | nowhere => exact .quiet rfl rfl
  | inline way rest ih => exact ih.1
  | falls way => exact .quiet rfl rfl
  | breaks way => exact .quiet (State.nameScopeFields ..).1 (State.nameScopeFields ..).2
  | continues way => exact .quiet (State.nameScopeFields ..).1 (State.nameScopeFields ..).2
  | @jumps f t s way =>
    obtain ⟨marks,gotos⟩ := s.gotoFields t
    have same : ∀ m, (s.goto t).2.mark m = s.mark m := fun m => by rw [State.mark,State.mark,marks]
    exact ⟨fun m => .inl (same m),fun m finished => .inl ((same m).symm.trans finished),gotos⟩
  | nothing => exact .quiet rfl rfl
  | each first rest ihFirst ihRest =>
    rw [Job.Covers,List.flatten_cons,sourcesAppend,jumpCountAppend]
    exact ihFirst.trans ihRest
  | ends => exact .quiet rfl rfl
  | never jump way => exact .quiet rfl rfl
  | behind jump way rest ih => exact ih.1
  | on passes rest ih => exact ih
  | last bare noBranch noSwitch alone =>
    exact ⟨statementCovers ..,by simp [State.statement,State.markSetMark]⟩
  | @plain f n t out s s' bare kind succ rest ih =>
    have all := (statementCovers s n (p.graph.node n).stmts).trans ih
    rw [← sourcesAppend,← jumpCountAppend] at all
    exact ⟨all,ih.finished (by simp [State.statement,State.markSetMark])⟩
  | branch bare kind sides start left right rest ihLeft ihRight ihRest =>
    exact coversBranch start ihLeft ihRight ihRest
  | switch bare kind start arms rest ihArms ihRest => exact coversSwitch start arms ihArms ihRest
  | pretest outside starts settled kind inner rest ihInner ihRest => exact coversPretest ihInner ihRest
  | posttest outside starts settled kind test inner rest ihInner ihRest => exact coversPosttest ihInner ihRest
  | endless outside starts settled kind test inner rest ihInner ihRest => exact coversEndless ihInner ihRest
  | cleanup outside first clean inner rest ihInner ihRest => exact coversCleanup ihInner ihRest
  | catches outside first noCleanup clauses inner handlers rest ihInner ihHandlers ihRest =>
    exact coversCatches clauses ihInner handlers ihHandlers ihRest
  | again outside known clauses inner rest ihInner ihRest => exact coversAgain clauses ihInner ihRest

end RegCode.Recovery

/-! Names of scopes and of nodes, which are all different, and what a part that comes to stand for a
node is called. -/
namespace RegCode

namespace Recovery

theorem loopNameInj {m n : NodeId} (same : loopName m = loopName n) : m = n :=
  Text.natTextInj (String.append_right_inj _ |>.mp same)

theorem switchNameInj {m n : NodeId} (same : switchName m = switchName n) : m = n :=
  Text.natTextInj (String.append_right_inj _ |>.mp same)

theorem nodeNameInj {m n : NodeId} (same : nodeName m = nodeName n) : m = n :=
  Text.natTextInj (String.append_right_inj _ |>.mp same)

theorem nodeNamed (n : NodeId) : nodeName n ≠ "" := by
  intro same
  have letters := congrArg (fun t : String => t.toList.take 1) same
  simp [nodeName] at letters

theorem namesApart (l m n : NodeId) : loopName l ≠ switchName m ∧ loopName l ≠ nodeName n ∧
    switchName m ≠ nodeName n ∧ loopName l ≠ "" ∧ switchName m ≠ "" := by
  refine ⟨?_,?_,?_,?_,?_⟩ <;>
  · intro same
    have letters := congrArg (fun t : String => t.toList.take 2) same
    simp [loopName,switchName,nodeName] at letters

variable {p : Plan} {f : Frame} {n : NodeId} {s s₁ s₂ s' : State}

theorem noPending (free : p.graph.regions = #[]) (f : Frame) (n : NodeId) :
    pendingRegion? p f n = none := by
  have none : ∀ r, p.graph.regionsAround r = [] := fun r => by
    rw [Graph.regionsAround,free]
    cases r <;> rfl
  rw [pendingRegion?,pendingRegions,none]
  rfl

namespace State

theorem placeGet (s : State) (n : NodeId) (key : Key) (m : NodeId) :
    (s.place n key).placed.get? m =
      if m = n ∧ s.placed.get? n = none then some key else s.placed.get? m := by
  unfold place Table.contains
  cases here : s.placed.get? n with
  | some k => simp
  | none => simp [Table.get?_insert]

theorem placeSome (s : State) (n : NodeId) (key : Key) : ((s.place n key).placed.get? n).isSome := by
  rw [placeGet]
  cases here : s.placed.get? n <;> simp

theorem placeNames (s : State) (n : NodeId) (key k : Key) : (s.place n key).names.get? k =
    if k = key ∧ s.placed.get? n = none ∧ n ∈ s.wanted ∧ s.names.get? key = none then some (nodeName n)
    else s.names.get? k := by
  unfold place Table.contains
  cases here : s.placed.get? n with
  | some k => simp
  | none =>
    cases named : s.names.get? key with
    | some name => simp
    | none => by_cases wanted : n ∈ s.wanted <;> simp [wanted]

theorem placeRest (s : State) (n : NodeId) (key : Key) : (s.place n key).nextKey = s.nextKey ∧
    (s.place n key).skipped = s.skipped ∧ (s.place n key).reserved = s.reserved ∧
      (s.place n key).wanted = s.wanted := by
  unfold place
  split <;> exact ⟨rfl,rfl,rfl,rfl⟩

end State

end Recovery

end RegCode
