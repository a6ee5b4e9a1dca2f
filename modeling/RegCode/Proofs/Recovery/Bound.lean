import RegCode.Proofs.Recovery.Writing
import RegCode.Proofs.Recovery.Coverage

/-! Writing ends within its bound. On the way from a node to what is written next, protected code
and loops are opened around the node, of which there are few, and then a node is met for the first
time. -/
namespace RegCode.Recovery

theorem countPLt {α : Type} {xs : List α} {p q : α → Bool} (le : ∀ x ∈ xs, p x = true → q x = true)
    {a : α} (member : a ∈ xs) (more : q a = true) (less : p a = false) :
    xs.countP p < xs.countP q := by
  induction xs with
  | nil => contradiction
  | cons x xs ih =>
    have rest := fun y inside => le y (List.mem_cons_of_mem x inside)
    rw [List.countP_cons,List.countP_cons]
    rcases List.mem_cons.mp member with rfl | member
    · have tail : xs.countP p ≤ xs.countP q := List.countP_mono_left rest
      simp only [more,less,if_true,Bool.false_eq_true,if_false]
      exact Nat.lt_succ_of_le tail
    · have tail := ih rest member
      have head := le x (List.mem_cons_self ..)
      by_cases here : p x = true
      · simp only [here,head here,if_true]
        exact Nat.succ_lt_succ tail
      · simp only [here]
        exact Nat.lt_of_lt_of_le tail (Nat.le_add_right ..)

variable {p : Plan} {e : Emit} {f : Frame} {n : NodeId} {s s' : State}

def starters (p : Plan) : List NodeId :=
  List.range p.graph.store.size ++ p.shapes.map (·.loop.header)

def unmet (p : Plan) (s : State) : Nat := (starters p).countP fun m => s.mark m == .unvisited

def unmetWith (p : Plan) (s : State) (n : NodeId) : Nat :=
  (starters p).countP fun m => s.mark m == .unvisited || m == n

def width (p : Plan) : Nat := p.graph.regions.size + 3

def need (p : Plan) (f : Frame) (n : NodeId) (s : State) : Nat :=
  unmetWith p s n * width p + (pendingRegions p f n).length +
    (if (shapeAt? p f n).isSome then 1 else 0) + 1

theorem pendingLength (p : Plan) (f : Frame) (n : NodeId) :
    (pendingRegions p f n).length ≤ p.graph.regions.size := by
  have chain : ∀ (fuel : Nat) (r : Option RegionId), (p.graph.regionChain fuel r).length ≤ fuel := by
    intro fuel
    induction fuel with
    | zero => exact fun r => Nat.le_refl 0
    | succ fuel ih =>
      intro r
      cases r with
      | none => exact Nat.zero_le _
      | some r => exact Nat.succ_le_succ (ih _)
  exact ((List.takeWhile_sublist _).length_le).trans (chain _ _)

theorem unmetMono (fewer : ∀ m, s'.mark m = .unvisited → s.mark m = .unvisited) :
    unmet p s' ≤ unmet p s :=
  List.countP_mono_left fun m _ h => by simpa using fewer m (by simpa using h)

theorem unmetWithMono (fewer : ∀ m, s'.mark m = .unvisited → s.mark m = .unvisited) (n : NodeId) :
    unmetWith p s' n ≤ unmetWith p s n := by
  refine List.countP_mono_left fun m _ h => ?_
  simp only [Bool.or_eq_true,beq_iff_eq] at h ⊢
  exact h.imp (fewer m) id

theorem unmetLt (member : n ∈ starters p) (met : s'.mark n ≠ .unvisited)
    (fewer : ∀ m, m ≠ n → s'.mark m = .unvisited → s.mark m = .unvisited) :
    unmet p s' < unmetWith p s n := by
  refine countPLt (fun m _ h => ?_) member (by simp) (by simpa using met)
  simp only [Bool.or_eq_true,beq_iff_eq] at h ⊢
  by_cases here : m = n
  · exact .inr here
  · exact .inl (fewer m here h)

theorem needFree (free : s.mark n = .unvisited) :
    need p f n s ≤ unmet p s * width p + (p.graph.regions.size + 2) := by
  have same : unmetWith p s n = unmet p s := by
    refine List.countP_congr fun m _ => ?_
    simp only [Bool.or_eq_true,beq_iff_eq]
    exact ⟨fun h => h.elim id fun here => here ▸ free,.inl⟩
  have regions := pendingLength p f n
  rw [need,same]
  split <;> omega

theorem inStarters (other : p.graph.node n ≠ {}) : n ∈ starters p := by
  refine List.mem_append_left _ (List.mem_range.mpr ?_)
  by_contra outside
  exact other (by simp [Graph.node,Array.getElem?_eq_none (Nat.le_of_not_lt outside)])

theorem jumpOutRoute {t : NodeId} {inLoop inBreakable : Bool} {scopes : List Scope} {r : Route}
    (jump : jumpOut? t inLoop inBreakable scopes = some r) :
    ∃ scope, r = .breakTo scope ∨ r = .continueTo scope := by
  induction scopes generalizing inLoop inBreakable with
  | nil => contradiction
  | cons scope scopes ih =>
    cases scope with
    | loop shape key =>
      rw [jumpOut?] at jump
      split at jump
      · exact ⟨_,.inr (Option.some.inj jump).symm⟩
      · split at jump
        · exact ⟨_,.inl (Option.some.inj jump).symm⟩
        · exact ih jump
    | switch m follow key =>
      rw [jumpOut?] at jump
      split at jump
      · exact ⟨_,.inl (Option.some.inj jump).symm⟩
      · exact ih jump
    | guarded r => exact ih jump

theorem routeInline {t : NodeId} (way : route p s f t = .inline) : s.mark t = .unvisited := by
  unfold route at way
  split at way
  · contradiction
  · cases jump : jumpOut? t false false f.scopes with
    | some r =>
      rw [jump,Option.getD_some] at way
      obtain ⟨scope,rfl | rfl⟩ := jumpOutRoute jump <;> contradiction
    | none =>
      rw [jump,Option.getD_none] at way
      split at way
      · contradiction
      · rename_i free
        simp only [Bool.or_eq_true,Bool.not_eq_true',not_or,Bool.not_eq_false] at free
        exact by simpa using (Bool.and_eq_true_iff.mp free.2).1

def Works (p : Plan) (e : Emit) (bound : Nat) : Prop :=
  ∀ f n s, need p f n s ≤ bound → ∃ out s', (e f n).from s = (out,s') ∧ Writes p (.emit f n out) s s'

def Lasts (p : Plan) (s : State) (bound : Nat) : Prop :=
  unmet p s * width p + (p.graph.regions.size + 2) ≤ bound

theorem Lasts.mono {bound : Nat} (lasts : Lasts p s bound)
    (fewer : ∀ m, s'.mark m = .unvisited → s.mark m = .unvisited) : Lasts p s' bound :=
  Nat.le_trans (Nat.add_le_add_right (Nat.mul_le_mul_right _ (unmetMono fewer)) _) lasts

theorem Wrote.fewer {xs : List Int} {j : Nat} (wrote : Wrote s xs j s') (m : NodeId)
    (free : s'.mark m = .unvisited) : s.mark m = .unvisited := by
  rcases wrote.marks m with same | finished
  · exact same.symm.trans free
  · rw [finished] at free
    contradiction

theorem lastsAfter {bound : Nat} (enough : need p f n s ≤ bound + 1) (member : n ∈ starters p)
    (met : s'.mark n ≠ .unvisited)
    (fewer : ∀ m, m ≠ n → s'.mark m = .unvisited → s.mark m = .unvisited) : Lasts p s' bound := by
  have less := Nat.mul_le_mul_right (width p) (unmetLt member met fewer)
  rw [Nat.succ_mul] at less
  rw [need] at enough
  rw [Lasts]
  have wide : width p = p.graph.regions.size + 3 := rfl
  omega

theorem goWrites {bound : Nat} (works : Works p e bound) (lasts : Lasts p s bound)
    (f : Frame) (t : Option NodeId) :
    ∃ out s', (go p e f t).from s = (out,s') ∧ Writes p (.go f t out) s s' := by
  cases t with
  | none => exact ⟨_,_,rfl,.nowhere⟩
  | some t =>
    rw [goAt]
    cases way : route p s f t with
    | inline =>
      obtain ⟨out,s',code,writes⟩ := works f t s (Nat.le_trans (needFree (routeInline way)) lasts)
      exact ⟨out,s',code,.inline way writes⟩
    | done => exact ⟨_,_,rfl,.falls way⟩
    | breakTo scope => exact ⟨_,_,rfl,.breaks way⟩
    | continueTo scope => exact ⟨_,_,rfl,.continues way⟩
    | goto => exact ⟨_,_,rfl,.jumps way⟩

theorem goOnWrites {bound : Nat} (works : Works p e bound) (lasts : Lasts p s bound)
    (f : Frame) (lead : List Piece) (follow : Option NodeId) :
    ∃ more s', (goOn p e f lead follow).from s = (lead ++ more,s') ∧
      Writes p (.goOn f lead follow more) s s' := by
  cases follow with
  | none => exact ⟨[],s,by rw [List.append_nil]; rfl,.ends⟩
  | some t =>
    rw [goOnAt]
    cases jump : Tree.endsInJump lead with
    | true =>
      rw [if_pos rfl]
      by_cases way : route p s f t = .inline
      · rw [if_pos way]
        obtain ⟨more,s',code,writes⟩ := works f t s (Nat.le_trans (needFree (routeInline way)) lasts)
        exact ⟨more,s',by rw [code],.behind jump way writes⟩
      · rw [if_neg way]
        exact ⟨[],s,by rw [List.append_nil],.never jump way⟩
    | false =>
      rw [if_neg Bool.false_ne_true]
      obtain ⟨more,s',code,writes⟩ := goWrites works lasts f (some t)
      exact ⟨more,s',by rw [code],.on jump writes⟩

theorem goEachWrites {bound : Nat} (works : Works p e bound) (lasts : Lasts p s bound)
    (jobs : List (Frame × NodeId)) :
    ∃ outs s', (goEach p e jobs).from s = (outs,s') ∧ Writes p (.each jobs outs) s s' := by
  induction jobs generalizing s with
  | nil => exact ⟨[],s,rfl,.nothing⟩
  | cons job jobs ih =>
    obtain ⟨f,t⟩ := job
    obtain ⟨out,s₁,code,writes⟩ := goWrites works lasts f (some t)
    obtain ⟨outs,s₂,codes,all⟩ := ih (lasts.mono (Wrote.fewer writes.covers))
    exact ⟨out :: outs,s₂,by simp only [goEach,fromBind,fromPure,code,codes],.each writes all⟩

/-- A node can be written from a state with the given bound on what it calls. -/
def Steps (p : Plan) (e : Emit) (f : Frame) (n : NodeId) (s : State) : Prop :=
  ∃ out s', (step p e f n).from s = (out,s') ∧ Writes p (.emit f n out) s s'

theorem leadFewer {s₀ : State} {ss : List Stmt} {lead : List Piece}
    (start : s.lead n ss = (lead,s₀)) (m : NodeId) (free : s₀.mark m = .unvisited) :
    s.mark m = .unvisited := Wrote.fewer (leadCovers start) m free

theorem enterMark (s : State) (n : NodeId) (own : String) (follow : Option NodeId) :
    (s.enter n own follow).mark n = .entered := by
  show ((s.bump.place n (s.key own)).setMark n .entered).mark n = .entered
  rw [State.markSetMark,if_pos rfl]

theorem lastsEntered {bound : Nat} {s₀ : State} {own : String} {follow : Option NodeId}
    (enough : need p f n s ≤ bound + 1) (other : p.graph.node n ≠ {})
    (fewer : ∀ m, s₀.mark m = .unvisited → s.mark m = .unvisited) :
    Lasts p (s₀.enter n own follow) bound := by
  refine lastsAfter enough (inStarters other) ?_ fun m apart free => ?_
  · rw [enterMark]
    decide
  · rw [(enterFields s₀ n own follow).1 m apart] at free
    exact fewer m free

theorem branchWrites {bound : Nat} (works : Works p e bound) (enough : need p f n s ≤ bound + 1)
    (bare : Bare p f n) (kind : (p.graph.node n).kind = .cond) : Steps p e f n s := by
  obtain ⟨⟨cond,first,second⟩,sides⟩ : ∃ x, orient p s f (p.graph.node n)
    (p.branchFollows.get? n) = x := ⟨_,rfl⟩
  obtain ⟨⟨lead,s₀⟩,start⟩ : ∃ x, s.lead n (p.graph.node n).stmts = x := ⟨_,rfl⟩
  have other : p.graph.node n ≠ {} := fun same => by rw [same] at kind; contradiction
  have lasts : Lasts p (s₀.enter n "" (p.branchFollows.get? n)) bound :=
    lastsEntered enough other (leadFewer start)
  obtain ⟨onTrue,s₁,codeTrue,left⟩ := goWrites works lasts (sideFrame f (p.branchFollows.get? n)) first
  have lasts₁ := lasts.mono (Wrote.fewer left.covers)
  obtain ⟨onFalse,s₂,codeFalse,right⟩ :=
    goWrites works lasts₁ (sideFrame f (p.branchFollows.get? n)) second
  have lasts₂ := lasts₁.mono (Wrote.fewer right.covers)
  have left' : Lasts p (s₂.leave n (p.branchFollows.get? n)) bound := lasts₂.mono fun m free => by
    rw [State.leave,State.markSetMark] at free
    split at free
    · contradiction
    · exact free
  obtain ⟨more,s₃,codeMore,rest⟩ := goOnWrites works left' f (lead ++ branchPieces (s₀.key "") n cond
    (p.branchFollows.get? n).isSome onTrue onFalse) (p.branchFollows.get? n)
  refine ⟨_,s₃,?_,.branch bare kind sides start left right rest⟩
  simp only [stepBranch bare kind,sides,start,codeTrue,codeFalse,codeMore]

theorem switchWrites {bound : Nat} (works : Works p e bound) (enough : need p f n s ≤ bound + 1)
    (bare : Bare p f n) (kind : (p.graph.node n).kind = .switch) : Steps p e f n s := by
  obtain ⟨⟨lead,s₀⟩,start⟩ : ∃ x, s.lead n (p.graph.node n).stmts = x := ⟨_,rfl⟩
  have other : p.graph.node n ≠ {} := fun same => by rw [same] at kind; contradiction
  have lasts : Lasts p (s₀.enter n (switchName n) (switchFollow p f n)) bound :=
    lastsEntered enough other (leadFewer start)
  obtain ⟨bodies,s₁,codeArms,arms⟩ := goEachWrites works lasts (switchJobs p f n s₀)
  have lasts₁ := lasts.mono (Wrote.fewer arms.covers)
  have left : Lasts p (s₁.leave n (switchFollow p f n)) bound := lasts₁.mono fun m free => by
    rw [State.leave,State.markSetMark] at free
    split at free
    · contradiction
    · exact free
  obtain ⟨more,s₂,codeMore,rest⟩ := goOnWrites works left f (lead ++ [.switch
    (s₀.key (switchName n)) n (switchValue (p.graph.node n)) (writtenArms p f n bodies)])
    (switchFollow p f n)
  refine ⟨_,s₂,?_,.switch bare kind start arms rest⟩
  simp only [stepSwitch bare kind,start,codeArms,codeMore]

theorem plainWrites {bound : Nat} (works : Works p e bound) (enough : need p f n s ≤ bound + 1)
    (bare : Bare p f n) (noBranch : (p.graph.node n).kind ≠ .cond)
    (noSwitch : (p.graph.node n).kind ≠ .switch) : Steps p e f n s := by
  by_cases alone : ∀ t, (p.graph.node n).kind = .stmt → (p.graph.node n).succs ≠ [t]
  · exact ⟨_,_,stepLast bare noBranch noSwitch alone,.last bare noBranch noSwitch alone⟩
  · simp only [not_forall,not_not] at alone
    obtain ⟨t,kind,succ⟩ := alone
    have other : p.graph.node n ≠ {} := fun same => by rw [same] at succ; contradiction
    have lasts : Lasts p (s.statement n (p.graph.node n).stmts).2 bound := by
      have wrote := statementCovers s n (p.graph.node n).stmts
      refine lastsAfter enough (inStarters other) ?_ fun m _ => wrote.fewer m
      simp [State.statement,State.markSetMark]
    obtain ⟨out,s',code,rest⟩ := goWrites works lasts f (some t)
    exact ⟨_,s',by simp only [stepPlain bare kind succ,code],.plain bare kind succ rest⟩

theorem headerStarts {shape : LoopShape} (starts : shapeAt? p f n = some shape) : n ∈ starters p := by
  have member := List.mem_of_find?_eq_some (Option.filter_eq_some_iff.mp starts).1
  exact List.mem_append_right _ (List.mem_map.mpr ⟨shape,member,(headerOfShapeAt starts).1⟩)

theorem needHeader {bound : Nat} {found shape : LoopShape} {key : Key} {stop : Option NodeId}
    (enough : need p f n s ≤ bound + 1) (starts : shapeAt? p f n = some found) (header : shape.loop.header = n)
    (fewer : ∀ m, s'.mark m = .unvisited → s.mark m = .unvisited) :
    need p { scopes := .loop shape key :: f.scopes, stop } n s' ≤ bound := by
  have unopened : shapeAt? p { scopes := .loop shape key :: f.scopes, stop } n = none := by
    simp [shapeAt?,isLoopOpen,header]
  have same : pendingRegions p { scopes := .loop shape key :: f.scopes, stop } n =
      pendingRegions p f n := rfl
  have met := Nat.mul_le_mul_right (width p) (unmetWithMono (p := p) fewer n)
  rw [need,starts,Option.isSome_some,if_pos rfl] at enough
  rw [need,unopened,same,if_neg (by simp)]
  omega

theorem openLoopFewer (m : NodeId) (free : (s.openLoop n).mark m = .unvisited) :
    s.mark m = .unvisited := by
  rwa [State.mark,(openLoopFields s n).1] at free

theorem lastsLoop {bound : Nat} {found : LoopShape} {out : List Piece} {inner : Frame} {s₀ : State}
    (enough : need p f n s ≤ bound + 1) (starts : shapeAt? p f n = some found)
    (fewer : ∀ m, s₀.mark m = .unvisited → s.mark m = .unvisited)
    (writes : Writes p (.emit inner n out) s₀ s') : Lasts p s' bound :=
  lastsAfter enough (headerStarts starts) (by rw [writes.covers.2]; decide) fun m _ free =>
    fewer m (writes.covers.1.fewer m free)

theorem finishFewer (m : NodeId) (free : (s.setMark n .finished).mark m = .unvisited) :
    s.mark m = .unvisited := by
  rw [State.markSetMark] at free
  split at free
  · contradiction
  · exact free

theorem pretestWrites {bound : Nat} (works : Works p e bound) (enough : need p f n s ≤ bound + 1)
    (outside : pendingRegion? p f n = none) {found shape : LoopShape}
    (starts : shapeAt? p f n = some found) (settled : settleShape p s found = shape)
    (kind : shape.kind = .pretest) : Steps p e f n s := by
  have entered : Lasts p ((s.openLoop n).setMark n .entered) bound := by
    refine lastsAfter enough (headerStarts starts) ?_ fun m apart free => ?_
    · rw [State.markSetMark,if_pos rfl]
      decide
    · rw [State.markSetMark,if_neg apart] at free
      exact openLoopFewer m free
  obtain ⟨body,s₁,codeBody,inner⟩ := goWrites works entered
    { scopes := loopScopes f shape n s, stop := some n } (some shape.start)
  have left := (entered.mono (Wrote.fewer inner.covers)).mono (finishFewer (n := n))
  obtain ⟨more,s₂,codeMore,rest⟩ := goOnWrites works left f [.loop (s.key (loopName n)) .pretest n n
    (some (loopTest p.graph n shape.start)) (dropLastContinue body)] shape.follow
  refine ⟨_,s₂,?_,.pretest outside starts settled kind inner rest⟩
  simp only [stepPretest outside starts settled kind,codeBody,codeMore]
  rfl

theorem posttestWrites {bound : Nat} (works : Works p e bound) (enough : need p f n s ≤ bound + 1)
    (outside : pendingRegion? p f n = none) {found shape : LoopShape}
    (starts : shapeAt? p f n = some found) (settled : settleShape p s found = shape)
    (header : shape.loop.header = n) (kind : shape.kind = .posttest) {latch : NodeId}
    (test : shape.test = some latch) : Steps p e f n s := by
  have fewer : ∀ m, (((s.openLoop n).place latch (s.key (loopName n))).setMark latch
      .entered).mark m = .unvisited → s.mark m = .unvisited := by
    intro m free
    rw [State.markSetMark] at free
    split at free
    · contradiction
    · rw [State.mark,(State.placeFields ..).1] at free
      exact openLoopFewer m free
  obtain ⟨body,s₁,codeBody,inner⟩ := works
    { scopes := loopScopes f shape n s, stop := some latch } n _
    (needHeader enough starts header fewer)
  have left := (lastsLoop enough starts fewer inner).mono (finishFewer (n := latch))
  obtain ⟨more,s₂,codeMore,rest⟩ := goOnWrites works left f [.loop (s.key (loopName n)) .posttest
    latch n (some (loopTest p.graph latch n)) (dropLastContinue body)] shape.follow
  refine ⟨_,s₂,?_,.posttest outside starts settled kind test inner rest⟩
  simp only [stepPosttest outside starts settled kind test,codeBody,codeMore]
  rfl

theorem endlessWrites {bound : Nat} (works : Works p e bound) (enough : need p f n s ≤ bound + 1)
    (outside : pendingRegion? p f n = none) {found shape : LoopShape}
    (starts : shapeAt? p f n = some found) (settled : settleShape p s found = shape)
    (header : shape.loop.header = n) (kind : shape.kind ≠ .pretest)
    (test : shape.kind = .posttest → shape.test = none) : Steps p e f n s := by
  obtain ⟨body,s₁,codeBody,inner⟩ := works { scopes := loopScopes f shape n s } n (s.openLoop n)
    (needHeader enough starts header openLoopFewer)
  have left := lastsLoop enough starts openLoopFewer inner
  obtain ⟨more,s₂,codeMore,rest⟩ := goOnWrites works left f [.loop (s.key (loopName n)) .endless
    (-1) n none (dropLastContinue body)] shape.follow
  refine ⟨_,s₂,?_,.endless outside starts settled kind test inner rest⟩
  simp only [stepEndless outside starts settled kind test,codeBody,codeMore]
  rfl

theorem loopWrites {bound : Nat} (works : Works p e bound) (enough : need p f n s ≤ bound + 1)
    (outside : pendingRegion? p f n = none) {found : LoopShape}
    (starts : shapeAt? p f n = some found) : Steps p e f n s := by
  obtain ⟨shape,settled⟩ : ∃ shape, settleShape p s found = shape := ⟨_,rfl⟩
  have header : shape.loop.header = n := by
    rw [← settled,loopOfSettled]
    exact (headerOfShapeAt starts).1
  cases kind : shape.kind with
  | pretest => exact pretestWrites works enough outside starts settled kind
  | posttest =>
    cases test : shape.test with
    | none =>
      exact endlessWrites works enough outside starts settled header (by rw [kind]; decide)
        fun _ => test
    | some latch => exact posttestWrites works enough outside starts settled header kind test
  | endless =>
    exact endlessWrites works enough outside starts settled header (by rw [kind]; decide)
      fun h => by rw [kind] at h; contradiction

theorem needGuard {bound : Nat} {r : RegionId} {follow : Option NodeId}
    (enough : need p f n s ≤ bound + 1) (outside : pendingRegion? p f n = some r)
    (fewer : ∀ m, s'.mark m = .unvisited → s.mark m = .unvisited) :
    need p (insideGuard f r follow) n s' ≤ bound := by
  have shapes : shapeAt? p (insideGuard f r follow) n = shapeAt? p f n := rfl
  have met := Nat.mul_le_mul_right (width p) (unmetWithMono (p := p) fewer n)
  have less : (pendingRegions p (insideGuard f r follow) n).length < (pendingRegions p f n).length := by
    obtain ⟨front,all⟩ := List.getLast?_eq_some_iff.mp outside
    have inner : pendingRegions p (insideGuard f r follow) n =
        (p.graph.regionsAround (p.graph.node n).region).takeWhile fun q => some r != some q := rfl
    have parts : p.graph.regionsAround (p.graph.node n).region = front ++ r ::
        (p.graph.regionsAround (p.graph.node n).region).dropWhile
          fun q => activeRegion? f.scopes != some q := by
      conv_lhs => rw [← List.takeWhile_append_dropWhile (p := fun q => activeRegion? f.scopes != some q)
        (l := p.graph.regionsAround (p.graph.node n).region)]
      rw [show List.takeWhile _ _ = front ++ [r] from all,List.append_assoc]
      rfl
    rw [inner,all,parts,List.takeWhile_append,List.length_append]
    split
    · simp
    · have short := (List.takeWhile_sublist (fun q => some r != some q) (l := front)).length_le
      simp only [List.length_singleton]
      omega
  rw [need] at enough
  rw [need,shapes]
  omega

theorem openGuardFewer (follow : Option NodeId) (m : NodeId)
    (free : (s.openGuard n follow).mark m = .unvisited) : s.mark m = .unvisited := by
  rwa [State.mark,(openGuardFields s n follow).1] at free

theorem guardStarts {r : RegionId} (outside : pendingRegion? p f n = some r) : n ∈ starters p := by
  refine inStarters fun same => ?_
  have empty : pendingRegions p f n = [] := by
    rw [pendingRegions,same,Graph.regionsAround]
    cases p.graph.regions.size <;> rfl
  rw [pendingRegion?,empty] at outside
  contradiction

theorem lastsGuard {bound : Nat} {r : RegionId} {out : List Piece} {inner : Frame} {s₀ : State}
    (enough : need p f n s ≤ bound + 1) (outside : pendingRegion? p f n = some r)
    (fewer : ∀ m, s₀.mark m = .unvisited → s.mark m = .unvisited)
    (writes : Writes p (.emit inner n out) s₀ s') : Lasts p s' bound :=
  lastsAfter enough (guardStarts outside) (by rw [writes.covers.2]; decide) fun m _ free =>
    fewer m (writes.covers.1.fewer m free)

theorem releaseFewer (follow : Option NodeId) (m : NodeId)
    (free : (s.release follow).mark m = .unvisited) : s.mark m = .unvisited := free

theorem cleanupWrites {bound : Nat} (works : Works p e bound) (enough : need p f n s ≤ bound + 1)
    {r : RegionId} (outside : pendingRegion? p f n = some r) (first : s.regions.get? r = none)
    {entry : NodeId} {code : List Stmt} {copy : List Loc}
    (clean : cleanup? p r (ownGroups p r) (guardFollow p s f r) = some (entry,code,copy)) :
    Steps p e f n s := by
  have fewer : ∀ m, ((s.openGuard n (guardFollow p s f r)).cleaned r entry copy (s.key "")).mark m =
      .unvisited → s.mark m = .unvisited := by
    intro m free
    rw [State.cleaned] at free
    have free := finishFewer m free
    rw [State.mark,(State.placeFields ..).1] at free
    exact openGuardFewer (guardFollow p s f r) m free
  obtain ⟨body,s₁,codeBody,inner⟩ := works (insideGuard f r (guardFollow p s f r)) n _
    (needGuard enough outside fewer)
  have left := (lastsGuard enough outside fewer inner).mono
    fun m => releaseFewer (guardFollow p s f r) m
  obtain ⟨more,s₂,codeMore,rest⟩ := goOnWrites works left f
    [.guarded (s.key "") r body [] (some [.stmts .none entry code])] (guardFollow p s f r)
  refine ⟨_,s₂,?_,.cleanup outside first clean inner rest⟩
  simp only [stepCleanup outside first clean,codeBody,codeMore]
  rfl

theorem catchesWrites {bound : Nat} (works : Works p e bound) (enough : need p f n s ≤ bound + 1)
    {r : RegionId} (outside : pendingRegion? p f n = some r) (first : s.regions.get? r = none)
    (noCleanup : cleanup? p r (ownGroups p r) (guardFollow p s f r) = none) : Steps p e f n s := by
  obtain ⟨⟨heads,s₀⟩,clauses⟩ : ∃ x, (openClauses p.graph (ownGroups p r)).from
    (s.openGuard n (guardFollow p s f r)) = x := ⟨_,rfl⟩
  have fewer : ∀ m, (s₀.openRegion r (.catches heads)).mark m = .unvisited →
      s.mark m = .unvisited := by
    intro m free
    have marks := (openClausesFields p.graph (ownGroups p r)
      (s.openGuard n (guardFollow p s f r))).1
    rw [clauses] at marks
    refine openGuardFewer (n := n) (guardFollow p s f r) m ?_
    rw [State.mark,← marks]
    exact free
  obtain ⟨body,s₁,codeBody,inner⟩ := works (insideGuard f r (guardFollow p s f r)) n _
    (needGuard enough outside fewer)
  have lasts := lastsGuard enough outside fewer inner
  obtain ⟨bodies,s₂,codeHandlers,handlers⟩ := goEachWrites works lasts
    (heads.map fun h => (outsideGuard f (guardFollow p s f r),h.node))
  have left := (lasts.mono (Wrote.fewer handlers.covers)).mono
    fun m => releaseFewer (guardFollow p s f r) m
  obtain ⟨more,s₃,codeMore,rest⟩ := goOnWrites works left f
    [.guarded (s.key "") r body (heads.zip bodies) none] (guardFollow p s f r)
  refine ⟨_,s₃,?_,.catches outside first noCleanup clauses inner handlers rest⟩
  simp only [stepCatches outside first noCleanup,clauses,codeBody,codeHandlers,codeMore]
  rfl

theorem againWrites {bound : Nat} (works : Works p e bound) (enough : need p f n s ≤ bound + 1)
    {r : RegionId} (outside : pendingRegion? p f n = some r) {c : Clauses}
    (known : s.regions.get? r = some c) : Steps p e f n s := by
  obtain ⟨⟨catches,s₀⟩,clauses⟩ : ∃ x, (repeatClauses p.graph c).from
    (s.openGuard n (followOfRegion p s f r [])) = x := ⟨_,rfl⟩
  have fewer : ∀ m, s₀.mark m = .unvisited → s.mark m = .unvisited := by
    intro m free
    have wrote := repeatClausesWrote p.graph c (s.openGuard n (followOfRegion p s f r []))
    rw [clauses] at wrote
    exact openGuardFewer _ m (wrote.fewer m free)
  obtain ⟨body,s₁,codeBody,inner⟩ := works (insideGuard f r (followOfRegion p s f r [])) n s₀
    (needGuard enough outside fewer)
  have left := (lastsGuard enough outside fewer inner).mono
    fun m => releaseFewer (followOfRegion p s f r []) m
  obtain ⟨more,s₂,codeMore,rest⟩ := goOnWrites works left f
    [.guarded (s.key "") r body catches none] (followOfRegion p s f r [])
  refine ⟨_,s₂,?_,.again outside known clauses inner rest⟩
  simp only [stepAgain outside known,clauses,codeBody,codeMore]
  rfl

theorem emitWorks (p : Plan) (bound : Nat) : Works p (emit p bound) bound := by
  induction bound with
  | zero =>
    intro f n s enough
    rw [need] at enough
    omega
  | succ bound works =>
    intro f n s enough
    show Steps p (emit p bound) f n s
    cases outside : pendingRegion? p f n with
    | some r =>
      cases known : s.regions.get? r with
      | some c => exact againWrites works enough outside known
      | none =>
        cases clean : cleanup? p r (ownGroups p r) (guardFollow p s f r) with
        | some parts => exact cleanupWrites works enough outside known clean
        | none => exact catchesWrites works enough outside known clean
    | none =>
      cases starts : shapeAt? p f n with
      | some found => exact loopWrites works enough outside starts
      | none =>
        cases kind : (p.graph.node n).kind with
        | cond => exact branchWrites works enough ⟨outside,starts⟩ kind
        | switch => exact switchWrites works enough ⟨outside,starts⟩ kind
        | stmt | ret | throw =>
          exact plainWrites works enough ⟨outside,starts⟩ (by rw [kind]; decide)
            (by rw [kind]; decide)

end RegCode.Recovery
