import RegCode.Proofs.Chains.Evaluation
import RegCode.Proofs.Chains.Maintenance

/-! The order in which a node acts and looks at memory, while values are substituted. A value that is
substituted is evaluated later, past what lies between it and its use and what the use evaluates before
it. Only there two steps may change places. -/
namespace RegCode.Analysed

open Chains

/-! ### Steps that change places -/

/-- Lists of steps where blocks have changed places, none of whose steps clash. -/
inductive Reordered (clash : Step → Step → Prop) : List Step → List Step → Prop where
  | none {l} : Reordered clash l l
  | swap {l} {pre left right post : List Step} (before : Reordered clash l (pre ++ (left ++ right) ++ post))
      (apart : ∀ x ∈ left, ∀ y ∈ right, ¬clash x y) : Reordered clash l (pre ++ (right ++ left) ++ post)

def effects (l : List Step) : List Step := l.filter Step.acts

def bothAct (x y : Step) : Prop := x.acts ∧ y.acts

def disturb (x y : Step) : Prop := x.looks ∧ y.changes ∨ x.changes ∧ y.looks

theorem Reordered.mono {clash clash' : Step → Step → Prop} (fewer : ∀ x y, clash' x y → clash x y)
    {l l' : List Step} (moved : Reordered clash l l') : Reordered clash' l l' := by
  induction moved with
  | none => exact .none
  | swap _ apart ih => exact .swap ih fun x hx y hy clash => apart x hx y hy (fewer x y clash)

theorem Reordered.effects {l l' : List Step} (moved : Reordered bothAct l l') :
    effects l' = effects l := by
  induction moved with
  | none => rfl
  | @swap pre left right post before apart ih =>
    rw [← ih]
    have one : left.filter Step.acts = [] ∨ right.filter Step.acts = [] := by
      by_contra both
      simp only [not_or] at both
      obtain ⟨x,hx⟩ := List.exists_mem_of_ne_nil _ both.1
      obtain ⟨y,hy⟩ := List.exists_mem_of_ne_nil _ both.2
      rw [List.mem_filter] at hx hy
      exact apart x hx.1 y hy.1 ⟨hx.2,hy.2⟩
    unfold Analysed.effects
    simp only [List.filter_append]
    rcases one with none | none <;> simp [none]

/-! ### Looking at a world -/

section World

variable {W V : Type} (change : Step → W → W) (look : Step → W → V)

def run : List Step → W → List (Step × V) × W
  | [], w => ([],w)
  | st :: rest, w =>
    let (seen,w') := run rest (if st.changes then change st w else w)
    (if st.looks then (st,look st w) :: seen else seen,w')

theorem runAppend (l l' : List Step) (w : W) : run change look (l ++ l') w =
    ((run change look l w).1 ++ (run change look l' (run change look l w).2).1,
      (run change look l' (run change look l w).2).2) := by
  induction l generalizing w with
  | nil => rfl
  | cons st l ih =>
    rw [List.cons_append,run,ih,run]
    dsimp only
    split <;> rfl

theorem runStill {l : List Step} (still : ∀ st ∈ l, ¬st.changes) (w : W) : (run change look l w).2 = w := by
  induction l with
  | nil => rfl
  | cons st l ih =>
    obtain ⟨here,there⟩ := List.forall_mem_cons.mp still
    rw [run,if_neg here]
    exact ih there

theorem runBlind {l : List Step} (blind : ∀ st ∈ l, ¬st.looks) (w : W) : (run change look l w).1 = [] := by
  induction l generalizing w with
  | nil => rfl
  | cons st l ih =>
    obtain ⟨here,there⟩ := List.forall_mem_cons.mp blind
    rw [run]
    dsimp only
    rw [if_neg here]
    exact ih there _

theorem runSwap {left right : List Step} (apart : ∀ x ∈ left, ∀ y ∈ right, ¬bothAct x y ∧ ¬disturb x y) (w : W) :
    (run change look (right ++ left) w).1.Perm (run change look (left ++ right) w).1 ∧
      (run change look (right ++ left) w).2 = (run change look (left ++ right) w).2 := by
  rw [runAppend,runAppend]
  by_cases moves : ∃ x ∈ left, x.changes
  · obtain ⟨x,inside,changes⟩ := moves
    have still : ∀ y ∈ right, ¬y.changes := fun y member changes' =>
      (apart x inside y member).1 ⟨Step.actsOfChanges changes,Step.actsOfChanges changes'⟩
    have blind : ∀ y ∈ right, ¬y.looks := fun y member looks =>
      (apart x inside y member).2 (.inr ⟨changes,looks⟩)
    simp [runStill change look still,runBlind change look blind]
  · have still : ∀ x ∈ left, ¬x.changes := fun x inside changes => moves ⟨x,inside,changes⟩
    by_cases moves' : ∃ y ∈ right, y.changes
    · obtain ⟨y,inside,changes⟩ := moves'
      have blind : ∀ x ∈ left, ¬x.looks := fun x member looks =>
        (apart x member y inside).2 (.inl ⟨looks,changes⟩)
      simp [runStill change look still,runBlind change look blind]
    · have still' : ∀ y ∈ right, ¬y.changes := fun y inside changes => moves' ⟨y,inside,changes⟩
      simp only [runStill change look still,runStill change look still',and_true]
      exact List.perm_append_comm

theorem Reordered.run {l l' : List Step} (moved : Reordered (fun x y => bothAct x y ∨ disturb x y) l l') (w : W) :
    (run change look l' w).1.Perm (run change look l w).1 ∧ (run change look l' w).2 = (run change look l w).2 := by
  induction moved with
  | none => exact ⟨.refl _,rfl⟩
  | @swap pre left right post before apart ih =>
    have inner := runSwap change look (fun x hx y hy => not_or.mp (apart x hx y hy))
      (Analysed.run change look pre w).2
    obtain ⟨seen,same⟩ := ih
    rw [runAppend _ _ (pre ++ (left ++ right)),runAppend _ _ pre] at seen same
    rw [runAppend _ _ (pre ++ (right ++ left)),runAppend _ _ pre,inner.2]
    exact ⟨.trans (.append_right _ (.append_left _ inner.1)) seen,same⟩

end World

/-! ### One substitution -/

variable {a b : Analysed} {u d : Loc} {t : Stmt} {v : VarId} {value : Expr}

def taken (drop : Bool) (d u : Loc) (f : Stmt → Stmt) (s : Stmt) : Option Stmt :=
  if drop ∧ s.loc = d then none else some (if s.loc = u then f s else s)

structure Taken (a : Analysed) (v : VarId) (d u : Loc) (value : Expr) (c : Analysed) (drop : Bool) (f : Stmt → Stmt) :
    Prop where
  rpo : c.graph.rpo = a.graph.rpo
  drops : value.isConstant = false → drop = true
  locs : ∀ s, (f s).loc = s.loc
  steps : ∀ s, (f s).act.steps = s.act.steps.flatMap (Step.subst v value.steps)
  stmts : ∀ i ∈ a.graph.rpo, (c.graph.node i).stmts = (a.graph.node i).stmts.filterMap (taken drop d u f)

theorem Relinked.unused (relinked : a.Relinked u v d value b) (tied : a.Tied) (passed : a.Checked u v d value)
    (unread : v ∉ value.vars) (other : value.isConstant = false) : b.chains.uses v d = [] := by
  have used : u ∈ a.chains.uses v d :=
    (tied.agree v u d).mpr (by rw [passed.only]; exact List.mem_singleton_self d)
  have single : ∀ l ∈ a.chains.uses v d, l = u := by
    intro l member
    have short := passed.once.resolve_left (by simp [other])
    obtain ⟨w,only⟩ := List.length_eq_one_iff.mp
      (Nat.le_antisymm short (List.length_pos_of_mem member))
    rw [only,List.mem_singleton] at used member
    rw [used,member]
  refine List.eq_nil_iff_forall_not_mem.mpr fun l member => ?_
  rcases (relinked.usesOf v d l).mp member with ⟨old,apart⟩ | ⟨-,read,-⟩
  · exact apart rfl (single l old)
  · exact unread read

theorem Tied.taken (tied : a.Tied) {p : Point} (here : a.graph.StmtAt p t) (passed : a.Checked t.loc v d value) :
    ∃ drop, a.Taken v d t.loc value (a.substitute t.loc v d value) drop (Stmt.replace v value) := by
  have linked : d ∈ a.chains.defsOfUse v t.loc := by
    rw [passed.only]; exact List.mem_singleton_self d
  have unread := passed.unread tied.agree (tied.links v t.loc d linked)
  have relinked := tied.relinks here passed unread
  have steps : ∀ s : Stmt, (s.replace v value).act.steps = s.act.steps.flatMap (Step.subst v value.steps) :=
    fun s => s.act.stepsReplace
  rw [substituteRelinked]
  split
  · have homed : (a.relinked t.loc v d value).Homed := by
      have rewritten := a.thinsModifyStmt t.loc (f := Stmt.replace v value) (fun _ => rfl)
        fun r w defines => (Action.defMapExprs _ r.act).symm.trans defines
      have home : (a.relinked t.loc v d value).chains.home =
          (a.modifyStmt t.loc (Stmt.replace v value)).chains.home := by
        rw [relinked.home,chainsModifyStmt]
      exact (thinsOfChains _ home).homed (rewritten.homed tied.homed)
    have fits := relinked.tied tied here rfl passed homed
    obtain ⟨i,r,x,origin,rfl,act⟩ := tied.homed.assignment passed.assigns
    have defines : r.def? = some v := by rw [Stmt.def?,act]; rfl
    have stays := relinked.edited.rewriteAt.mpr ⟨r,origin,if_neg passed.apart⟩
    have removed := fits.removed stays defines
    refine ⟨true,removed.edited.rpo.trans relinked.edited.rpo,fun _ => rfl,fun _ => rfl,steps,fun i member => ?_⟩
    rw [removed.edited.stmts i (relinked.edited.rpo ▸ member),relinked.edited.stmts i member,
      List.filterMap_filterMap]
    refine List.filterMap_congr fun s _ => ?_
    rw [Stmt.rewrite,Option.bind_some,Stmt.strike,Analysed.taken]
    have loc : (if s.loc = t.loc then s.replace v value else s).loc = s.loc := by split <;> rfl
    rw [loc]
    simp
  · rename_i left
    refine ⟨false,relinked.edited.rpo,fun other => absurd ?_ left,fun _ => rfl,steps,fun i member => ?_⟩
    · rw [relinked.unused tied passed unread other]
      rfl
    · rw [relinked.edited.stmts i member]
      exact List.filterMap_congr fun s _ => rfl

theorem Tied.takenTried (tied : a.Tied) (found : a.stmt? u = some t) (picked : a.candidate? u t v = some (d,value))
    (o : PropagateOptions) (n : Nat) :
    ∃ drop f, a.Taken v d u value (propagateVar o u (a,n) v).1 drop f := by
  obtain ⟨p,here,rfl⟩ := tied.toGrounded.stmt.mp found
  obtain ⟨drop,taken⟩ := tied.taken here (checked picked)
  unfold propagateVar
  dsimp only
  rw [found]
  dsimp only
  rw [picked]
  dsimp only
  split
  · refine ⟨drop,fun s => (s.replace v value).fold.1,?_⟩
    have fits := (tied.substitute here (checked picked)).1
    have made : t.replace v value ∈ ((a.substitute t.loc v d value).graph.node p.node).stmts := by
      rw [taken.stmts p.node here.1]
      refine List.mem_filterMap.mpr ⟨t,List.mem_of_getElem? here.2,?_⟩
      rw [Analysed.taken,if_neg fun gone => (checked picked).apart gone.2.symm,if_pos rfl]
    obtain ⟨k,place⟩ := List.getElem?_of_mem made
    have edited := fits.toGrounded.editedModify (p := ⟨p.node,k⟩) (s := t.replace v value)
      ⟨taken.rpo ▸ here.1,place⟩ (f := fun s => s.fold.1) (fun _ => rfl) fun s => s.act.defFold
    refine ⟨edited.rpo.trans taken.rpo,taken.drops,fun _ => rfl,fun s => ?_,fun i member => ?_⟩
    · exact (Action.stepsFold _).trans (taken.steps s)
    · have again := edited.stmts i (taken.rpo ▸ member)
      rw [taken.stmts i member,List.filterMap_filterMap] at again
      refine again.trans (List.filterMap_congr fun s _ => ?_)
      unfold Analysed.taken
      split
      · rfl
      · rw [Option.bind_some,Stmt.rewrite]
        by_cases same : s.loc = t.loc
        · rw [if_pos same,if_pos same]
          exact congrArg some (if_pos same)
        · rw [if_neg same,if_neg same]
          exact congrArg some (if_neg same)
  · exact ⟨drop,_,taken⟩

structure Guarded (a : Analysed) (u : Loc) (t : Stmt) (v : VarId) (d : Loc) (value : Expr) (i : NodeId) : Prop where
  once : value.isLeaf = true ∨ t.uses.count v ≤ 1
  homeDef : a.chains.home.get? d = some i
  homeUse : a.chains.home.get? u = some i
  moves : canMove (a.graph.node i).stmts d u value = true
  late : nestedEffects t = false

theorem guarded (picked : a.candidate? u t v = some (d,value))
    (shows : value.hasEffects = true ∨ value.readsMemory = true) : ∃ i, a.Guarded u t v d value i := by
  obtain ⟨i,homeDef,homeUse,moves,late⟩ := (candidatePicked picked).placed shows
  exact ⟨i,(candidatePicked picked).few,homeDef,homeUse,moves,late⟩

theorem canMoveParts {ss : List Stmt} (moves : canMove ss d u value = true) :
    ∃ (front : List Stmt) (r : Stmt) (between : List Stmt) (t : Stmt) (back : List Stmt),
    ss = front ++ r :: (between ++ t :: back) ∧ r.loc = d ∧ t.loc = u ∧
      (∀ s ∈ between, s.hasEffects = false) ∧ (value.hasEffects = true → between = []) := by
  unfold canMove at moves
  dsimp only at moves
  split at moves
  · contradiction
  · rename_i there
    simp only [Bool.or_eq_true,Bool.not_eq_true',not_or,List.isEmpty_iff,Bool.not_eq_false] at there
    obtain ⟨some,use⟩ := there
    obtain ⟨s,held,stops⟩ : ∃ s ∈ ss, (s.loc != d) = false := by
      simpa [List.dropWhile_eq_nil_iff] using some
    obtain ⟨r,after,first,parts⟩ := takeWhileStop (p := fun s : Stmt => s.loc != d) held stops
    have fromDef : ss.dropWhile (·.loc != d) = r :: after :=
      List.append_cancel_left ((List.takeWhile_append_dropWhile ..).trans parts)
    rw [fromDef,List.drop_succ_cons,List.drop_zero] at moves use
    obtain ⟨s',held',loc'⟩ := List.any_eq_true.mp use
    obtain ⟨t,back,second,parts'⟩ := takeWhileStop (p := fun s : Stmt => s.loc != u) held'
      (by simpa using loc')
    refine ⟨_,r,_,t,back,parts.trans (by rw [← parts']),by simpa using first,by simpa using second,?_,?_⟩
    · split at moves
      · rw [List.isEmpty_iff.mp moves]
        exact nofun
      · intro s member
        have free := List.all_eq_true.mp moves s member
        simp only [Bool.not_eq_true',Bool.or_eq_false_iff] at free
        exact free.1
    · intro acts
      rw [if_pos acts] at moves
      exact List.isEmpty_iff.mp moves

def evaluation (a : Analysed) (i : NodeId) : List Step := (a.graph.node i).stmts.flatMap (·.act.steps)

def shown (l : List Step) : List Step := l.filter Step.shows

def events (a : Analysed) (i : NodeId) : List Step := shown (a.evaluation i)

/-- In one node a value changes places with what shows between it and its use, and with what the use shows
before it; what lies between does not act, and nothing does if the value acts. -/
def Moves (a c : Analysed) (value lead : List Step) : Prop :=
  ∃ i ∈ a.graph.rpo, (∀ j ∈ a.graph.rpo, j ≠ i → c.events j = a.events j) ∧
    ∃ pre between post, a.events i = pre ++ (shown value ++ (between ++ shown lead)) ++ post ∧
      c.events i = pre ++ (between ++ shown lead ++ shown value) ++ post ∧
      (∀ st ∈ between, ¬st.acts) ∧ ((∃ st ∈ value, st.acts) → between = [])

variable {c : Analysed} {drop : Bool} {f : Stmt → Stmt}

theorem Taken.evaluation (took : a.Taken v d u value c drop f) {i : NodeId} (member : i ∈ a.graph.rpo) :
    c.evaluation i = (a.graph.node i).stmts.flatMap fun s =>
      (Analysed.taken drop d u f s).elim [] (·.act.steps) := by
  unfold Analysed.evaluation
  rw [took.stmts i member]
  generalize (a.graph.node i).stmts = ss
  induction ss with
  | nil => rfl
  | cons s ss ih =>
    rw [List.filterMap_cons,List.flatMap_cons,← ih]
    cases Analysed.taken drop d u f s <;> rfl

theorem takenPlain {s : Stmt} (other : s.loc ≠ d) (other' : s.loc ≠ u) :
    (taken drop d u f s).elim [] (·.act.steps) = s.act.steps := by
  rw [taken,if_neg fun gone => other gone.2,if_neg other']
  rfl

theorem takenOthers {ss : List Stmt} (other : ∀ s ∈ ss, s.loc ≠ d ∧ s.loc ≠ u) :
    (ss.flatMap fun s => (taken drop d u f s).elim [] (·.act.steps)) = ss.flatMap (·.act.steps) :=
  List.flatMap_congr fun s member => takenPlain (other s member).1 (other s member).2

theorem Taken.quiet (took : a.Taken v d u value c drop f) (quiet : shown value.steps = [])
    (defines : ∀ i ∈ a.graph.rpo, ∀ s ∈ (a.graph.node i).stmts, s.loc = d → s.act.steps = value.steps)
    {i : NodeId} (member : i ∈ a.graph.rpo) : c.events i = a.events i := by
  have put : ∀ l : List Step, shown (l.flatMap (Step.subst v value.steps)) = shown l := by
    intro l
    induction l with
    | nil => rfl
    | cons st l ih =>
      unfold shown at quiet ih ⊢
      rw [List.flatMap_cons,List.filter_append,ih,Step.subst]
      split
      · rename_i read
        rw [quiet,read]
        rfl
      · rw [← List.filter_append]
        rfl
  unfold events
  rw [took.evaluation member,Analysed.evaluation]
  unfold shown
  rw [List.filter_flatMap,List.filter_flatMap]
  refine List.flatMap_congr fun s held => ?_
  unfold taken
  split
  · rename_i gone
    rw [defines i member s held gone.2]
    exact quiet.symm
  · split
    · rw [Option.elim_some,took.steps]
      exact put _
    · rfl

theorem Taken.movesQuiet (took : a.Taken v d t.loc value c drop f) (quiet : shown value.steps = [])
    (defines : ∀ i ∈ a.graph.rpo, ∀ s ∈ (a.graph.node i).stmts, s.loc = d → s.act.steps = value.steps)
    {p : Point} (here : a.graph.StmtAt p t) (reads : v ∈ t.uses) : Moves a c value.steps (t.lead v) := by
  have same := fun {i} => took.quiet quiet defines (i := i)
  obtain ⟨rest,whole⟩ := Stmt.stepsSplit reads
  obtain ⟨front,back,parts⟩ := List.append_of_mem (List.mem_of_getElem? here.2)
  have events : a.events p.node = shown (front.flatMap (·.act.steps)) ++ shown (t.lead v) ++
      shown (rest ++ back.flatMap (·.act.steps)) := by
    unfold Analysed.events Analysed.evaluation
    rw [parts,List.flatMap_append,List.flatMap_cons,whole]
    simp [shown,Step.shows,Step.looks,Step.acts]
  refine ⟨p.node,here.1,fun j member _ => same member,shown (front.flatMap (·.act.steps)),[],
    shown (rest ++ back.flatMap (·.act.steps)),?_,?_,fun _ member => absurd member List.not_mem_nil,
    fun _ => rfl⟩
  · rw [quiet]
    simpa using events
  · rw [quiet,same here.1]
    simpa using events

theorem substNone {l : List Step} {steps : List Step} (none : Step.read v ∉ l) :
    l.flatMap (Step.subst v steps) = l := by
  induction l with
  | nil => rfl
  | cons st l ih =>
    rw [List.mem_cons,not_or] at none
    rw [List.flatMap_cons,ih none.2,Step.subst,if_neg fun same => none.1 same.symm]
    rfl

theorem stepsOnce (reads : v ∈ t.uses) (once : t.uses.count v ≤ 1) : ∃ rest,
    t.act.steps = t.lead v ++ .read v :: rest ∧ Step.read v ∉ t.lead v ∧ Step.read v ∉ rest := by
  obtain ⟨rest,whole⟩ := Stmt.stepsSplit reads
  refine ⟨rest,whole,fun early => ?_,fun late => ?_⟩
  · have := List.mem_takeWhile_imp early
    simp at this
  · have again : v ∈ rest.filterMap Step.var? := List.mem_filterMap.mpr ⟨_,late,rfl⟩
    have count := List.count_pos_iff.mpr again
    rw [Stmt.uses,Action.usesSteps,whole,List.filterMap_append,List.filterMap_cons_some (show Step.var? (.read v) = some v from rfl),
      List.count_append,List.count_cons_self] at once
    omega

theorem Tied.parts (tied : a.Tied) {p q : Point} {r : Stmt} (here : a.graph.StmtAt p t) (origin : a.graph.StmtAt q r)
    {i : NodeId} (guard : a.Guarded t.loc t v r.loc value i) : i ∈ a.graph.rpo ∧ ∃ front between back,
      (a.graph.node i).stmts = front ++ r :: (between ++ t :: back) ∧
        (∀ s ∈ between, s.hasEffects = false) ∧ (value.hasEffects = true → between = []) := by
  obtain ⟨member,-⟩ := tied.homed r.loc i guard.homeDef
  obtain ⟨front,r',between,t',back,parts,left,right,idle,adjacent⟩ := canMoveParts guard.moves
  have placed : ∀ s ∈ (a.graph.node i).stmts, ∃ k, a.graph.StmtAt ⟨i,k⟩ s := fun s held =>
    let ⟨k,place⟩ := List.getElem?_of_mem held
    ⟨k,member,place⟩
  obtain ⟨k,there⟩ := placed r' (by rw [parts]; simp)
  obtain ⟨-,rfl⟩ := origin.unique tied.distinct there left.symm
  obtain ⟨l,there'⟩ := placed t' (by rw [parts]; simp)
  obtain ⟨-,rfl⟩ := here.unique tied.distinct there' right.symm
  exact ⟨member,front,between,back,parts,idle,adjacent⟩

theorem Taken.movesShown (took : a.Taken v d t.loc value c true f) (distinct : a.graph.LocsDistinct) {r : Stmt}
    (loc : r.loc = d) (apart : d ≠ t.loc) (defines : r.act.steps = value.steps) (reads : v ∈ t.uses)
    (once : t.uses.count v ≤ 1) {i : NodeId} (member : i ∈ a.graph.rpo) {front between back : List Stmt}
    (parts : (a.graph.node i).stmts = front ++ r :: (between ++ t :: back))
    (idle : ∀ s ∈ between, s.hasEffects = false) (adjacent : value.hasEffects = true → between = []) :
    Moves a c value.steps (t.lead v) := by
  have nodup := Graph.nodeLocsNodup distinct member
  have inside : d ∈ (a.graph.node i).stmts.map (·.loc) ∧ t.loc ∈ (a.graph.node i).stmts.map (·.loc) := by
    rw [parts]
    simp [loc]
  rw [parts] at nodup
  rw [List.map_append,List.map_cons,List.map_append,List.map_cons,loc] at nodup
  have first := (List.nodup_cons.mp (List.nodup_middle.mp nodup)).1
  rw [← List.cons_append,← List.append_assoc] at nodup
  have second := (List.nodup_cons.mp (List.nodup_middle.mp nodup)).1
  simp only [List.mem_append,List.mem_cons,not_or] at first second
  have plain : ∀ {ss : List Stmt}, d ∉ ss.map (·.loc) → t.loc ∉ ss.map (·.loc) →
      ∀ s ∈ ss, s.loc ≠ d ∧ s.loc ≠ t.loc := fun left right s held =>
    ⟨fun same => left (List.mem_map.mpr ⟨s,held,same⟩),fun same => right (List.mem_map.mpr ⟨s,held,same⟩)⟩
  obtain ⟨rest,whole,early,late⟩ := stepsOnce reads once
  have used : (f t).act.steps = t.lead v ++ value.steps ++ rest := by
    rw [took.steps,whole,List.flatMap_append,List.flatMap_cons,substNone early,substNone late,Step.subst,
      if_pos rfl,List.append_assoc]
  have events : a.events i = shown (front.flatMap (·.act.steps)) ++ (shown value.steps ++
      (shown (between.flatMap (·.act.steps)) ++ shown (t.lead v))) ++
        shown (rest ++ back.flatMap (·.act.steps)) := by
    unfold Analysed.events Analysed.evaluation
    rw [parts]
    simp only [List.flatMap_append,List.flatMap_cons,defines,whole]
    simp [shown,Step.shows,Step.looks,Step.acts]
  have events' : c.events i = shown (front.flatMap (·.act.steps)) ++
      (shown (between.flatMap (·.act.steps)) ++ shown (t.lead v) ++ shown value.steps) ++
        shown (rest ++ back.flatMap (·.act.steps)) := by
    unfold Analysed.events
    rw [took.evaluation member,parts]
    simp only [List.flatMap_append,List.flatMap_cons]
    rw [takenOthers (plain first.1 second.1.1),takenOthers (plain first.2.1 second.1.2.2),
      takenOthers (plain first.2.2.2 second.2),taken,if_pos ⟨rfl,loc⟩,taken,
      if_neg fun gone => apart gone.2.symm,if_pos rfl]
    simp only [Option.elim_none,Option.elim_some,used]
    simp [shown]
  refine ⟨i,member,fun j there other => ?_,_,_,_,events,events',?_,?_⟩
  · unfold Analysed.events
    rw [took.evaluation there]
    refine congrArg shown (takenOthers fun s held => ⟨fun same => other ?_,fun same => other ?_⟩)
    · exact Graph.nodeOfLoc distinct there member (List.mem_map.mpr ⟨s,held,same⟩) inside.1
    · exact Graph.nodeOfLoc distinct there member (List.mem_map.mpr ⟨s,held,same⟩) inside.2
  · intro st held acts
    obtain ⟨s,among,step⟩ := List.mem_flatMap.mp (List.mem_filter.mp held).1
    rw [Action.stepsIdle (idle s among) st step] at acts
    contradiction
  · rintro ⟨st,held,acts⟩
    have effects : value.hasEffects = true := by
      rw [Expr.effectsSteps]
      exact List.any_eq_true.mpr ⟨st,held,acts⟩
    rw [adjacent effects]
    rfl

theorem leafQuiet (leaf : value.isLeaf = true ∨ value.isConstant = true) : shown value.steps = [] := by
  cases value <;> simp [Expr.isLeaf,Expr.isConstant] at leaf <;> rfl

theorem Tied.candidateReads (tied : a.Tied) (found : a.stmt? u = some t)
    (picked : a.candidate? u t v = some (d,value)) : v ∈ t.uses := by
  obtain ⟨p,here,rfl⟩ := tied.toGrounded.stmt.mp found
  have linked : d ∈ a.chains.defsOfUse v t.loc := by
    rw [(checked picked).only]
    exact List.mem_singleton_self d
  obtain ⟨q,t',there,loc,use⟩ := (tied.linked linked).1
  obtain ⟨-,rfl⟩ := there.unique tied.distinct here loc
  exact use

theorem Tied.moves (tied : a.Tied) (found : a.stmt? u = some t) (picked : a.candidate? u t v = some (d,value))
    (o : PropagateOptions) (n : Nat) : Moves a (propagateVar o u (a,n) v).1 value.steps (t.lead v) := by
  obtain ⟨drop,f,took⟩ := tied.takenTried found picked o n
  generalize (propagateVar o u (a,n) v).1 = c at took
  have passed := checked picked
  obtain ⟨p,here,rfl⟩ := tied.toGrounded.stmt.mp found
  obtain ⟨q,r,x,origin,rfl,act⟩ := tied.homed.assignment passed.assigns
  have defines : r.act.steps = value.steps := by rw [act,Action.stepsAssign]
  have reads := tied.candidateReads found picked
  by_cases quiet : shown value.steps = []
  · refine took.movesQuiet quiet (fun i member s held loc => ?_) here reads
    obtain ⟨k,place⟩ := List.getElem?_of_mem held
    obtain ⟨-,rfl⟩ := origin.unique tied.distinct (q := ⟨i,k⟩) ⟨member,place⟩ loc.symm
    exact defines
  · have shows : value.hasEffects = true ∨ value.readsMemory = true := by
      by_contra neither
      simp only [not_or,Bool.not_eq_true] at neither
      have none := value.stepsQuiet neither.1 neither.2
      exact quiet (List.filter_eq_nil_iff.mpr fun st held => by simp [none st held])
    obtain ⟨i,guard⟩ := guarded picked shows
    obtain ⟨member,front,between,back,parts,idle,adjacent⟩ := tied.parts here origin guard
    have once := guard.once.resolve_left fun leaf => quiet (leafQuiet (.inl leaf))
    have all : drop = true := took.drops (Bool.eq_false_iff.mpr fun constant => quiet (leafQuiet (.inr constant)))
    exact (all ▸ took).movesShown tied.distinct rfl passed.apart defines reads once member parts idle adjacent

/-! ### Runs -/

/-- Tries of a substitution, in any order and number; `fits` tells of the tries. -/
inductive Tries (fits : Analysed → Loc → VarId → Prop) (a : Analysed) : Analysed → Prop where
  | none : Tries fits a a
  | tried {x : Analysed} (before : Tries fits a x) (o : PropagateOptions) (u : Loc) (n : Nat) (v : VarId)
      (fit : fits x u v) : Tries fits a (propagateVar o u (x,n) v).1

/-- What would be substituted for the variable keeps apart what clashes: no step of the value clashes with
one that the use takes before it. -/
def Apart (clash : Step → Step → Prop) (a : Analysed) (u : Loc) (v : VarId) : Prop :=
  ∀ t d value, a.stmt? u = some t → a.candidate? u t v = some (d,value) →
    ∀ st ∈ value.steps, ∀ st' ∈ t.lead v, ¬clash st st'

/-- However values are substituted with what clashes kept apart, nothing else can be substituted then. -/
def Steady (clash : Step → Step → Prop) (a : Analysed) : Prop :=
  ∀ x, Tries (Apart clash) a x → ∀ u v, x.Apart clash u v

variable {clash : Step → Step → Prop}

theorem Moves.reordered {value lead l : List Step} {c : Analysed} (moves : Moves a c value lead) {i : NodeId}
    (member : i ∈ a.graph.rpo) (active : ∀ st st', clash st st' → st.acts ∨ st'.acts)
    (apart : ∀ st ∈ value, ∀ st' ∈ lead, ¬clash st st') (moved : Reordered clash l (a.events i)) :
    Reordered clash l (c.events i) := by
  obtain ⟨j,-,others,pre,between,post,before,after,idle,adjacent⟩ := moves
  by_cases same : i = j
  · subst same
    rw [before] at moved
    rw [after]
    refine moved.swap fun st held st' held' hits => ?_
    have inside := (List.mem_filter.mp held).1
    rcases List.mem_append.mp held' with passed | led
    · rcases active st st' hits with acts | acts
      · rw [adjacent ⟨st,inside,acts⟩] at passed
        contradiction
      · exact idle st' passed acts
    · exact apart st inside st' (List.mem_filter.mp led).1 hits
  · rw [others i member same]
    exact moved

theorem Tied.triedReordered (tied : a.Tied) (active : ∀ st st', clash st st' → st.acts ∨ st'.acts)
    (apart : a.Apart clash u v) (o : PropagateOptions) (n : Nat) {i : NodeId} (member : i ∈ a.graph.rpo)
    {l : List Step} (moved : Reordered clash l (a.events i)) :
    (propagateVar o u (a,n) v).1.graph.rpo = a.graph.rpo ∧
      Reordered clash l ((propagateVar o u (a,n) v).1.events i) := by
  cases found : a.stmt? u with
  | none =>
    unfold propagateVar
    dsimp only
    rw [found]
    exact ⟨rfl,moved⟩
  | some t =>
    cases picked : a.candidate? u t v with
    | none =>
      unfold propagateVar
      dsimp only
      rw [found]
      dsimp only
      rw [picked]
      exact ⟨rfl,moved⟩
    | some made =>
      obtain ⟨d,value⟩ := made
      obtain ⟨drop,f,took⟩ := tied.takenTried found picked o n
      exact ⟨took.rpo,(tied.moves found picked o n).reordered member active
        (apart t d value found picked) moved⟩

theorem Tries.reordered {fits : Analysed → Loc → VarId → Prop} (tries : Tries fits a b) (tied : a.Tied)
    (active : ∀ st st', clash st st' → st.acts ∨ st'.acts) (apart : ∀ x u v, fits x u v → x.Apart clash u v)
    {i : NodeId} (member : i ∈ a.graph.rpo) : Reordered clash (a.events i) (b.events i) := by
  suffices b.Tied ∧ b.graph.rpo = a.graph.rpo ∧ Reordered clash (a.events i) (b.events i) from this.2.2
  induction tries with
  | none => exact ⟨tied,rfl,.none⟩
  | @tried x before o u n v fit ih =>
    obtain ⟨fits,rpo,moved⟩ := ih
    obtain ⟨rpo',moved'⟩ := fits.triedReordered active (apart x u v fit) o n (rpo ▸ member) moved
    exact ⟨(fits.tried o u n v).1,rpo'.trans rpo,moved'⟩

theorem Steady.propagate (steady : a.Steady clash) (o : PropagateOptions) :
    Tries (Apart clash) a (a.propagate o).1 :=
  propagateInduction o (fun x u n v before => before.tried o u n v (steady x before u v)) .none

/-! ### What acts -/

theorem effectsShown (l : List Step) : effects (shown l) = effects l := by
  unfold effects shown
  rw [List.filter_filter]
  refine List.filter_congr fun st _ => ?_
  cases st <;> rfl

theorem effectsAppend (l l' : List Step) : effects (l ++ l') = effects l ++ effects l' := List.filter_append ..

theorem effectsIdle {l : List Step} (idle : ∀ st ∈ l, ¬st.acts) : effects l = [] :=
  List.filter_eq_nil_iff.mpr idle

theorem actsBehind (picked : a.candidate? u t v = some (d,value)) (reads : v ∈ t.uses) {st st' : Step}
    (member : st ∈ value.steps) (shows : st.shows = true) (led : st' ∈ t.lead v) (acts : st'.acts = true) :
    t.act.isStore = true ∧ ∃ front e back,
      t.act.exprs = front ++ e :: back ∧ v ∉ e.vars ∧ v ∈ Expr.varsAll back ∧ st' ∈ e.steps := by
  have shows : value.hasEffects = true ∨ value.readsMemory = true := by
    by_contra neither
    simp only [not_or,Bool.not_eq_true] at neither
    rw [value.stepsQuiet neither.1 neither.2 st member] at shows
    contradiction
  obtain ⟨i,guard⟩ := guarded picked shows
  exact Stmt.leadActs guard.late reads led acts

/-- A substitution lets what the value does be done behind what its use does before it, and changes nothing
else of the order in which nodes act. There is something of both only in a store that acts in an earlier
operand. As long as no such substitution is made, every node acts in the same order. -/
theorem effectOrder {s : Analysed} (made : s.Made) (start : a = s ∨ s.splitLifetimes = .ok a)
    (steps : Steps (fun _ _ _ => True) a b) :
    (∀ o u n v t d value, b.stmt? u = some t → b.candidate? u t v = some (d,value) →
      (∃ i ∈ b.graph.rpo,
        (∀ j ∈ b.graph.rpo, j ≠ i →
          effects ((propagateVar o u (b,n) v).1.evaluation j) = effects (b.evaluation j)) ∧
        ∃ pre post,
          effects (b.evaluation i) = pre ++ (effects value.steps ++ effects (t.lead v)) ++ post ∧
          effects ((propagateVar o u (b,n) v).1.evaluation i)
            = pre ++ (effects (t.lead v) ++ effects value.steps) ++ post) ∧
      (effects value.steps ≠ [] → ∀ st ∈ effects (t.lead v), t.act.isStore = true ∧ ∃ front e back,
        t.act.exprs = front ++ e :: back ∧ v ∉ e.vars ∧ v ∈ Expr.varsAll back ∧ st ∈ e.steps)) ∧
    (∀ c, Tries (Apart bothAct) b c → ∀ i ∈ b.graph.rpo, effects (c.evaluation i) = effects (b.evaluation i)) ∧
    (b.Steady bothAct → ∀ o, ∀ i ∈ b.graph.rpo,
      effects ((b.propagate o).1.evaluation i) = effects (b.evaluation i)) := by
  have first : a.Made := start.elim (fun same => same ▸ made) made.split
  obtain ⟨tied,-⟩ := steps.tied first
  have kept : ∀ c, Tries (Apart bothAct) b c → ∀ i ∈ b.graph.rpo,
      effects (c.evaluation i) = effects (b.evaluation i) := by
    intro c tries i member
    have moved : Reordered bothAct (b.events i) (c.events i) :=
      tries.reordered tied (fun st st' both => .inl both.1) (fun x u v fits => fits) member
    rw [← effectsShown,← effectsShown (b.evaluation i)]
    exact moved.effects
  refine ⟨fun o u n v t d value found picked => ⟨?_,fun acts st led => ?_⟩,kept,fun steady o i member =>
    kept _ (steady.propagate o) i member⟩
  · obtain ⟨i,member,others,pre,between,post,before,after,idle,-⟩ := tied.moves found picked o n
    refine ⟨i,member,fun j there other => ?_,effects pre,effects post,?_,?_⟩
    · rw [← effectsShown,← effectsShown (b.evaluation j)]
      exact congrArg effects (others j there other)
    · rw [← effectsShown,show shown (b.evaluation i) = _ from before]
      simp only [effectsAppend,effectsShown,effectsIdle idle,List.nil_append]
    · rw [← effectsShown,show shown ((propagateVar o u (b,n) v).1.evaluation i) = _ from after]
      simp only [effectsAppend,effectsShown,effectsIdle idle,List.nil_append]
  · obtain ⟨st',held⟩ := List.exists_mem_of_ne_nil _ acts
    obtain ⟨inside,acts'⟩ := List.mem_filter.mp held
    obtain ⟨inside',acts''⟩ := List.mem_filter.mp led
    have shows : st'.shows = true := by rw [Step.shows,acts',Bool.or_true]
    exact actsBehind picked (tied.candidateReads found picked) inside shows inside' acts''

def oneNode (params : List VarId) (vars : VarTable) (stmts : List Stmt) : Graph where
  vars := vars
  params := params
  entry := some 0
  store := #[{ num := 0, kind := .ret, stmts }]
  nodes := [0]
  rpo := [0]
  nextLoc := stmts.length

theorem oneNodeMade {params : List VarId} {vars : VarTable} {stmts : List Stmt} {c : Chains}
    (inside : ∀ v ∈ params, v < vars.size) (defs : ∀ s ∈ stmts, s.def?.all (· < vars.size) = true)
    (distinct : (stmts.map (·.loc)).Nodup) (reserved : paramLoc ∉ stmts.map (·.loc))
    (ok : Chains.ofGraph (oneNode params vars stmts) = .ok c) : Made ⟨oneNode params vars stmts,c⟩ where
  wired := {
    inStore := by simp [oneNode]
    entry := by intro e h; cases h; simp [oneNode]
    empty := by intro h; cases h
    succs := by simp [oneNode,Graph.node]
    preds := by simp [oneNode,Graph.node]
    catchSuccs := by simp [oneNode,Graph.node]
    catchPreds := by simp [oneNode,Graph.node]
    defs := by
      intro i hi s hs v defines
      cases List.mem_singleton.mp hi
      have small := defs s hs
      rw [defines] at small
      exact of_decide_eq_true small
    params := inside }
  distinct := by
    unfold Graph.LocsDistinct
    simpa [oneNode,Graph.node] using distinct
  reserved := by
    intro i hi
    cases List.mem_singleton.mp hi
    exact reserved
  ok := ok

def overtaking : Graph := oneNode [] ⟨#[{},{ register := 1 }]⟩ [
  ⟨0,.assign 1 (.call .static ⟨"LA;","h",[],"I"⟩ []) false⟩,
  ⟨1,.assign 0 (.call .static ⟨"LA;","g",[],"LA;"⟩ []) false⟩,
  ⟨2,.storeField ⟨"LA;","x","I"⟩ (some (.var 0)) (.var 1)⟩,⟨3,.ret none⟩]

theorem effectOrderOvertaking : ∃ a : Analysed, a.Made ∧
    effects ((propagateVar {} 2 (a,0) 0).1.evaluation 0) = effects (a.evaluation 0) ∧
    effects ((propagateVar {} 2 (propagateVar {} 2 (a,0) 0) 1).1.evaluation 0) ≠ effects (a.evaluation 0) := by
  have run : (Chains.ofGraph overtaking).toOption.map (fun c =>
      let a : Analysed := ⟨overtaking,c⟩
      let b := propagateVar {} 2 (a,0) 0
      ((a.stmt? 2).map (·.lead 0),effects (a.evaluation 0),effects ((propagateVar {} 2 b 1).1.evaluation 0))) =
        some (some [],
          [.call .static ⟨"LA;","h",[],"I"⟩,.call .static ⟨"LA;","g",[],"LA;"⟩,.storeField ⟨"LA;","x","I"⟩],
          [.call .static ⟨"LA;","g",[],"LA;"⟩,.call .static ⟨"LA;","h",[],"I"⟩,.storeField ⟨"LA;","x","I"⟩]) := by
    decide +kernel
  cases ok : Chains.ofGraph overtaking with
  | error f => rw [ok] at run; contradiction
  | ok c =>
    rw [ok] at run
    obtain ⟨lead,both⟩ := Prod.mk.inj (Option.some.inj run)
    obtain ⟨before,after⟩ := Prod.mk.inj both
    have made : Made ⟨overtaking,c⟩ := oneNodeMade (by decide) (by decide) (by decide) (by decide) ok
    have apart : Apart bothAct ⟨overtaking,c⟩ 2 0 := by
      intro t d value found _ st _ st' led
      rw [found] at lead
      have none : t.lead 0 = [] := Option.some.inj lead
      rw [none] at led
      contradiction
    refine ⟨⟨overtaking,c⟩,made,?_,fun same => ?_⟩
    · exact (effectOrder made (.inl rfl) .none).2.1 _ (.tried .none {} 2 0 0 apart) 0 (List.mem_singleton_self 0)
    · rw [before] at same
      exact absurd (after.symm.trans same) (by decide)

/-! ### What is looked at -/

theorem runShown {W V : Type} (change : Step → W → W) (look : Step → W → V) (l : List Step) (w : W) :
    run change look (shown l) w = run change look l w := by
  induction l generalizing w with
  | nil => rfl
  | cons st l ih =>
    unfold shown at ih ⊢
    rw [List.filter_cons]
    split
    · rw [run,run,ih]
    · rename_i hidden
      have blind : st.looks = false ∧ st.changes = false := by
        cases st <;> first | exact ⟨rfl,rfl⟩ | exact absurd rfl hidden
      rw [run,ih,blind.1,blind.2]
      rfl

/-- A substitution moves a value past what shows between it and its use, none of which acts, and past what
its use shows before it; so what is looked at and what may be changed change places there only: where the use
looks at something before a value that may change it, or in a store that acts in an earlier operand. As
long as no such substitution is made, no look passes a change. If no change passes another one either,
all that is looked at is seen as before, whatever the changes do. -/
theorem readOrder {s : Analysed} (made : s.Made) (start : a = s ∨ s.splitLifetimes = .ok a)
    (steps : Steps (fun _ _ _ => True) a b) :
    (∀ o u n v t d value, b.stmt? u = some t → b.candidate? u t v = some (d,value) →
      Moves b (propagateVar o u (b,n) v).1 value.steps (t.lead v) ∧
      ∀ st ∈ value.steps, ∀ st' ∈ t.lead v, disturb st st' → st.changes ∧ st'.looks ∨
        st.looks ∧ st'.changes ∧ t.act.isStore = true ∧ ∃ front e back,
          t.act.exprs = front ++ e :: back ∧ v ∉ e.vars ∧ v ∈ Expr.varsAll back ∧ st' ∈ e.steps) ∧
    (∀ c, Tries (Apart disturb) b c → ∀ i ∈ b.graph.rpo, Reordered disturb (b.events i) (c.events i)) ∧
    (∀ c, Tries (Apart fun x y => bothAct x y ∨ disturb x y) b c → ∀ i ∈ b.graph.rpo,
      ∀ {W V : Type} (change : Step → W → W) (look : Step → W → V) (w : W),
        (run change look (c.evaluation i) w).1.Perm (run change look (b.evaluation i) w).1 ∧
        (run change look (c.evaluation i) w).2 = (run change look (b.evaluation i) w).2) ∧
    ∀ clash, b.Steady clash → ∀ o, Tries (Apart clash) b (b.propagate o).1 := by
  have first : a.Made := start.elim (fun same => same ▸ made) made.split
  obtain ⟨tied,-⟩ := steps.tied first
  have active : ∀ st st', disturb st st' → st.acts ∨ st'.acts := fun st st' hits =>
    hits.elim (fun both => .inr (Step.actsOfChanges both.2)) fun both => .inl (Step.actsOfChanges both.1)
  refine ⟨fun o u n v t d value found picked => ⟨tied.moves found picked o n,fun st inside st' led hits => ?_⟩,
    fun c tries i member => tries.reordered tied active (fun x u v fits => fits) member,
    fun c tries i member W V change look w => ?_,fun clash steady o => steady.propagate o⟩
  · rcases hits with ⟨looks,changes⟩ | both
    · have shows : st.shows = true := by rw [Step.shows,looks,Bool.true_or]
      exact .inr ⟨looks,changes,actsBehind picked (tied.candidateReads found picked) inside shows led
        (Step.actsOfChanges changes)⟩
    · exact .inl both
  · have moved : Reordered (fun x y => bothAct x y ∨ disturb x y) (b.events i) (c.events i) :=
      tries.reordered tied (fun st st' hits => hits.elim (fun both => .inl both.1) (active st st'))
        (fun x u v fits => fits) member
    rw [← runShown change look,← runShown change look (b.evaluation i)]
    exact moved.run change look w

def passing : Graph := oneNode [2] ⟨#[{},{ register := 1 },{ register := 2 }]⟩ [
  ⟨0,.assign 0 (.call .static ⟨"LA;","g",[],"I"⟩ []) false⟩,
  ⟨1,.assign 1 (.field ⟨"LA;","x","I"⟩ (.var 2)) false⟩,
  ⟨2,.invoke (.call .static ⟨"LA;","k",["I","I"],"V"⟩ [.var 1,.var 0])⟩,⟨3,.ret none⟩]

theorem readOrderPassing : ∃ a : Analysed, a.Made ∧
    (∀ (look : Step → Nat → Nat) (w : Nat),
      (run (fun _ => (· + 1)) look ((propagateVar {} 2 (a,0) 1).1.evaluation 0) w).1.Perm
        (run (fun _ => (· + 1)) look (a.evaluation 0) w).1) ∧
    ¬(run (fun _ => (· + 1)) (fun _ => id) ((propagateVar {} 2 (propagateVar {} 2 (a,0) 1) 0).1.evaluation 0) 0).1.Perm
        (run (fun _ => (· + 1)) (fun _ => id) (a.evaluation 0) 0).1 := by
  have runs : (Chains.ofGraph passing).toOption.map (fun c =>
      let a : Analysed := ⟨passing,c⟩
      let b := propagateVar {} 2 (a,0) 1
      ((a.stmt? 2).map (·.lead 1),(run (fun _ => (· + 1)) (fun _ => id) (a.evaluation 0) 0).1,
        (run (fun _ => (· + 1)) (fun _ => id) ((propagateVar {} 2 b 0).1.evaluation 0) 0).1)) =
        some (some [],[(.field ⟨"LA;","x","I"⟩,1)],[(.field ⟨"LA;","x","I"⟩,0)]) := by decide +kernel
  cases ok : Chains.ofGraph passing with
  | error f => rw [ok] at runs; contradiction
  | ok c =>
    rw [ok] at runs
    obtain ⟨lead,both⟩ := Prod.mk.inj (Option.some.inj runs)
    obtain ⟨before,after⟩ := Prod.mk.inj both
    have made : Made ⟨passing,c⟩ := oneNodeMade (by decide) (by decide) (by decide) (by decide) ok
    have apart : Apart (fun x y => bothAct x y ∨ disturb x y) ⟨passing,c⟩ 2 1 := by
      intro t d value found _ st _ st' led
      rw [found] at lead
      have none : t.lead 1 = [] := Option.some.inj lead
      rw [none] at led
      contradiction
    refine ⟨⟨passing,c⟩,made,fun look w => ?_,fun same => ?_⟩
    · exact ((readOrder made (.inl rfl) .none).2.2.1 _ (.tried .none {} 2 0 1 apart) 0
        (List.mem_singleton_self 0) (fun _ => (· + 1)) look w).1
    · rw [before] at same
      exact absurd (after ▸ same) (by decide)

end RegCode.Analysed
