import RegCode.Proofs.Flow.Edits
import RegCode.Proofs.Recovery.Coverage
import Mathlib.Data.List.Perm.Basic
import Mathlib.Logic.Relation

/-! Writing one stroke after the other. Each stroke adds a part to those written so far or changes
what is known of them; what every stroke keeps holds of all that is written. -/
namespace RegCode

namespace Tree

variable {α β : Type}

mutual

def parts : Tree α → List (Tree α)
  | block l body => block l body :: partsAll body
  | stmts l n ss => [stmts l n ss]
  | branch l n c a none => branch l n c a none :: partsAll a
  | branch l n c a (some b) => branch l n c a (some b) :: (partsAll a ++ partsAll b)
  | loop l k n h c body => loop l k n h c body :: partsAll body
  | switch l n v arms => switch l n v arms :: partsArms arms
  | guarded l r body cs none => guarded l r body cs none :: (partsAll body ++ partsCatches cs)
  | guarded l r body cs (some z) =>
    guarded l r body cs (some z) :: (partsAll body ++ (partsCatches cs ++ partsAll z))
  | goto l t => [goto l t]
  | breakTo l t => [breakTo l t]
  | continueTo l t => [continueTo l t]

def partsAll : List (Tree α) → List (Tree α)
  | [] => []
  | t :: ts => t.parts ++ partsAll ts

def partsArms : List (ArmHead × List (Tree α)) → List (Tree α)
  | [] => []
  | (_,body) :: rest => partsAll body ++ partsArms rest

def partsCatches : List (CatchHead × List (Tree α)) → List (Tree α)
  | [] => []
  | (_,body) :: rest => partsAll body ++ partsCatches rest

end

theorem partsAppend (ts us : List (Tree α)) : partsAll (ts ++ us) = partsAll ts ++ partsAll us := by
  induction ts with
  | nil => rfl
  | cons t ts ih => rw [List.cons_append,partsAll,partsAll,ih,List.append_assoc]

theorem partsZipArms (heads : List ArmHead) (bodies : List (List (Tree α)))
    (same : bodies.length = heads.length) :
    partsArms (heads.zip bodies) = partsAll bodies.flatten := by
  induction heads generalizing bodies with
  | nil => rw [List.eq_nil_of_length_eq_zero same]; rfl
  | cons h heads ih =>
    cases bodies with
    | nil => contradiction
    | cons b bodies =>
      rw [List.zip_cons_cons,partsArms,ih bodies (Nat.succ.inj same),List.flatten_cons,partsAppend]

theorem partsZipCatches (heads : List CatchHead) (bodies : List (List (Tree α)))
    (same : bodies.length = heads.length) :
    partsCatches (heads.zip bodies) = partsAll bodies.flatten := by
  induction heads generalizing bodies with
  | nil => rw [List.eq_nil_of_length_eq_zero same]; rfl
  | cons h heads ih =>
    cases bodies with
    | nil => contradiction
    | cons b bodies =>
      rw [List.zip_cons_cons,partsCatches,ih bodies (Nat.succ.inj same),List.flatten_cons,partsAppend]

section
variable (f : α → β)

mutual

theorem partsRelabel : ∀ t : Tree α, (t.relabel f).parts = t.parts.map (relabel f)
  | block _ body => by simp [relabel,parts,partsRelabelAll body]
  | stmts _ _ _ => by simp [relabel,parts]
  | branch _ _ _ a none => by simp [relabel,parts,partsRelabelAll a]
  | branch _ _ _ a (some b) => by simp [relabel,parts,partsRelabelAll a,partsRelabelAll b]
  | loop _ _ _ _ _ body => by simp [relabel,parts,partsRelabelAll body]
  | switch _ _ _ arms => by simp [relabel,parts,partsRelabelArms arms]
  | guarded _ _ body cs none => by
    simp [relabel,parts,partsRelabelAll body,partsRelabelCatches cs]
  | guarded _ _ body cs (some z) => by
    simp [relabel,parts,partsRelabelAll body,partsRelabelCatches cs,partsRelabelAll z]
  | goto _ _ | breakTo _ _ | continueTo _ _ => by simp [relabel,parts]

theorem partsRelabelAll : ∀ ts : List (Tree α),
    partsAll (relabelAll f ts) = (partsAll ts).map (relabel f)
  | [] => rfl
  | t :: ts => by simp [relabelAll,partsAll,partsRelabel t,partsRelabelAll ts]

theorem partsRelabelArms : ∀ arms : List (ArmHead × List (Tree α)),
    partsArms (relabelArms f arms) = (partsArms arms).map (relabel f)
  | [] => rfl
  | (_,body) :: rest => by simp [relabelArms,partsArms,partsRelabelAll body,partsRelabelArms rest]

theorem partsRelabelCatches : ∀ cs : List (CatchHead × List (Tree α)),
    partsCatches (relabelCatches f cs) = (partsCatches cs).map (relabel f)
  | [] => rfl
  | (_,body) :: rest => by
    simp [relabelCatches,partsCatches,partsRelabelAll body,partsRelabelCatches rest]

end

end

theorem labelRelabel (f : α → β) (t : Tree α) : (t.relabel f).label = f t.label := by
  cases t with
  | branch _ _ _ _ b => cases b <;> rfl
  | guarded _ _ _ _ z => cases z <;> rfl
  | _ => rfl

end Tree

namespace Recovery

open RegCode.Tree

def Begins (s : State) (n : NodeId) : Piece → Prop
  | .stmts l _ _ | .branch l _ _ _ _ | .guarded l _ _ _ _ => l = s.key ""
  | .loop l _ _ h _ _ => l = s.key (loopName n) ∧ h = n
  | .switch l m _ _ => l = s.key (switchName n) ∧ m = n
  | _ => False

def Named (scope : Option Key) : Prop := ∀ key, scope = some key → key.own ≠ ""

structure Sheet where
  parts : List Piece
  state : State

inductive Stroke : Sheet → Sheet → Prop
  | breaks {ps s scope} (named : Named scope) :
      Stroke ⟨ps,s⟩ ⟨ps ++ [.breakTo .none (scopeText scope)],s.nameScope scope⟩
  | continues {ps s scope} (named : Named scope) :
      Stroke ⟨ps,s⟩ ⟨ps ++ [.continueTo .none (scopeText scope)],s.nameScope scope⟩
  | jumps {ps s} (t : NodeId) : Stroke ⟨ps,s⟩ ⟨ps ++ [(s.goto t).1],(s.goto t).2⟩
  | opens {ps s n t} (begins : Begins s n t) : Stroke ⟨ps,s⟩ ⟨ps ++ [t],s.bump.place n t.label⟩
  | stands {ps s t id own} (m : NodeId) (part : t ∈ ps) (named : t.label = .part id own) :
      Stroke ⟨ps,s⟩ ⟨ps,s.place m t.label⟩
  | marks {ps s n} (m : Mark) (placed : (s.placed.get? n).isSome) :
      Stroke ⟨ps,s⟩ ⟨ps,s.setMark n m⟩
  | quiet {ps s z} (marks : z.marks = s.marks) (placed : z.placed = s.placed)
      (names : z.names = s.names) (next : z.nextKey = s.nextKey)
      (wanted : ∀ n ∈ s.wanted, n ∈ z.wanted) : Stroke ⟨ps,s⟩ ⟨ps,z⟩
  | copies {ps s} (n : Int) (ss : List Stmt) : Stroke ⟨ps,s⟩ ⟨ps ++ [.stmts .none n ss],s⟩
  | drops {ps s j l} (jump : j = .breakTo l "" ∨ j = .continueTo l "") : Stroke ⟨ps ++ [j],s⟩ ⟨ps,s⟩
  | sorts {ps qs s} (perm : ps.Perm qs) : Stroke ⟨ps,s⟩ ⟨qs,s⟩

abbrev Strokes : Sheet → Sheet → Prop := Relation.ReflTransGen Stroke

/-! ### What stays -/

structure Later (s s' : State) : Prop where
  placed : ∀ n key, s.placed.get? n = some key → s'.placed.get? n = some key
  named : ∀ key x, s.names.get? key = some x →
    s'.names.get? key = some x ∨ s'.names.get? key = some key.own
  wanted : ∀ n ∈ s.wanted, n ∈ s'.wanted

variable {p : Plan} {f : Frame} {n : NodeId} {s s₁ s₂ s' : State} {ps qs : List Piece}

namespace Later

theorem quiet (placed : s'.placed = s.placed) (names : s'.names = s.names)
    (wanted : ∀ n ∈ s.wanted, n ∈ s'.wanted) : Later s s' :=
  ⟨fun n key here => by rwa [placed],fun key x here => .inl (by rwa [names]),wanted⟩

theorem refl (s : State) : Later s s := .quiet rfl rfl fun _ => id

theorem given {key : Key} (later : Later s s') (here : s.names.get? key = .some key.own) :
    s'.names.get? key = .some key.own := (later.named key key.own here).elim id id

theorem trans (first : Later s s₁) (second : Later s₁ s₂) : Later s s₂ :=
  ⟨fun n key here => second.placed n key (first.placed n key here),
    fun key x here => (first.named key x here).elim (second.named key x) fun own => .inr (second.given own),
    fun n here => second.wanted n (first.wanted n here)⟩

theorem some (later : Later s s') (placed : (s.placed.get? n).isSome) : (s'.placed.get? n).isSome := by
  obtain ⟨key,here⟩ := Option.isSome_iff_exists.mp placed
  exact Option.isSome_iff_exists.mpr ⟨key,later.placed n key here⟩

end Later

theorem laterPlace (s : State) (n : NodeId) (key : Key) : Later s (s.place n key) where
  placed m k here := by
    rw [State.placeGet]
    split
    · rename_i both
      obtain ⟨rfl,none⟩ := both
      exact absurd (here.symm.trans none) nofun
    · exact here
  named k x here := by
    rw [State.placeNames]
    split
    · rename_i all
      obtain ⟨rfl,-,-,none⟩ := all
      exact absurd (here.symm.trans none) nofun
    · exact .inl here
  wanted m here := by rwa [(s.placeRest n key).2.2.2]

theorem State.namesNameScope (s : State) (k key : Key) : (s.nameScope (.some k)).names.get? key =
    if key = k then .some k.own else s.names.get? key := by simp [nameScope]

theorem laterNameScope (s : State) (scope : Option Key) : Later s (s.nameScope scope) := by
  cases scope with
  | none => exact .refl s
  | some k =>
    refine ⟨fun _ _ => id,fun key x here => ?_,fun _ => id⟩
    rw [State.namesNameScope]
    split
    · rename_i same
      rw [same]
      exact .inr rfl
    · exact .inl here

theorem State.gotoLabel (s : State) (n : NodeId) :
    (s.goto n).2.placed = s.placed ∧ (s.goto n).2.marks = s.marks ∧ (s.goto n).2.nextKey = s.nextKey ∧
      ((s.placed.get? n = none ∧ (s.goto n).1 = .goto (.aim n) (nodeName n) ∧
          (s.goto n).2.names = s.names ∧ (s.goto n).2.wanted = Graph.insertOnce n s.wanted) ∨
        (s.goto n).2.wanted = s.wanted ∧ ∃ key, s.placed.get? n = some key ∧
          ((∃ name, s.names.get? key = some name ∧ (s.goto n).1 = .goto (.aim n) name ∧
              (s.goto n).2.names = s.names) ∨
            s.names.get? key = none ∧ (s.goto n).1 = .goto (.aim n) (nodeName n) ∧
              (s.goto n).2.names = s.names.insert key (nodeName n))) := by
  unfold goto labelOf
  cases placed : s.placed.get? n with
  | none => exact ⟨rfl,rfl,rfl,.inl ⟨rfl,rfl,rfl,rfl⟩⟩
  | some key =>
    cases named : s.names.get? key with
    | some name => simp [named]
    | none => simp [named]

theorem laterGoto (s : State) (n : NodeId) : Later s (s.goto n).2 := by
  obtain ⟨placed,-,-,⟨-,-,names,wanted⟩ | ⟨wanted,key,-,⟨_,-,-,names⟩ | ⟨unnamed,-,names⟩⟩⟩ :=
    s.gotoLabel n
  · exact .quiet placed names fun m here => wanted ▸ Graph.insertOnceMem.mpr (.inl here)
  · exact .quiet placed names fun m here => wanted ▸ here
  · have known : ∀ k, (s.goto n).2.names.get? k = if k = key then some (nodeName n) else
        s.names.get? k := fun k => by simp [names]
    refine ⟨fun m key here => by rwa [placed],fun k x here => .inl ?_,fun m here => wanted ▸ here⟩
    have other : k ≠ key := fun same => by rw [same,unnamed] at here; contradiction
    rwa [known,if_neg other]

theorem Stroke.later {a b : Sheet} (stroke : Stroke a b) : Later a.state b.state := by
  cases stroke with
  | breaks named | continues named => exact laterNameScope ..
  | jumps t => exact laterGoto ..
  | @opens ps s n t begins =>
    have bumped : Later s s.bump := .quiet rfl rfl fun _ => id
    exact bumped.trans (laterPlace ..)
  | stands m part named => exact laterPlace ..
  | marks m placed => exact .quiet rfl rfl fun _ => id
  | quiet marks placed names next wanted => exact .quiet placed names wanted
  | copies | drops | sorts => exact .refl _

theorem strokesLater {a b : Sheet} (strokes : Strokes a b) : Later a.state b.state := by
  induction strokes with
  | refl => exact .refl _
  | tail strokes stroke ih => exact ih.trans stroke.later

/-! ### What is written, stroke by stroke -/

theorem strokesStatement (ps : List Piece) (n : NodeId) (ss : List Stmt) :
    Strokes ⟨ps,s⟩ ⟨ps ++ partsAll [(s.statement n ss).1],(s.statement n ss).2⟩ := by
  have begins : Begins s n (s.statement n ss).1 := rfl
  exact .tail (.single (.opens begins)) (.marks _ (State.placeSome ..))

theorem strokesLead (ps : List Piece) {lead : List Piece} {ss : List Stmt} (start : s.lead n ss = (lead,s₁)) :
    Strokes ⟨ps,s⟩ ⟨ps ++ partsAll lead,s₁⟩ := by
  unfold State.lead at start
  split at start
  · cases start
    rw [partsAll,List.append_nil]
  · cases start
    exact strokesStatement ps n ss.dropLast

theorem strokesEnter {t : Piece} {own : String} (follow : Option NodeId) (begins : Begins s n t)
    (label : t.label = s.key own) : Strokes ⟨ps,s⟩ ⟨ps ++ [t],s.enter n own follow⟩ := by
  have opened : Stroke ⟨ps,s⟩ ⟨ps ++ [t],s.bump.place n (s.key own)⟩ := label ▸ .opens begins
  have entered := Relation.ReflTransGen.tail (.single opened) (.marks .entered (State.placeSome ..))
  exact entered.tail (.quiet rfl rfl rfl rfl fun _ => id)

theorem strokesLeave (follow : Option NodeId) (placed : (s.placed.get? n).isSome) :
    Strokes ⟨ps,s⟩ ⟨ps,s.leave n follow⟩ :=
  .tail (.single (.quiet (z := s.release follow) rfl rfl rfl rfl fun _ => id)) (.marks .finished placed)

theorem strokesDrop {ts : List Piece} {j : Piece} {l : Key} (last : ts.getLast? = some j)
    (jump : j = .breakTo l "" ∨ j = .continueTo l "") :
    Strokes ⟨ps ++ partsAll ts,s⟩ ⟨ps ++ partsAll ts.dropLast,s⟩ := by
  obtain ⟨front,rfl⟩ := List.getLast?_eq_some_iff.mp last
  have flat : partsAll [j] = [j] := by rcases jump with rfl | rfl <;> rfl
  rw [List.dropLast_concat,partsAppend,flat,← List.append_assoc]
  exact .single (.drops jump)

theorem strokesDropContinue (body : List Piece) :
    Strokes ⟨ps ++ partsAll body,s⟩ ⟨ps ++ partsAll (dropLastContinue body),s⟩ := by
  unfold dropLastContinue
  split
  · rename_i l last
    exact strokesDrop last (.inr rfl)
  · exact .refl

theorem strokesDropBreak (arms : List (ArmHead × List Piece)) :
    Strokes ⟨ps ++ partsArms arms,s⟩ ⟨ps ++ partsArms (dropLastBreak arms),s⟩ := by
  induction arms generalizing ps with
  | nil => exact .refl
  | cons a arms ih =>
    obtain ⟨h,body⟩ := a
    cases arms with
    | nil =>
      unfold dropLastBreak
      split
      · rename_i l last
        simpa [partsArms] using strokesDrop last (.inl rfl)
      · exact .refl
    | cons b arms =>
      have same : dropLastBreak ((h,body) :: b :: arms) = (h,body) :: dropLastBreak (b :: arms) := by
        rw [dropLastBreak]
        simp
      have parts : ∀ rest, ps ++ partsArms ((h,body) :: rest) = ps ++ partsAll body ++ partsArms rest :=
        fun rest => by rw [partsArms,List.append_assoc]
      rw [same,parts,parts]
      exact ih

theorem partsBranch (key : Key) (n : NodeId) (cond : Test) (meets : Bool) (a b : List Piece) :
    ∃ c x y, (c = cond ∨ c = cond.negate) ∧ partsAll (branchPieces key n cond meets a b) =
      .branch key n c x y :: (partsAll a ++ partsAll b) := by
  unfold branchPieces
  split
  · rename_i none
    rw [List.isEmpty_iff.mp none]
    exact ⟨cond,a,Option.none,.inl rfl,by simp [partsAll,parts]⟩
  · split
    · rename_i none
      rw [List.isEmpty_iff.mp none]
      exact ⟨cond.negate,b,Option.none,.inr rfl,by simp [partsAll,parts]⟩
    · split
      · exact ⟨cond,a,Option.none,.inl rfl,by simp [partsAll,parts]⟩
      · exact ⟨cond,a,some b,.inl rfl,by simp [partsAll,parts]⟩

theorem partsSwitch {f : Frame} {bodies : List (List Piece)}
    (arms : Writes p (.each (switchJobs p f n s) bodies) s₁ s₂) :
    partsArms (((switchArms p f n).map (·.head)).zip bodies) = partsAll bodies.flatten :=
  partsZipArms _ _ (by rw [bodiesLength arms,switchJobs,armJobsLength,List.length_map])

theorem strokesClauses (ps : List Piece) (g : Graph) (groups : List Group) (s : State) :
    Strokes ⟨ps,s⟩ ⟨ps,((openClauses g groups).from s).2⟩ := by
  induction groups generalizing s with
  | nil => exact .refl
  | cons a groups ih =>
    have head : Strokes ⟨ps,s⟩ ⟨ps,((openClause g a).from s).2⟩ := by
      unfold openClause
      split
      · rw [fromBind,fromGet]
        split
        · exact .single (.quiet rfl rfl rfl rfl fun _ => id)
        · exact .refl
      · exact .refl
    exact head.trans (ih _)

theorem strokesJumpClauses (ps : List Piece) (heads : List CatchHead) (s : State) : Strokes ⟨ps,s⟩
    ⟨ps ++ partsCatches ((jumpClauses heads).from s).1,((jumpClauses heads).from s).2⟩ := by
  induction heads generalizing s ps with
  | nil =>
    rw [jumpClauses,fromPure,partsCatches,List.append_nil]
  | cons h heads ih =>
    have jump : (s.goto h.node).1 = .goto (.aim h.node) (s.labelOf h.node).1 := rfl
    have first : Strokes ⟨ps,s⟩ ⟨ps ++ [(s.goto h.node).1],(s.goto h.node).2⟩ := .single (.jumps h.node)
    have all := first.trans (ih _ (s.goto h.node).2)
    simpa only [jumpClauses,fromBind,fromPure,fromModifyGet,partsCatches,partsAll,jump,parts,
      List.append_assoc,List.append_nil] using all

theorem strokesRepeatClauses (ps : List Piece) (g : Graph) (c : Clauses) (s : State) : Strokes ⟨ps,s⟩
    ⟨ps ++ partsCatches ((repeatClauses g c).from s).1,((repeatClauses g c).from s).2⟩ := by
  cases c with
  | cleanup entry => exact .single (.copies _ _)
  | catches heads => exact strokesJumpClauses ps heads s

theorem strokesGuard (ps : List Piece) {t : Piece} (follow : Option NodeId) (begins : Begins s n t)
    (label : t.label = s.key "") : Strokes ⟨ps,s⟩ ⟨ps ++ [t],s.openGuard n follow⟩ := by
  have opened : Stroke ⟨ps,s⟩ ⟨ps ++ [t],s.bump.place n (s.key "")⟩ := label ▸ .opens begins
  exact .tail (.single opened) (.quiet rfl rfl rfl rfl fun _ => id)

theorem opensLoop (ps : List Piece) (s : State) (kind : LoopKind) (test : Int) (n : NodeId)
    (cond : Option Test) (body : List Piece) : Stroke ⟨ps,s⟩
      ⟨ps ++ [.loop (s.key (loopName n)) kind test n cond body],s.openLoop n⟩ := .opens ⟨rfl,rfl⟩

theorem strokesLoop {x : Piece} {body more : List Piece} {key : Key} {kind : LoopKind} {test : Int}
    {cond : Option Test} (loop : x = .loop key kind test n cond (dropLastContinue body))
    (opened : Strokes ⟨ps,s⟩ ⟨ps ++ [x],s₁⟩)
    (inner : Strokes ⟨ps ++ [x],s₁⟩ ⟨ps ++ [x] ++ partsAll body,s₂⟩)
    (rest : Strokes ⟨ps ++ partsAll [x],s₂⟩ ⟨ps ++ partsAll [x] ++ partsAll more,s'⟩) :
    Strokes ⟨ps,s⟩ ⟨ps ++ partsAll (x :: more),s'⟩ := by
  have piece : partsAll [x] = x :: partsAll (dropLastContinue body) := by simp [loop,partsAll,parts]
  have closed := (opened.trans inner).trans (strokesDropContinue body)
  rw [List.append_assoc,List.singleton_append,← piece] at closed
  rw [← List.singleton_append,partsAppend,← List.append_assoc]
  exact closed.trans rest

def Job.written : Job → List Piece
  | .emit _ _ out | .go _ _ out | .goOn _ _ _ out => out
  | .each _ outs => outs.flatten

def Scope.key? : Scope → Option Key
  | .loop _ key | .switch _ _ key => some key
  | .guarded _ => none

def Frame.Named (f : Frame) : Prop := ∀ x ∈ f.scopes, Recovery.Named x.key?

def Job.Named : Job → Prop
  | .emit f _ _ | .go f _ _ | .goOn f _ _ _ => f.Named
  | .each jobs _ => ∀ j ∈ jobs, j.1.Named

theorem Frame.Named.inside {x : Scope} {f' : Frame} (named : f.Named) (name : Recovery.Named x.key?)
    (scopes : f'.scopes = x :: f.scopes) : f'.Named := by
  rw [Frame.Named,scopes]
  exact List.forall_mem_cons.mpr ⟨name,named⟩

theorem armsNamed {scopes : List Scope} (named : ∀ x ∈ scopes, Recovery.Named x.key?) (arms : List Arm) :
    ∀ j ∈ armJobs scopes arms, j.1.Named := by
  induction arms with
  | nil => exact nofun
  | cons a arms ih => exact List.forall_mem_cons.mpr ⟨named,ih⟩

theorem jumpOutAmong {t : NodeId} {inLoop inBreakable : Bool} {scopes : List Scope} {key : Key}
    (jump : jumpOut? t inLoop inBreakable scopes = some (.breakTo (some key)) ∨
      jumpOut? t inLoop inBreakable scopes = some (.continueTo (some key))) : ∃ x ∈ scopes, x.key? = some key := by
  induction scopes generalizing inLoop inBreakable with
  | nil => simp [jumpOut?] at jump
  | cons x scopes ih =>
    have later : ∀ {a b : Bool}, (jumpOut? t a b scopes = some (.breakTo (some key)) ∨
        jumpOut? t a b scopes = some (.continueTo (some key))) → ∃ y ∈ x :: scopes, y.key? = some key :=
      fun rest => (ih rest).imp fun y => .imp_left (List.mem_cons_of_mem x)
    cases x with
    | loop shape own =>
      simp only [jumpOut?] at jump
      split at jump
      · obtain ⟨-,rfl⟩ : inLoop = true ∧ own = key := by simpa using jump
        exact ⟨_,List.mem_cons_self ..,rfl⟩
      · split at jump
        · obtain ⟨-,rfl⟩ : inBreakable = true ∧ own = key := by simpa using jump
          exact ⟨_,List.mem_cons_self ..,rfl⟩
        · exact later jump
    | switch m follow own =>
      simp only [jumpOut?] at jump
      split at jump
      · obtain ⟨-,rfl⟩ : inBreakable = true ∧ own = key := by simpa using jump
        exact ⟨_,List.mem_cons_self ..,rfl⟩
      · exact later jump
    | guarded r => exact later jump

theorem routeAmong {t : NodeId} {key : Key}
    (way : route p s f t = .breakTo (some key) ∨ route p s f t = .continueTo (some key)) :
    ∃ x ∈ f.scopes, x.key? = some key := by
  unfold route at way
  split at way
  · simp at way
  · cases jump : jumpOut? t false false f.scopes with
    | some r =>
      rw [jump,Option.getD_some] at way
      exact jumpOutAmong (way.imp (fun same => same ▸ jump) fun same => same ▸ jump)
    | none =>
      rw [jump,Option.getD_none] at way
      split at way <;> simp at way

theorem routeNamed {t : NodeId} {scope : Option Key} (named : f.Named)
    (way : route p s f t = .breakTo scope ∨ route p s f t = .continueTo scope) :
    Recovery.Named scope := by
  rintro key rfl
  obtain ⟨x,member,same⟩ := routeAmong way
  exact named x member key same

theorem loopNamed {shape : LoopShape} :
    Recovery.Named (Scope.loop shape (s.key (loopName n))).key? := by
  rintro key same
  cases same
  exact (namesApart n 0 0).2.2.2.1

theorem switchNamed {t : Option NodeId} :
    Recovery.Named (Scope.switch n t (s.key (switchName n))).key? := by
  rintro key same
  cases same
  exact (namesApart 0 n 0).2.2.2.2

theorem guardNamed {r : RegionId} : Recovery.Named (Scope.guarded r).key? := fun _ none => nomatch none

def Job.Draws (job : Job) (s s' : State) : Prop := ∀ ps, Strokes ⟨ps,s⟩ ⟨ps ++ partsAll job.written,s'⟩

theorem strokesBranch {cond : Test} {first second : Option NodeId} {lead onTrue onFalse more : List Piece}
    {s₀ s₃ : State} (named : f.Named) (start : s.lead n (p.graph.node n).stmts = (lead,s₀))
    (ihLeft : Job.Named (.go (sideFrame f (p.branchFollows.get? n)) first onTrue) → Job.Draws (.go (sideFrame f
      (p.branchFollows.get? n)) first onTrue) (s₀.enter n "" (p.branchFollows.get? n)) s₁)
    (ihRight : Job.Named (.go (sideFrame f (p.branchFollows.get? n)) second onFalse) → Job.Draws (.go
      (sideFrame f (p.branchFollows.get? n)) second onFalse) s₁ s₂)
    (ihRest : Job.Named (.goOn f (lead ++ branchPieces (s₀.key "") n cond (p.branchFollows.get? n).isSome
      onTrue onFalse) (p.branchFollows.get? n) more) → Job.Draws (.goOn f (lead ++ branchPieces (s₀.key "") n
      cond (p.branchFollows.get? n).isSome onTrue onFalse) (p.branchFollows.get? n) more) (s₂.leave n
      (p.branchFollows.get? n)) s₃) :
    Job.Draws (.emit f n (lead ++ branchPieces (s₀.key "") n cond (p.branchFollows.get? n).isSome onTrue
      onFalse ++ more)) s s₃ := by
  intro ps
  have side : (sideFrame f (p.branchFollows.get? n)).Named := by rwa [Frame.Named,sideScopes]
  have ihLeft := ihLeft side
  have ihRight := ihRight side
  obtain ⟨c,x,y,-,pieces⟩ := partsBranch (s₀.key "") n cond (p.branchFollows.get? n).isSome onTrue onFalse
  have entered := (strokesLead ps start).trans (strokesEnter (n := n)
    (t := .branch (s₀.key "") n c x y) (p.branchFollows.get? n) rfl rfl)
  have inner := entered.trans ((ihLeft _).trans (ihRight _))
  have later := strokesLater ((ihLeft []).trans (ihRight _))
  have left := inner.trans (strokesLeave (p.branchFollows.get? n) (later.some (State.placeSome ..)))
  have all := left.trans (ihRest named _)
  simpa only [Job.written,partsAppend,pieces,List.append_assoc,List.nil_append,
    List.cons_append] using all

theorem strokesSwitch {lead more : List Piece} {bodies : List (List Piece)} {s₀ : State} (named : f.Named)
    (start : s.lead n (p.graph.node n).stmts = (lead,s₀))
    (arms : Writes p (.each (switchJobs p f n s₀) bodies) (s₀.enter n (switchName n) (switchFollow p f n)) s₁)
    (ihArms : Job.Named (.each (switchJobs p f n s₀) bodies) → Job.Draws (.each (switchJobs p f n s₀) bodies)
      (s₀.enter n (switchName n) (switchFollow p f n)) s₁)
    (ihRest : Job.Named (.goOn f (lead ++ [.switch (s₀.key (switchName n)) n (switchValue (p.graph.node n))
      (writtenArms p f n bodies)]) (switchFollow p f n) more) → Job.Draws (.goOn f (lead ++ [.switch (s₀.key
      (switchName n)) n (switchValue (p.graph.node n)) (writtenArms p f n bodies)]) (switchFollow p f n) more)
      (s₁.leave n (switchFollow p f n)) s₂) :
    Job.Draws (.emit f n (lead ++ [.switch (s₀.key (switchName n)) n (switchValue (p.graph.node n))
      (writtenArms p f n bodies)] ++ more)) s s₂ := by
  intro ps
  have ihArms := ihArms (armsNamed (List.forall_mem_cons.mpr ⟨switchNamed,named⟩) _)
  have entered := (strokesLead ps start).trans (strokesEnter (n := n) (t := .switch
    (s₀.key (switchName n)) n (switchValue (p.graph.node n)) (writtenArms p f n bodies))
    (switchFollow p f n) ⟨rfl,rfl⟩ rfl)
  have inner := entered.trans (ihArms _)
  have placed := (strokesLater (ihArms [])).some (n := n) (State.placeSome ..)
  rw [Job.written,← partsSwitch arms] at inner
  have left := (inner.trans (strokesDropBreak _)).trans (strokesLeave (switchFollow p f n) placed)
  have all := left.trans (ihRest named _)
  simpa only [Job.written,partsAppend,partsAll,parts,writtenArms,List.append_assoc,List.append_nil,
    List.nil_append,List.cons_append] using all

theorem strokesPretest {shape : LoopShape} {body more : List Piece} (named : f.Named)
    (ihInner : Job.Named (.go { scopes := loopScopes f shape n s, stop := some n } (some shape.start) body) →
      Job.Draws (.go { scopes := loopScopes f shape n s, stop := some n } (some shape.start) body) ((s.openLoop
      n).setMark n .entered) s₁)
    (ihRest : Job.Named (.goOn f [.loop (s.key (loopName n)) .pretest n n (some (loopTest p.graph n
      shape.start)) (dropLastContinue body)] shape.follow more) → Job.Draws (.goOn f [.loop (s.key (loopName
      n)) .pretest n n (some (loopTest p.graph n shape.start)) (dropLastContinue body)] shape.follow more)
      (s₁.setMark n .finished) s₂) :
    Job.Draws (.emit f n (.loop (s.key (loopName n)) .pretest n n (some (loopTest p.graph n shape.start))
      (dropLastContinue body) :: more)) s s₂ := by
  intro ps
  have opened := opensLoop ps s .pretest n n (some (loopTest p.graph n shape.start)) (dropLastContinue body)
  have ihInner := ihInner (named.inside (loopNamed) rfl)
  have entered := Relation.ReflTransGen.tail (.single opened) (.marks .entered (State.placeSome ..))
  have placed := (strokesLater (ihInner [])).some (n := n) (State.placeSome ..)
  exact strokesLoop rfl entered (.tail (ihInner _) (.marks .finished placed)) (ihRest named _)

theorem strokesPosttest {shape : LoopShape} {latch : NodeId} {body more : List Piece} (named : f.Named)
    (ihInner : Job.Named (.emit { scopes := loopScopes f shape n s, stop := some latch } n body) → Job.Draws
      (.emit { scopes := loopScopes f shape n s, stop := some latch } n body) (((s.openLoop n).place latch
      (s.key (loopName n))).setMark latch .entered) s₁)
    (ihRest : Job.Named (.goOn f [.loop (s.key (loopName n)) .posttest latch n (some (loopTest p.graph latch
      n)) (dropLastContinue body)] shape.follow more) → Job.Draws (.goOn f [.loop (s.key (loopName n))
      .posttest latch n (some (loopTest p.graph latch n)) (dropLastContinue body)] shape.follow more)
      (s₁.setMark latch .finished) s₂) :
    Job.Draws (.emit f n (.loop (s.key (loopName n)) .posttest latch n (some (loopTest p.graph latch n))
      (dropLastContinue body) :: more)) s s₂ := by
  intro ps
  have opened := opensLoop ps s .posttest latch n (some (loopTest p.graph latch n)) (dropLastContinue body)
  have ihInner := ihInner (named.inside (loopNamed) rfl)
  have stands := Relation.ReflTransGen.tail (.single opened)
    (.stands latch (List.mem_append_right ps (List.mem_singleton_self _)) rfl)
  have entered := stands.tail (.marks .entered (State.placeSome ..))
  have placed := (strokesLater (ihInner [])).some (n := latch) (State.placeSome ..)
  exact strokesLoop rfl entered (.tail (ihInner _) (.marks .finished placed)) (ihRest named _)

theorem strokesCleanup {r : RegionId} {entry : NodeId} {code : List Stmt} {copy : List Loc}
    {body more : List Piece} (named : f.Named)
    (ihInner : Job.Named (.emit (insideGuard f r (guardFollow p s f r)) n body) → Job.Draws (.emit (insideGuard
      f r (guardFollow p s f r)) n body) ((s.openGuard n (guardFollow p s f r)).cleaned r entry copy (s.key
      "")) s₁)
    (ihRest : Job.Named (.goOn f [.guarded (s.key "") r body [] (some [.stmts .none entry code])] (guardFollow
      p s f r) more) → Job.Draws (.goOn f [.guarded (s.key "") r body [] (some [.stmts .none entry code])]
      (guardFollow p s f r) more) (s₁.release (guardFollow p s f r)) s₂) :
    Job.Draws (.emit f n (.guarded (s.key "") r body [] (some [.stmts .none entry code]) :: more)) s s₂ := by
  intro ps
  have opened := strokesGuard ps (s := s) (n := n) (guardFollow p s f r) (t := .guarded
    (s.key "") r body [] (some [.stmts .none entry code])) rfl rfl
  have known := opened.tail (.quiet (z := ((s.openGuard n (guardFollow p s f r)).openRegion r
    (.cleanup entry)).skip copy) rfl rfl rfl rfl fun _ => id)
  have stands := known.tail (.stands entry (List.mem_append_right ps (List.mem_singleton_self _)) rfl)
  have begun := stands.tail (.marks .finished (State.placeSome ..))
  have closed := ((begun.trans (ihInner (named.inside guardNamed rfl) _)).tail (.copies entry code)).tail
    (.quiet (z := s₁.release (guardFollow p s f r)) rfl rfl rfl rfl fun _ => id)
  have all := closed.trans (ihRest named _)
  simpa only [Job.written,partsAll,parts,partsCatches,List.append_assoc,List.append_nil,
    List.nil_append,List.cons_append] using all

theorem strokesCatches {r : RegionId} {heads : List CatchHead} {body more : List Piece}
    {bodies : List (List Piece)} {s₀ s₃ : State} (named : f.Named)
    (clauses : (openClauses p.graph (ownGroups p r)).from (s.openGuard n (guardFollow p s f r)) = (heads,s₀))
    (ihInner : Job.Named (.emit (insideGuard f r (guardFollow p s f r)) n body) → Job.Draws (.emit (insideGuard
      f r (guardFollow p s f r)) n body) (s₀.openRegion r (.catches heads)) s₁)
    (handlers : Writes p (.each (heads.map fun h => (outsideGuard f (guardFollow p s f r),h.node)) bodies) s₁ s₂)
    (ihHandlers : Job.Named (.each (heads.map fun h => (outsideGuard f (guardFollow p s f r),h.node)) bodies) →
      Job.Draws (.each (heads.map fun h => (outsideGuard f (guardFollow p s f r),h.node)) bodies) s₁ s₂)
    (ihRest : Job.Named (.goOn f [.guarded (s.key "") r body (heads.zip bodies) none] (guardFollow p s f r)
      more) → Job.Draws (.goOn f [.guarded (s.key "") r body (heads.zip bodies) none] (guardFollow p s f r)
      more) (s₂.release (guardFollow p s f r)) s₃) :
    Job.Draws (.emit f n (.guarded (s.key "") r body (heads.zip bodies) none :: more)) s s₃ := by
  intro ps
  have opened := strokesGuard ps (s := s) (n := n) (guardFollow p s f r) (t := .guarded
    (s.key "") r body (heads.zip bodies) none) rfl rfl
  have same : bodies.length = heads.length := by rw [bodiesLength handlers,List.length_map]
  have others : (Job.each (heads.map fun h => (outsideGuard f (guardFollow p s f r),h.node))
      bodies).Named := by
    intro j member
    obtain ⟨h,-,rfl⟩ := List.mem_map.mp member
    exact named
  have heads' := strokesClauses (ps ++ [.guarded (s.key "") r body (heads.zip bodies) none])
    p.graph (ownGroups p r) (s.openGuard n (guardFollow p s f r))
  rw [clauses] at heads'
  have begun := (opened.trans heads').tail (.quiet (z := s₀.openRegion r (.catches heads)) rfl rfl
    rfl rfl fun _ => id)
  have closed := ((begun.trans (ihInner (named.inside guardNamed rfl) _)).trans (ihHandlers others _)).tail
    (.quiet (z := s₂.release (guardFollow p s f r)) rfl rfl rfl rfl fun _ => id)
  have all := closed.trans (ihRest named _)
  simpa only [Job.written,partsAll,parts,partsZipCatches _ _ same,List.append_assoc,List.append_nil,
    List.nil_append,List.cons_append] using all

theorem strokesAgain {r : RegionId} {c : Clauses} {catches : List (CatchHead × List Piece)}
    {body more : List Piece} {s₀ : State} (named : f.Named)
    (clauses : (repeatClauses p.graph c).from (s.openGuard n (followOfRegion p s f r [])) = (catches,s₀))
    (ihInner : Job.Named (.emit (insideGuard f r (followOfRegion p s f r [])) n body) → Job.Draws (.emit
      (insideGuard f r (followOfRegion p s f r [])) n body) s₀ s₁)
    (ihRest : Job.Named (.goOn f [.guarded (s.key "") r body catches none] (followOfRegion p s f r []) more) →
      Job.Draws (.goOn f [.guarded (s.key "") r body catches none] (followOfRegion p s f r []) more)
      (s₁.release (followOfRegion p s f r [])) s₂) :
    Job.Draws (.emit f n (.guarded (s.key "") r body catches none :: more)) s s₂ := by
  intro ps
  have opened := strokesGuard ps (s := s) (n := n) (followOfRegion p s f r []) (t := .guarded
    (s.key "") r body catches none) rfl rfl
  have jumps := strokesRepeatClauses (ps ++ [.guarded (s.key "") r body catches none]) p.graph c
    (s.openGuard n (followOfRegion p s f r []))
  rw [clauses] at jumps
  have perm : ∀ a b c : List Piece, (a ++ b ++ c).Perm (a ++ (c ++ b)) := fun a b c => by
    rw [List.append_assoc]
    exact List.perm_append_comm.append_left a
  have sorted := ((opened.trans jumps).trans (ihInner (named.inside guardNamed rfl) _)).tail (.sorts (perm _ _ _))
  have closed := sorted.tail (.quiet (z := s₁.release (followOfRegion p s f r [])) rfl rfl rfl rfl
    fun _ => id)
  have all := closed.trans (ihRest named _)
  simpa only [Job.written,partsAll,parts,List.append_assoc,List.append_nil,List.nil_append,
    List.cons_append] using all

theorem Writes.strokes {job : Job} (writes : Writes p job s s') (named : job.Named) : job.Draws s s' := by
  induction writes with
  | nowhere | falls | nothing | ends | never =>
    intro ps
    rw [Job.written]
    simp only [partsAll,List.flatten_nil,List.append_nil]
    exact .refl
  | inline way rest ih | behind jump way rest ih | on passes rest ih => exact ih named
  | breaks way => exact fun ps => .single (.breaks (routeNamed named (.inl way)))
  | continues way => exact fun ps => .single (.continues (routeNamed named (.inr way)))
  | jumps way => exact fun ps => .single (.jumps _)
  | each first rest ihFirst ihRest =>
    intro ps
    obtain ⟨here,others⟩ := List.forall_mem_cons.mp named
    rw [Job.written,List.flatten_cons,partsAppend,← List.append_assoc]
    exact (ihFirst here ps).trans (ihRest others _)
  | last bare noBranch noSwitch alone => exact fun ps => strokesStatement ps _ _
  | @plain f n t out s s' bare kind succ rest ih =>
    intro ps
    rw [Job.written,← List.singleton_append,partsAppend,← List.append_assoc]
    exact (strokesStatement ps n _).trans (ih named _)
  | branch bare kind sides start left right rest ihLeft ihRight ihRest =>
    exact strokesBranch named start ihLeft ihRight ihRest
  | switch bare kind start arms rest ihArms ihRest => exact strokesSwitch named start arms ihArms ihRest
  | pretest outside starts settled kind inner rest ihInner ihRest => exact strokesPretest named ihInner ihRest
  | posttest outside starts settled kind test inner rest ihInner ihRest =>
    exact strokesPosttest named ihInner ihRest
  | @endless f n found shape body more s s₁ s₂ outside starts settled kind test inner rest ihInner
      ihRest =>
    intro ps
    have opened := opensLoop ps s .endless (-1) n none (dropLastContinue body)
    have ihInner := ihInner (named.inside (loopNamed) rfl)
    exact strokesLoop rfl (.single opened) (ihInner _) (ihRest named _)
  | cleanup outside first clean inner rest ihInner ihRest => exact strokesCleanup named ihInner ihRest
  | catches outside first noCleanup clauses inner handlers rest ihInner ihHandlers ihRest =>
    exact strokesCatches named clauses ihInner handlers ihHandlers ihRest
  | again outside known clauses inner rest ihInner ihRest => exact strokesAgain named clauses ihInner ihRest

end Recovery

end RegCode
