import RegCode.Proofs.Recovery.Answering

/-! What is written runs as the graph is walked. Rule by rule, what a job writes leads on like the graph,
for as many nodes as what is to run around it does. -/
namespace RegCode.Recovery

open RegCode.Tree

variable {w : Draft} {p : Plan} {i j : Nat} {f : Frame} {ss : List Scope} {k : Agenda} {n t u x : NodeId}
  {s s₀ s₁ s' : State} {key : Key} {xs ys : List (Key × Agenda)}

/-! ### Points -/

/-- From the points on that stand for nodes, what is to run leads on like the graph. -/
def Tells (w : Draft) (p : Plan) (j : Nat) (xs : List (Key × Agenda)) (k : Agenda) : Prop :=
  ∀ x ∈ xs, ∀ t, w.state.placed.get? t = some x.1 → p.Free t → w.Leads p.graph j (x.2 ++ k) t

namespace Tells

theorem nil : Tells w p j [] k := fun _ member => absurd member List.not_mem_nil

theorem append (first : Tells w p j xs k) (second : Tells w p j ys k) : Tells w p j (xs ++ ys) k :=
  fun x member => (List.mem_append.mp member).elim (first x) (second x)

theorem under {a : Layer} (tells : Tells w p j xs (a :: k)) :
    Tells w p j (xs.map fun x => (x.1,x.2 ++ [a])) k := by
  intro y member t here free
  obtain ⟨x,inside,rfl⟩ := List.mem_map.mp member
  simpa using tells x inside t here free

theorem parts {t : Piece} {ts : List Piece} (leads : w.Leads p.graph j (.parts (t :: ts) :: k) n)
    (sole : ∀ u, w.state.placed.get? u = some t.label → p.Free u → u = n)
    (inner : Tells w p j (points t) (.parts ts :: k)) (rest : Tells w p j (pointsAll ts) k) :
    Tells w p j (pointsAll (t :: ts)) k := by
  rw [pointsAll]
  refine append (fun x member u here free => ?_) rest
  rcases List.mem_cons.mp member with rfl | member
  · exact sole u here free ▸ leads
  · exact inner.under x member u here free

theorem alone {t : Piece} (whole : w.Whole) (plain : t.label.isPart = false) (none : points t = []) :
    Tells w p j (pointsAll [t]) k := by
  intro x member u here
  rw [pointsAll,none,pointsAll] at member
  obtain rfl := List.mem_singleton.mp member
  rw [(whole.labelled.placed u _ here).1] at plain
  contradiction

theorem join {ts us : List Piece} (first : Tells w p j (pointsAll ts) (.parts us :: k))
    (second : Tells w p j (pointsAll us) k) : Tells w p j (pointsAll (ts ++ us)) k := by
  intro x member t here free
  rcases pointsJoin member with later | ⟨y,inside,same,trims⟩
  · exact second x later t here free
  · exact (first y inside t (same ▸ here) free).trims (trims k)

theorem trim {ts : List Piece} {last : Piece} (tells : Tells w p j (pointsAll (ts ++ [last])) k)
    (trims : ∀ us, Trims (.parts (us ++ [last]) :: k) (.parts us :: k)) : Tells w p j (pointsAll ts) k := by
  intro x member t here free
  obtain ⟨y,inside,same,trimmed⟩ := pointsTrim member
  exact (tells y inside t (same ▸ here) free).trims (trimmed k trims)

end Tells

/-! ### Jobs -/

def Ends (w : Draft) (p : Plan) (j : Nat) (f : Frame) (k : Agenda) : Prop :=
  ∀ x, f.stop = some x ∨ f.fall = some x → SafeIn p f.scopes x → w.Leads p.graph j k x

/-- Arms as they are written, each with what holds of its body and of the arms behind it. -/
inductive Falls (P : Arm → List Piece → List (ArmHead × List Piece) → Prop) :
    List Arm → List (ArmHead × List Piece) → Prop
  | nil : Falls P [] []
  | cons {a arms body later} (here : P a body later) (rest : Falls P arms later) :
      Falls P (a :: arms) ((a.head,body) :: later)

structure ArmRuns (w : Draft) (p : Plan) (j : Nat) (ss : List Scope) (key : Key) (k : Agenda) (a : Arm)
    (body : List Piece) (later : List (ArmHead × List Piece)) : Prop where
  leads : SafeIn p ss a.target → w.Leads p.graph j (.parts body :: .switch key (later.map (·.2)) :: k) a.target
  tells : Tells w p (j + 1) (pointsAll body) (.switch key (later.map (·.2)) :: k)

def Along (w : Draft) (p : Plan) (j : Nat) (f : Frame) (t : Option NodeId) (out : List Piece) : Prop :=
  ∀ k, Answers w p j f.scopes k → (endsInJump out = false → Ends w p j f k) →
    (∀ x, t = some x → SafeIn p f.scopes x → w.Leads p.graph j (.parts out :: k) x) ∧
      Tells w p (j + 1) (pointsAll out) k

def Job.Runs (w : Draft) (p : Plan) : Job → State → Prop
  | .emit f n out, s => Due p f n s → s.Keyed → ∀ j k, Answers w p j f.scopes k →
    (endsInJump out = false → Ends w p j f k) →
      w.Leads p.graph (j + 1) (.parts out :: k) n ∧ Tells w p (j + 1) (pointsAll out) k
  | .go f t out, s => Fit p f s → (∀ x, t = some x → s.Sure p.graph x) → s.Keyed →
    ∀ j, Along w p j f t out
  | .goOn f lead t more, s => Fit p f s → (∀ x, t = some x → s.Sure p.graph x) → s.Keyed →
    ∀ j k, Answers w p j f.scopes k → (endsInJump (lead ++ more) = false → Ends w p j f k) →
      (endsInJump lead = false → ∀ x, t = some x → SafeIn p f.scopes x →
        w.Leads p.graph j (.parts more :: k) x) ∧ Tells w p (j + 1) (pointsAll more) k
  | .each jobs outs, s => ∀ m follow key ss arms, jobs = armJobs (.switch m follow key :: ss) arms →
    Fit p { scopes := .switch m follow key :: ss } s → (∀ a ∈ arms, s.Sure p.graph a.target) → s.Keyed →
    ∀ j k, (∀ x, follow = some x → SafeIn p ss x → w.Leads p.graph j k x) → Answers w p j ss k →
      Falls (ArmRuns w p j (.switch m follow key :: ss) key k) arms (dropLastBreak ((arms.map (·.head)).zip outs))

/-! ### Endings -/

theorem endsAppend {ts us : List Piece} (some : us ≠ []) : endsInJump (ts ++ us) = endsInJump us := by
  induction ts with
  | nil => rfl
  | cons t ts ih =>
    cases ts with
    | nil =>
      obtain ⟨u,us,rfl⟩ := List.exists_cons_of_ne_nil some
      rfl
    | cons t' ts => exact ih

theorem endsAfter {ts us : List Piece} (passes : endsInJump ts = false) (ends : endsInJump us = false) :
    endsInJump (ts ++ us) = false := by
  by_cases none : us = []
  · rwa [none,List.append_nil]
  · rwa [endsAppend none]

theorem branchPiecesSome (n : NodeId) (cond : Test) (meets : Bool) (a b : List Piece) :
    branchPieces key n cond meets a b ≠ [] := by
  unfold branchPieces
  split
  · simp
  · split
    · simp
    · split <;> simp

theorem Writes.nonempty {out : List Piece} (writes : Writes p (.emit f n out) s s') : out ≠ [] := by
  cases writes with
  | branch => simp [branchPiecesSome]
  | _ => simp

theorem Writes.nowhere? {out : List Piece} (writes : Writes p (.go f none out) s s') : out = [] := by
  cases writes
  rfl

theorem Writes.ends? {lead more : List Piece} (writes : Writes p (.goOn f lead none more) s s') :
    more = [] := by
  cases writes
  rfl

/-! ### Branches -/

theorem branchForm (n : NodeId) (cond : Test) (meets : Bool) (a b : List Piece) :
    (∃ c x y, branchPieces key n cond meets a b = [.branch key n c x y] ∧
      (∀ o : Outcome, (if o.holds c then x else y.getD []) = if o.holds cond then a else b) ∧
      (∀ {α : Type} (F : List Piece → List α), F [] = [] → F x ++ F (y.getD []) = F a ++ F b) ∧
      isJump (.branch key n c x y : Piece) = (endsInJump a && endsInJump b)) ∨
    meets = false ∧ endsInJump a = true ∧ b ≠ [] ∧
      branchPieces key n cond meets a b = .branch key n cond a none :: b := by
  unfold branchPieces
  split
  · rename_i none
    rw [List.isEmpty_iff.mp none]
    exact .inl ⟨cond,a,Option.none,rfl,fun o => rfl,fun F none => rfl,by simp [isJump,endsInJump]⟩
  · rename_i some
    split
    · rename_i none
      rw [List.isEmpty_iff.mp none]
      refine .inl ⟨cond.negate,b,Option.none,rfl,fun o => ?_,fun F none => ?_,by simp [isJump,endsInJump]⟩
      · rw [o.negated]
        cases o.holds cond <;> rfl
      · rw [Option.getD_none,none,List.append_nil,List.nil_append]
    · split
      · rename_i early
        simp only [Bool.and_eq_true,Bool.not_eq_true'] at early
        exact .inr ⟨early.1,early.2,by simpa using some,rfl⟩
      · exact .inl ⟨cond,a,.some b,rfl,fun o => rfl,fun F none => rfl,by simp [isJump]⟩

theorem afterCond {g : Graph} (kind : (g.node n).kind = .cond) (o : Outcome) : g.after n o =
    if o.holds ((g.node n).test?.getD default) then (g.node n).onTrue else (g.node n).onFalse := by
  rw [Graph.after,kind]

theorem branchTakes {g : Graph} {follow first second : Option NodeId} {cond : Test}
    (ends : (g.node n).Ends) (kind : (g.node n).kind = .cond)
    (sides : orient p s f (g.node n) follow = (cond,first,second)) (o : Outcome) :
    ∃ m, g.after n o = some m ∧ m ∈ (g.node n).succs ∧ (o.holds cond = true ∧ first = some m ∨
      o.holds cond = false ∧ (second = some m ∨ second = none ∧ follow = some m)) := by
  obtain ⟨-,t,e,onTrue,onFalse,succs⟩ := Node.endsCond ends kind
  have ways := orientCases sides
  rw [onTrue,onFalse] at ways
  rw [afterCond kind,onTrue,onFalse]
  simp only [succs]
  have negated := o.negated ((g.node n).test?.getD default)
  cases holds : o.holds ((g.node n).test?.getD default) with
  | true =>
    refine ⟨t,rfl,.inl rfl,?_⟩
    rcases ways with ⟨rfl,rfl,-⟩ | ⟨rfl,rfl,second⟩
    · exact .inl ⟨holds,rfl⟩
    · refine .inr ⟨by rw [negated,holds]; rfl,?_⟩
      exact second.imp id fun meets => ⟨meets.1,meets.2.1.symm⟩
  | false =>
    refine ⟨e,rfl,.inr rfl,?_⟩
    rcases ways with ⟨rfl,rfl,second⟩ | ⟨rfl,rfl,-⟩
    · exact .inr ⟨holds,second.imp And.left fun meets => ⟨meets.1,meets.2.1.symm⟩⟩
    · exact .inl ⟨by rw [negated,holds]; rfl,rfl⟩

theorem branchRuns {follow first second : Option NodeId} {cond : Test} {onTrue onFalse more : List Piece}
    (takes : ∀ o, ∃ m, p.graph.after n o = some m ∧ SafeIn p f.scopes m ∧
      (o.holds cond = true ∧ first = some m ∨
        o.holds cond = false ∧ (second = some m ∨ second = none ∧ follow = some m)))
    (left : Along w p j (sideFrame f follow) first onTrue)
    (right : Along w p j (sideFrame f follow) second onFalse)
    (bare : second = none → onFalse = []) (last : follow = none → more = [])
    (resumes : endsInJump (branchPieces key n cond follow.isSome onTrue onFalse) = false →
      ∀ x, follow = some x → SafeIn p f.scopes x → w.Leads p.graph j (.parts more :: k) x)
    (told : Tells w p (j + 1) (pointsAll more) k)
    (sole : ∀ u, w.state.placed.get? u = some key → p.Free u → u = n) (answers : Answers w p j f.scopes k)
    (ends : endsInJump (branchPieces key n cond follow.isSome onTrue onFalse ++ more) = false →
      Ends w p j f k) :
    w.Leads p.graph (j + 1) (.parts (branchPieces key n cond follow.isSome onTrue onFalse ++ more) :: k) n ∧
      Tells w p (j + 1) (pointsAll (branchPieces key n cond follow.isSome onTrue onFalse ++ more)) k := by
  have scopes := sideScopes f follow
  rcases @branchForm key n cond follow.isSome onTrue onFalse with
    ⟨c,x,y,form,same,inner,jump⟩ | ⟨meets,early,some,form⟩
  · rw [form] at resumes ends ⊢
    -- Both sides end in front of what comes after the branch.
    have side : (endsInJump onTrue && endsInJump onFalse) = false →
        Ends w p j (sideFrame f follow) (.parts more :: k) := by
      intro passes
      have passes : isJump (.branch key n c x y : Piece) = false := jump.trans passes
      cases follow with
      | none =>
        obtain rfl := last rfl
        exact fun x either safe => (ends passes x either safe).silent rfl
      | some m =>
        intro x either safe
        have here : m = x := by simpa [sideFrame] using either
        exact resumes passes x (congrArg some here) safe
    obtain ⟨goesLeft,tellsLeft⟩ := left (.parts more :: k) (scopes ▸ .parts answers)
      fun passes => side (by simp [passes])
    obtain ⟨goesRight,tellsRight⟩ := right (.parts more :: k) (scopes ▸ .parts answers)
      fun passes => side (by simp [passes])
    have leads : w.Leads p.graph (j + 1) (.parts (.branch key n c x y :: more) :: k) n := by
      refine ⟨_,_,.refl,rfl,fun o => ?_⟩
      obtain ⟨m,after,safe,way⟩ := takes o
      rw [after]
      show w.Leads p.graph j (.parts (if o.holds c then x else y.getD []) :: .parts more :: k) m
      rw [same o]
      rcases way with ⟨holds,here⟩ | ⟨holds,here | ⟨none,here⟩⟩
      · rw [holds]
        exact goesLeft m here (scopes ▸ safe)
      · rw [holds]
        exact goesRight m here (scopes ▸ safe)
      · obtain rfl := bare none
        rw [holds]
        have passes : isJump (.branch key n c x y : Piece) = false := by rw [jump,endsInJump,Bool.and_false]
        exact (resumes passes m here safe).silent rfl
    have inside : points (.branch key n c x y) = pointsAll onTrue ++ pointsAll onFalse := by
      rw [← inner pointsAll rfl]
      cases y <;> simp [points,pointsAll]
    exact ⟨leads,.parts leads sole (inside ▸ tellsLeft.append tellsRight) told⟩
  · cases follow with
    | some m => contradiction
    | none =>
      obtain rfl := last rfl
      rw [form,List.append_nil] at ends ⊢
      obtain ⟨goesLeft,tellsLeft⟩ := left (.parts onFalse :: k) (.parts answers)
        fun passes => by rw [early] at passes; contradiction
      obtain ⟨goesRight,tellsRight⟩ := right k answers fun passes =>
        ends ((endsAppend some : endsInJump ([.branch key n cond onTrue none] ++ onFalse) = _).trans passes)
      have leads : w.Leads p.graph (j + 1) (.parts (.branch key n cond onTrue none :: onFalse) :: k) n := by
        refine ⟨_,_,.refl,rfl,fun o => ?_⟩
        obtain ⟨m,after,safe,way⟩ := takes o
        rw [after]
        show w.Leads p.graph j (.parts (if o.holds cond then onTrue else []) :: .parts onFalse :: k) m
        rcases way with ⟨holds,here⟩ | ⟨holds,here | ⟨-,here⟩⟩
        · rw [holds]
          exact goesLeft m here safe
        · rw [holds]
          exact (goesRight m here safe).silent rfl
        · contradiction
      exact ⟨leads,.parts leads sole tellsLeft tellsRight⟩

/-! ### Loops -/

theorem loopTakes {g : Graph} {stays : NodeId} (kind : (g.node t).kind = .cond) (apart : stays ≠ x)
    (ways : (g.node t).onTrue = some stays ∧ (g.node t).onFalse = some x ∨
      (g.node t).onTrue = some x ∧ (g.node t).onFalse = some stays) (o : Outcome) :
    g.after t o = some (if o.holds (loopTest g t stays) then stays else x) := by
  rw [afterCond kind,loopTest]
  rcases ways with ⟨onTrue,onFalse⟩ | ⟨onTrue,onFalse⟩
  · have other : ((some x : Option NodeId) == some stays) = false := by simpa using apart.symm
    rw [onTrue,onFalse,other]
    simp only [Bool.false_eq_true,if_false]
    split <;> rfl
  · rw [onTrue,onFalse]
    simp only [beq_self_eq_true,if_true,o.negated]
    cases o.holds ((g.node t).test?.getD default) <;> rfl

theorem rounds {g : Graph} {kind : LoopKind} {c : Test} {body : List Piece} {stays : NodeId}
    (tested : kind ≠ .endless) (takes : ∀ o, g.after t o = some (if o.holds c then stays else x))
    (round : ∀ i ≤ j, w.Leads g i (.loop key kind t (some c) body :: k) t →
      w.Leads g i (.parts body :: .loop key kind t (some c) body :: k) stays)
    (leaves : w.Leads g j k x) (i : Nat) (le : i ≤ j + 1) :
    w.Leads g i (.loop key kind t (some c) body :: k) t := by
  induction i with
  | zero => trivial
  | succ i ih =>
    have le := Nat.le_of_succ_le_succ le
    have again := round i le (ih (Nat.le_succ_of_le le))
    refine ⟨_,fun o => if o.holds c then .parts body :: .loop key kind t (some c) body :: k else k,.refl,?_,
      fun o => ?_⟩
    · cases kind with
      | endless => exact absurd rfl tested
      | pretest | posttest => rfl
    · rw [takes o]
      dsimp only [Option.elim]
      split
      · exact again
      · exact leaves.mono le

theorem endlessRounds {g : Graph} {m : Int} {c : Option Test} {body : List Piece}
    (round : ∀ i ≤ j, w.Leads g i (.loop key .endless m c body :: k) t →
      w.Leads g (i + 1) (.parts body :: .loop key .endless m c body :: k) t) (i : Nat) (le : i ≤ j + 1) :
    w.Leads g i (.loop key .endless m c body :: k) t := by
  induction i with
  | zero => trivial
  | succ i ih =>
    have le := Nat.le_of_succ_le_succ le
    exact (round i le (ih (Nat.le_succ_of_le le))).silent rfl

theorem dropContinueForm (body : List Piece) : dropLastContinue body = body ∨
    ∃ l, body = dropLastContinue body ++ [.continueTo l ""] := by
  unfold dropLastContinue
  split
  · rename_i l last
    obtain ⟨front,rfl⟩ := List.getLast?_eq_some_iff.mp last
    exact .inr ⟨l,by rw [List.dropLast_concat]⟩
  · exact .inl rfl

theorem dropContinue {g : Graph} {kind : LoopKind} {m : Int} {c : Option Test} {b body : List Piece}
    (leads : w.Leads g j (.parts body :: .loop key kind m c b :: k) t) :
    w.Leads g j (.parts (dropLastContinue body) :: .loop key kind m c b :: k) t := by
  rcases dropContinueForm body with same | ⟨l,same⟩
  · rwa [same]
  · rw [same] at leads
    exact leads.trims .again

theorem Tells.dropContinue {kind : LoopKind} {m : Int} {c : Option Test} {b body : List Piece}
    (tells : Tells w p j (pointsAll body) (.loop key kind m c b :: k)) :
    Tells w p j (pointsAll (dropLastContinue body)) (.loop key kind m c b :: k) := by
  rcases dropContinueForm body with same | ⟨l,same⟩
  · rwa [same]
  · rw [same] at tells
    exact tells.trim fun us => .again

theorem Answers.inLoop {a : LoopShape} {kind : LoopKind} {m : Int} {c : Option Test} {b more : List Piece}
    (answers : Answers w p j f.scopes k) (leaves : ∀ x, a.follow = some x → w.Leads p.graph j (.parts more :: k) x)
    (le : i ≤ j) (again : a.continueAt = t)
    (here : w.Leads p.graph i (.loop key kind m c b :: .parts more :: k) t) :
    Answers w p i (.loop a key :: f.scopes) (.loop key kind m c b :: .parts more :: k) := by
  subst again
  exact .loop here (fun x follow => (leaves x follow).mono le) (.parts (answers.mono le))

theorem loopTells {kind : LoopKind} {test : Int} {c : Option Test} {body more : List Piece}
    (leads : w.Leads p.graph j (.parts (.loop key kind test n c (dropLastContinue body) :: more) :: k) n)
    (sole : ∀ u, w.state.placed.get? u = some key → p.Free u → u = n)
    (inner : Tells w p j (pointsAll body) (.loop key kind test c (dropLastContinue body) :: .parts more :: k))
    (told : Tells w p j (pointsAll more) k) :
    Tells w p j (pointsAll (.loop key kind test n c (dropLastContinue body) :: more)) k := by
  refine .parts leads sole ?_ told
  rw [points]
  exact inner.dropContinue.under

/-! ### Switches -/

theorem dropBreakForm (h : ArmHead) (body : List Piece) : dropLastBreak [(h,body)] = [(h,body)] ∨
    ∃ l ts, body = ts ++ [.breakTo l ""] ∧ dropLastBreak [(h,body)] = [(h,ts)] := by
  unfold dropLastBreak
  split
  · rename_i l last
    obtain ⟨front,rfl⟩ := List.getLast?_eq_some_iff.mp last
    exact .inr ⟨l,front,rfl,by rw [List.dropLast_concat]⟩
  · exact .inl rfl

namespace Falls

variable {P : Arm → List Piece → List (ArmHead × List Piece) → Prop} {arms : List Arm}
  {zs : List (ArmHead × List Piece)}

theorem enter (falls : Falls P arms zs) (q : ArmHead → Bool) :
    (zs.dropWhile (fun z => !q z.1) = [] ∧ ∀ a ∈ arms, q a.head = false) ∨
      ∃ a ∈ arms, q a.head = true ∧ ∃ body later,
        zs.dropWhile (fun z => !q z.1) = (a.head,body) :: later ∧ P a body later := by
  induction falls with
  | nil => exact .inl ⟨rfl,fun a member => absurd member List.not_mem_nil⟩
  | @cons a arms body later here rest ih =>
    cases has : q a.head with
    | true =>
      refine .inr ⟨a,List.mem_cons_self ..,has,body,later,?_,here⟩
      rw [List.dropWhile_cons,has]
      rfl
    | false =>
      have past : List.dropWhile (fun z => !q z.1) ((a.head,body) :: later) =
          later.dropWhile fun z => !q z.1 := by
        rw [List.dropWhile_cons,has]
        rfl
      rw [past]
      refine ih.imp (fun none => ⟨none.1,List.forall_mem_cons.mpr ⟨has,none.2⟩⟩) ?_
      exact fun ⟨b,member,found⟩ => ⟨b,List.mem_cons_of_mem _ member,found⟩

/-- A switch enters an arm for the node that the value leads to, or none when it leads to where it meets. -/
theorem chosen {g : Graph} {node : Node} {follow : Option NodeId} {v : Int} {m : NodeId}
    (falls : Falls P (armsOf g node follow) zs) (ends : node.Ends) (kind : node.kind = .switch)
    (goes : node.caseOf v = some m) : Recovery.chosen v zs = [] ∧ follow = some m ∨
      ∃ a body later, Recovery.chosen v zs = (a.head,body) :: later ∧ P a body later ∧ a.target = m := by
  have gathered := armsGathered g node follow
  obtain ⟨-,-,-,consistent⟩ := Node.endsSwitch ends kind
  rcases falls.enter fun h => h.keys.contains v with ⟨none,noKeys⟩ | ⟨a,member,has,body,later,found,here⟩
  · have noCase : node.cases.find? (fun c => c.keys.contains v) = Option.none := by
      rw [List.find?_eq_none]
      intro c inside holds
      obtain ⟨a,member,same⟩ := List.mem_map.mp ((gathered.targets c.target).mpr (.inl ⟨c,inside,rfl⟩))
      have here := (gathered.keys a member v).mpr ⟨c,inside,same.symm,by simpa using holds⟩
      have absent := noKeys a member
      simp [here] at absent
    have default : node.default = .some m := by rwa [Node.caseOf,noCase] at goes
    have entered : Recovery.chosen v zs = zs.dropWhile fun z => !z.1.isDefault := by
      rw [Recovery.chosen,none]
    rw [entered]
    rcases falls.enter fun h => h.isDefault with ⟨none,noDefault⟩ | ⟨a,member,isDefault,body,later,found,here⟩
    · refine .inl ⟨none,?_⟩
      by_contra apart
      obtain ⟨a,member,same⟩ := List.mem_map.mp ((gathered.targets m).mpr (.inr ⟨default,apart⟩))
      have here := (gathered.defaults a member).mpr (same.symm ▸ ⟨default,apart⟩)
      rw [noDefault a member] at here
      contradiction
    · obtain ⟨target,-⟩ := (gathered.defaults a member).mp isDefault
      exact .inr ⟨a,body,later,found,here,Option.some.inj (target.symm.trans default)⟩
  · obtain ⟨c,inside,target,holds⟩ := (gathered.keys a member v).mp (by simpa using has)
    have same : a.target = m := by
      rw [Node.caseOf] at goes
      cases chosen : node.cases.find? fun c => c.keys.contains v with
      | none => exact absurd (List.find?_eq_none.mp chosen c inside) (by simpa using holds)
      | some c' =>
        rw [chosen] at goes
        have holds' : v ∈ c'.keys := by simpa using List.find?_some chosen
        rw [← target,← consistent c' (List.mem_of_find?_eq_some chosen) c inside v holds' holds]
        exact Option.some.inj goes
    refine .inr ⟨a,body,later,?_,here,same⟩
    rw [Recovery.chosen,found]

theorem tells (falls : Falls (ArmRuns w p j ss key k) arms zs) : Tells w p (j + 1) (pointsArms key zs) k := by
  induction falls with
  | nil => exact .nil
  | cons here rest ih => exact here.tells.under.append ih

theorem last {a : Arm} {body : List Piece}
    (leads : SafeIn p ss a.target → w.Leads p.graph j (.parts body :: .switch key [] :: k) a.target)
    (tells : Tells w p (j + 1) (pointsAll body) (.switch key [] :: k)) :
    Falls (ArmRuns w p j ss key k) [a] (dropLastBreak [(a.head,body)]) := by
  rcases dropBreakForm a.head body with same | ⟨l,ts,rfl,same⟩
  · rw [same]
    exact .cons ⟨leads,tells⟩ .nil
  · rw [same]
    exact .cons ⟨fun safe => (leads safe).trims .out,tells.trim fun us => .out⟩ .nil

end Falls

/-! ### All jobs -/

theorem Grows.called {scope : Option Key} (grows : Grows (s.nameScope scope) w.state) (same : scope = some key) :
    w.name key = key.own := by
  subst same
  have here : (s.nameScope (some key)).names.get? key = some key.own := by
    rw [State.namesNameScope,if_pos rfl]
  rw [Draft.name,Table.getD,grows.toLater.given here,Option.getD_some]

theorem Grows.soleEnter {own : String} {follow : Option NodeId} (keyed : s.Keyed)
    (grows : Grows (s.enter n own follow) s') (here : s'.placed.get? u = some (s.key own)) : u = n := by
  have begun : Grows (s.bump.place n (s.key own)) (s.enter n own follow) := .quiet rfl rfl rfl rfl rfl
  exact Grows.sole keyed (begun.trans grows) here

theorem Grows.soleStatement {ss : List Stmt} (keyed : s.Keyed) (grows : Grows (s.statement n ss).2 s')
    (here : s'.placed.get? u = some (s.key "")) : u = n := by
  have begun : Grows (s.bump.place n (s.key "")) (s.statement n ss).2 := .setMark _ n .finished
  exact Grows.sole keyed (begun.trans grows) here

theorem State.Keyed.statement (keyed : s.Keyed) (n : NodeId) (stmts : List Stmt) :
    (s.statement n stmts).1 = .stmts (s.key "") n stmts := by
  simp [State.statement,keyed.skipped]

theorem Due.safe (due : Due p f n s) (sound : p.Sound) (bare : Bare p f n)
    (out : t ∈ (p.graph.node n).succs) : SafeIn p f.scopes t :=
  safeSucc sound due.orderly due.member due.unmet due.ready (fun a member here _ => startsOpen bare a member here)
    out

theorem lastExits {g : Graph} (ends : (g.node n).Ends) (noBranch : (g.node n).kind ≠ .cond)
    (noSwitch : (g.node n).kind ≠ .switch)
    (alone : ∀ t, (g.node n).kind = .stmt → (g.node n).succs ≠ [t]) :
    (∀ o, g.after n o = none) ∧ endsInExit (g.node n).stmts = true := by
  cases kind : (g.node n).kind with
  | stmt =>
    simp only [Node.Ends,kind] at ends
    obtain ⟨⟨t,succ⟩,-⟩ := ends
    exact absurd succ (alone t kind)
  | cond => exact absurd kind noBranch
  | switch => exact absurd kind noSwitch
  | ret | throw =>
    simp only [Node.Ends,kind] at ends
    exact ⟨fun o => by rw [Graph.after,kind],ends.2⟩

theorem switchTakes {node : Node} (ends : node.Ends) (kind : node.kind = .switch) (v : Int) :
    ∃ m, node.caseOf v = some m ∧ m ∈ node.succs := by
  obtain ⟨-,⟨t,default⟩,succs,-⟩ := Node.endsSwitch ends kind
  unfold Node.caseOf
  cases found : node.cases.find? fun c => c.keys.contains v with
  | none => exact ⟨t,default,(succs t).mpr (.inl default)⟩
  | some c => exact ⟨c.target,rfl,(succs _).mpr (.inr ⟨c,List.mem_of_find?_eq_some found,rfl⟩)⟩

theorem runsEach {jobs : List (Frame × NodeId)} {out : List Piece} {outs : List (List Piece)} {s₂ : State}
    (sound : p.Sound) (grows : Grows s₂ w.state) (first : Writes p (.go f (some t) out) s s₁)
    (ihFirst : Grows s₁ w.state → Job.Runs w p (.go f (some t) out) s) (rest : Writes p (.each jobs outs) s₁ s₂)
    (ihRest : Grows s₂ w.state → Job.Runs w p (.each jobs outs) s₁) :
    Job.Runs w p (.each ((f,t) :: jobs) (out :: outs)) s := by
  have free := sound.graph.regions
  intro m follow key ss arms same fit sure keyed j k leaves answers
  cases arms with
  | nil => contradiction
  | cons a arms =>
    obtain ⟨head,rfl⟩ := List.cons.inj same
    obtain ⟨rfl,rfl⟩ := Prod.mk.inj head
    obtain ⟨here,others⟩ := List.forall_mem_cons.mp sure
    have sureHere : ∀ x, some a.target = some x → s.Sure p.graph x := fun x same =>
      Option.some.inj same ▸ here
    have moved := (first.orders sound fit.arm sureHere).1
    have later := ihRest grows m follow key ss arms rfl (moved.armFit fit)
      (fun b member => (others b member).mono moved.more) ((first.grows free).keyed keyed) j k leaves answers
    have around : ∀ bodies, Answers w p j (.switch m follow key :: ss) (.switch key bodies :: k) :=
      fun bodies => .switch leaves answers
    have runs := ihFirst ((rest.grows free).trans grows) fit.arm sureHere keyed j
    cases arms with
    | nil =>
      cases rest
      obtain ⟨leads,tells⟩ := runs (.switch key [] :: k) (around []) fun _ x ends => by simp at ends
      exact .last (leads a.target rfl) tells
    | cons b arms =>
      cases rest with
      | @each _ _ _ out' outs' =>
        have same : dropLastBreak (((a :: b :: arms).map (·.head)).zip (out :: out' :: outs')) =
            (a.head,out) :: dropLastBreak (((b :: arms).map (·.head)).zip (out' :: outs')) := rfl
        rw [same]
        cases later' : dropLastBreak (((b :: arms).map (·.head)).zip (out' :: outs')) with
        | nil =>
          rw [later'] at later
          cases later
        | cons z zs =>
          rw [later'] at later
          obtain ⟨leads,tells⟩ := runs (.switch key (z.2 :: zs.map (·.2)) :: k) (around _)
            fun _ x ends safe => by
              cases later with
              | cons here =>
                obtain rfl : b.target = x := by simpa using ends
                exact (here.leads safe).silent rfl
          exact .cons ⟨leads a.target rfl,tells⟩ later

theorem runsLast (sound : p.Sound) (grows : Grows (s.statement n (p.graph.node n).stmts).2 w.state)
    (noBranch : (p.graph.node n).kind ≠ .cond) (noSwitch : (p.graph.node n).kind ≠ .switch)
    (alone : ∀ t, (p.graph.node n).kind = .stmt → (p.graph.node n).succs ≠ [t]) :
    Job.Runs w p (.emit f n [(s.statement n (p.graph.node n).stmts).1]) s := by
  intro due keyed j k answers ends
  obtain ⟨none,exits⟩ := lastExits (sound.graph.ends n due.member) noBranch noSwitch alone
  rw [keyed.statement]
  have leads : w.Leads p.graph (j + 1) (.parts [.stmts (s.key "") n (p.graph.node n).stmts] :: k) n := by
    refine ⟨_,_,.refl,rfl,fun o => ?_⟩
    rw [none o]
    show w.Goes (if endsInExit (p.graph.node n).stmts then [] else .parts [] :: k) []
    rw [exits]
    exact .refl
  exact ⟨leads,.parts leads (fun u here _ => Grows.soleStatement keyed grows here) .nil .nil⟩

theorem runsPlain {out : List Piece} (sound : p.Sound) (grows : Grows s' w.state) (bare : Bare p f n)
    (kind : (p.graph.node n).kind = .stmt) (succ : (p.graph.node n).succs = [t])
    (rest : Writes p (.go f (some t) out) (s.statement n (p.graph.node n).stmts).2 s')
    (ih : Grows s' w.state → Job.Runs w p (.go f (some t) out) (s.statement n (p.graph.node n).stmts).2) :
    Job.Runs w p (.emit f n ((s.statement n (p.graph.node n).stmts).1 :: out)) s := by
  have free := sound.graph.regions
  intro due keyed j k answers ends
  have out' : t ∈ (p.graph.node n).succs := succ ▸ List.mem_singleton_self t
  have met := s.seenStatement (n := n) (p.graph.node n).stmts
  have passes : endsInExit (p.graph.node n).stmts = false := by
    have ends := sound.graph.ends n due.member
    rw [Node.Ends,kind] at ends
    exact ends.2
  have passed : endsInJump [(s.statement n (p.graph.node n).stmts).1] = false := keyed.statement n _ ▸ passes
  have after : ∀ o, p.graph.after n o = some t := fun o => by rw [Graph.after,kind,succ]; rfl
  obtain ⟨goes,told⟩ := ih grows (due.stated bare _)
    (fun x same => Option.some.inj same ▸ due.sureSucc sound (fun k old => (met k).mpr (.inl old))
      ((met n).mpr (.inr rfl)) out') ((Grows.statement s n _).keyed keyed) j k answers
    fun passes' => ends (endsAfter passed passes')
  rw [keyed.statement]
  have leads : w.Leads p.graph (j + 1) (.parts (.stmts (s.key "") n (p.graph.node n).stmts :: out) :: k) n := by
    refine ⟨_,_,.refl,rfl,fun o => ?_⟩
    rw [after o]
    show w.Leads p.graph j (if endsInExit (p.graph.node n).stmts then [] else .parts out :: k) t
    rw [passes]
    exact goes t rfl (due.safe sound bare out')
  exact ⟨leads,.parts leads (fun u here _ => Grows.soleStatement keyed ((rest.grows free).trans grows) here)
    .nil told⟩

theorem runsBranch {cond : Test} {first second : Option NodeId} {lead onTrue onFalse more : List Piece}
    {s₂ s₃ : State} (sound : p.Sound) (grows : Grows s₃ w.state) (bare : Bare p f n)
    (kind : (p.graph.node n).kind = .cond)
    (sides : orient p s f (p.graph.node n) (p.branchFollows.get? n) = (cond,first,second))
    (start : s.lead n (p.graph.node n).stmts = (lead,s₀))
    (left : Writes p (.go (sideFrame f (p.branchFollows.get? n)) first onTrue) (s₀.enter n ""
      (p.branchFollows.get? n)) s₁)
    (ihLeft : Grows s₁ w.state → Job.Runs w p (.go (sideFrame f (p.branchFollows.get? n)) first onTrue)
      (s₀.enter n "" (p.branchFollows.get? n)))
    (right : Writes p (.go (sideFrame f (p.branchFollows.get? n)) second onFalse) s₁ s₂)
    (ihRight : Grows s₂ w.state → Job.Runs w p (.go (sideFrame f (p.branchFollows.get? n)) second onFalse) s₁)
    (rest : Writes p (.goOn f (lead ++ branchPieces (s₀.key "") n cond (p.branchFollows.get? n).isSome onTrue
      onFalse) (p.branchFollows.get? n) more) (s₂.leave n (p.branchFollows.get? n)) s₃)
    (ihRest : Grows s₃ w.state → Job.Runs w p (.goOn f (lead ++ branchPieces (s₀.key "") n cond
      (p.branchFollows.get? n).isSome onTrue onFalse) (p.branchFollows.get? n) more) (s₂.leave n
      (p.branchFollows.get? n))) :
    Job.Runs w p (.emit f n (lead ++ branchPieces (s₀.key "") n cond (p.branchFollows.get? n).isSome onTrue
      onFalse ++ more)) s := by
  have free := sound.graph.regions
  intro due keyed j k answers ends
  have nodeEnds := sound.graph.ends n due.member
  obtain ⟨rfl,rfl⟩ := leadAlone (Node.endsCond nodeEnds kind).1 start
  have met := s₀.seenEnter (n := n) "" (p.branchFollows.get? n)
  have sure : ∀ x ∈ (p.graph.node n).succs, (s₀.enter n "" (p.branchFollows.get? n)).Sure p.graph x :=
    fun x out => due.sureSucc sound (fun k old => (met k).mpr (.inl old)) ((met n).mpr (.inr rfl)) out
  have fit := due.enterBranch sound bare
  obtain ⟨targets,-⟩ := sideTargets nodeEnds kind sides
  have sureLeft := fun x same => sure x (targets x (.inl same))
  have movedLeft := (left.orders sound fit sureLeft).1
  have sureRight := fun x same => (sure x (targets x (.inr same))).mono movedLeft.more
  have movedRight := (right.orders sound (movedLeft.fit fit) sureRight).1
  obtain ⟨⟨fitRest,sureRest⟩,-⟩ := due.resumes (movedLeft.trans movedRight)
    (sideScopes f (p.branchFollows.get? n) ▸ movedRight.orderly)
    fun x follow => due.branchFollow sound "" follow
  have growsRight : Grows s₂ w.state := (Grows.leave _ _ _).trans ((rest.grows free).trans grows)
  have growsLeft : Grows s₁ w.state := (right.grows free).trans growsRight
  have keyedIn := (Grows.enter s₀ n "" (p.branchFollows.get? n)).keyed keyed
  have keyedLeft : s₁.Keyed := (left.grows free).keyed keyedIn
  have keyedRight : s₂.Keyed := (right.grows free).keyed keyedLeft
  obtain ⟨resumes,told⟩ := ihRest grows fitRest sureRest ((Grows.leave _ _ _).keyed keyedRight) j k answers ends
  refine branchRuns (fun o => ?_) (ihLeft growsLeft fit sureLeft keyedIn j)
    (ihRight growsRight (movedLeft.fit fit) sureRight keyedLeft j) (fun none => ?_) (fun none => ?_) resumes told
    (fun u here _ => Grows.soleEnter keyed ((left.grows free).trans growsLeft) here) answers ends
  · obtain ⟨m,after,out,way⟩ := branchTakes nodeEnds kind sides o
    exact ⟨m,after,due.safe sound bare out,way⟩
  · subst none
    exact right.nowhere?
  · rw [none] at rest
    exact rest.ends?

theorem runsSwitch {lead more : List Piece} {bodies : List (List Piece)} {s₂ : State} (sound : p.Sound)
    (grows : Grows s₂ w.state) (bare : Bare p f n) (kind : (p.graph.node n).kind = .switch)
    (start : s.lead n (p.graph.node n).stmts = (lead,s₀))
    (arms : Writes p (.each (switchJobs p f n s₀) bodies) (s₀.enter n (switchName n) (switchFollow p f n)) s₁)
    (ihArms : Grows s₁ w.state → Job.Runs w p (.each (switchJobs p f n s₀) bodies) (s₀.enter n (switchName n)
      (switchFollow p f n)))
    (rest : Writes p (.goOn f (lead ++ [.switch (s₀.key (switchName n)) n (switchValue (p.graph.node n))
      (writtenArms p f n bodies)]) (switchFollow p f n) more) (s₁.leave n (switchFollow p f n)) s₂)
    (ihRest : Grows s₂ w.state → Job.Runs w p (.goOn f (lead ++ [.switch (s₀.key (switchName n)) n (switchValue
      (p.graph.node n)) (writtenArms p f n bodies)]) (switchFollow p f n) more) (s₁.leave n (switchFollow p f
      n))) :
    Job.Runs w p (.emit f n (lead ++ [.switch (s₀.key (switchName n)) n (switchValue (p.graph.node n))
      (writtenArms p f n bodies)] ++ more)) s := by
  have free := sound.graph.regions
  intro due keyed j k answers ends
  have nodeEnds := sound.graph.ends n due.member
  obtain ⟨alone,⟨t,default⟩,succs,-⟩ := Node.endsSwitch nodeEnds kind
  obtain ⟨rfl,rfl⟩ := leadAlone alone start
  have fit := due.enterSwitch sound bare
  have sure := due.sureArms sound kind
  have moved := (arms.orders sound _ _ rfl fit sure).1
  obtain ⟨⟨fitRest,sureRest⟩,-⟩ := due.resumes moved moved.orderly.closeSwitch
    fun x follow => due.switchMeets sound (switchName n) follow
  have growsArms : Grows s₁ w.state := (Grows.leave _ _ _).trans ((rest.grows free).trans grows)
  have keyedIn := (Grows.enter s₀ n (switchName n) (switchFollow p f n)).keyed keyed
  have keyedRest := (Grows.leave s₁ n (switchFollow p f n)).keyed ((arms.grows free).keyed keyedIn)
  obtain ⟨resumes,told⟩ := ihRest grows fitRest sureRest keyedRest j k answers ends
  have leaves := resumes rfl
  have falls := ihArms growsArms n (switchFollow p f n) (s₀.key (switchName n)) f.scopes (switchArms p f n) rfl
    fit sure keyedIn j (.parts more :: k) leaves (.parts answers)
  have leads : w.Leads p.graph (j + 1) (.parts (.switch (s₀.key (switchName n)) n
      (switchValue (p.graph.node n)) (writtenArms p f n bodies) :: more) :: k) n := by
    refine ⟨_,_,.refl,rfl,fun o => ?_⟩
    obtain ⟨m,goes,out⟩ := switchTakes nodeEnds kind (o.value (switchValue (p.graph.node n)))
    have after : p.graph.after n o = some m := by rw [Graph.after,kind]; exact goes
    have safe := due.safe sound bare out
    rw [after]
    show w.Leads p.graph j (enterArms (s₀.key (switchName n)) (.parts more :: k)
      (chosen (o.value (switchValue (p.graph.node n))) (writtenArms p f n bodies))) m
    rcases falls.chosen nodeEnds kind goes with ⟨none,follow⟩ | ⟨a,body,later,found,here,same⟩
    · rw [show chosen _ (writtenArms p f n bodies) = [] from none]
      exact leaves m follow safe
    · rw [show chosen _ (writtenArms p f n bodies) = _ from found]
      subst same
      exact here.leads (safe.mono fun _ _ member => List.mem_cons_of_mem _ member)
  exact ⟨leads,.parts leads
    (fun u here _ => Grows.soleEnter keyed ((arms.grows free).trans growsArms) here) falls.tells told⟩

theorem runsPretest {found shape : LoopShape} {body more : List Piece} {s₂ : State} (sound : p.Sound)
    (grows : Grows s₂ w.state) (starts : shapeAt? p f n = some found) (settled : settleShape p s found = shape)
    (kind : shape.kind = .pretest)
    (inner : Writes p (.go { scopes := loopScopes f shape n s, stop := some n } (some shape.start) body)
      ((s.openLoop n).setMark n .entered) s₁)
    (ihInner : Grows s₁ w.state → Job.Runs w p (.go { scopes := loopScopes f shape n s, stop := some n } (some
      shape.start) body) ((s.openLoop n).setMark n .entered))
    (rest : Writes p (.goOn f [.loop (s.key (loopName n)) .pretest n n (some (loopTest p.graph n shape.start))
      (dropLastContinue body)] shape.follow more) (s₁.setMark n .finished) s₂)
    (ihRest : Grows s₂ w.state → Job.Runs w p (.goOn f [.loop (s.key (loopName n)) .pretest n n (some (loopTest
      p.graph n shape.start)) (dropLastContinue body)] shape.follow more) (s₁.setMark n .finished)) :
    Job.Runs w p (.emit f n (.loop (s.key (loopName n)) .pretest n n (some (loopTest p.graph n shape.start))
      (dropLastContinue body) :: more)) s := by
  have free := sound.graph.regions
  intro due keyed j k answers ends
  obtain ⟨fresh,header⟩ := due.fresh starts
  obtain rfl : found = shape := (fresh.settles sound).symm.trans settled
  have fits := sound.shapes found fresh.shape
  obtain ⟨again,cond,stays,x,follow,ways⟩ := fits.pretest kind
  obtain ⟨fit,sure⟩ := due.beginPretest fresh sound header kind
  have written := due.pretestBody fresh sound header kind (inner.orders sound)
  have met : ∀ k, (s₁.setMark n .finished).Seen k ↔ s₁.Seen k := fun k =>
    (State.seenSetMark (by decide) k).trans (or_iff_left_of_imp fun same => same ▸ header ▸ written.header)
  obtain ⟨fitRest,sureRest⟩ := written.resumes due fresh header sound met rfl
  have opened : Grows s ((s.openLoop n).setMark n .entered) :=
    (Grows.openLoop s n).trans (.setMark _ n .entered)
  have later : Grows s₁ w.state := (Grows.setMark s₁ n .finished).trans ((rest.grows free).trans grows)
  have keyedRest := ((opened.trans (inner.grows free)).trans (.setMark s₁ n .finished)).keyed keyed
  obtain ⟨resumes,told⟩ := ihRest grows fitRest sureRest keyedRest j k answers ends
  have leaves : ∀ x, found.follow = some x → w.Leads p.graph j (.parts more :: k) x := fun x follow =>
    resumes rfl x follow (fresh.safeFollow sound (header ▸ due.ready) follow)
  have out : found.start ∈ (p.graph.node n).succs := by
    obtain ⟨y,-,succs⟩ := fresh.pretestSuccs sound header kind
    exact (succs _).mpr (.inl rfl)
  have safe : SafeIn p (loopScopes f found n s) found.start := by
    refine (safeSucc sound due.orderly due.member due.unmet due.ready (fun b shape same tested => ?_) out).mono
      fun _ _ member => List.mem_cons_of_mem _ member
    rw [sound.distinct b shape found fresh.shape (same.trans header.symm),kind] at tested
    contradiction
  have apart : found.start ≠ x := fun same => (fits.follow x follow).1 (same ▸ stays)
  have round (i) (le : i ≤ j) (here : w.Leads p.graph i (.loop (s.key (loopName n)) .pretest n
      (some (loopTest p.graph n found.start)) (dropLastContinue body) :: .parts more :: k) n) :=
    ihInner later fit sure (opened.keyed keyed) i _
      (answers.inLoop leaves le (again.trans header) here) fun _ x ends _ => by
          obtain rfl : n = x := by simpa using ends
          exact here
  have all := rounds (by decide) (loopTakes (header ▸ cond) apart (header ▸ ways))
    (fun i le here => dropContinue ((round i le here).1 _ rfl safe)) (leaves x follow)
  have leads : w.Leads p.graph (j + 1) (.parts (.loop (s.key (loopName n)) .pretest n n
      (some (loopTest p.graph n found.start)) (dropLastContinue body) :: more) :: k) n :=
    (all (j + 1) (Nat.le_refl _)).silent rfl
  exact ⟨leads,loopTells leads (fun u here _ => Grows.sole keyed
    ((Grows.setMark _ n .entered).trans ((inner.grows free).trans later)) here)
    (round j (Nat.le_refl j) (all j (Nat.le_succ j))).2 told⟩

theorem runsPosttest {found shape : LoopShape} {latch : NodeId} {body more : List Piece} {s₂ : State}
    (sound : p.Sound) (grows : Grows s₂ w.state) (starts : shapeAt? p f n = some found)
    (settled : settleShape p s found = shape) (kind : shape.kind = .posttest) (test : shape.test = some latch)
    (inner : Writes p (.emit { scopes := loopScopes f shape n s, stop := some latch } n body) (((s.openLoop
      n).place latch (s.key (loopName n))).setMark latch .entered) s₁)
    (ihInner : Grows s₁ w.state → Job.Runs w p (.emit { scopes := loopScopes f shape n s, stop := some latch }
      n body) (((s.openLoop n).place latch (s.key (loopName n))).setMark latch .entered))
    (rest : Writes p (.goOn f [.loop (s.key (loopName n)) .posttest latch n (some (loopTest p.graph latch n))
      (dropLastContinue body)] shape.follow more) (s₁.setMark latch .finished) s₂)
    (ihRest : Grows s₂ w.state → Job.Runs w p (.goOn f [.loop (s.key (loopName n)) .posttest latch n (some
      (loopTest p.graph latch n)) (dropLastContinue body)] shape.follow more) (s₁.setMark latch .finished)) :
    Job.Runs w p (.emit f n (.loop (s.key (loopName n)) .posttest latch n (some (loopTest p.graph latch n))
      (dropLastContinue body) :: more)) s := by
  have free := sound.graph.regions
  intro due keyed j k answers ends
  obtain ⟨fresh,header⟩ := due.fresh starts
  obtain rfl : found = shape := (fresh.settles sound).symm.trans settled
  have fits := sound.shapes found fresh.shape
  obtain ⟨latch',x,test',again,inside,other,cond,follow,ways⟩ := fits.posttest kind
  obtain rfl : latch' = latch := Option.some.inj (test'.symm.trans test)
  have begun := due.beginPosttest fresh sound header kind test
  have written := due.posttestBody fresh sound header kind test (inner.orders sound)
  have met : ∀ k, (s₁.setMark latch' .finished).Seen k ↔ s₁.Seen k := fun k =>
    (State.seenSetMark (by decide) k).trans (or_iff_left_of_imp fun same => written.stop k (same ▸ rfl))
  obtain ⟨fitRest,sureRest⟩ := written.resumes due fresh header sound met rfl
  have opened := Grows.openTested s n latch'
  have later : Grows s₁ w.state := (Grows.setMark s₁ latch' .finished).trans ((rest.grows free).trans grows)
  have keyedRest := ((opened.trans (inner.grows free)).trans (.setMark s₁ latch' .finished)).keyed keyed
  obtain ⟨resumes,told⟩ := ihRest grows fitRest sureRest keyedRest j k answers ends
  have leaves : ∀ x, found.follow = some x → w.Leads p.graph j (.parts more :: k) x := fun x follow =>
    resumes rfl x follow (fresh.safeFollow sound (header ▸ due.ready) follow)
  have apart : n ≠ x := fun same =>
    (fits.follow x follow).1 (same ▸ header ▸ sound.header fresh.shape)
  have round (i) (le : i ≤ j) (here : w.Leads p.graph i (.loop (s.key (loopName n)) .posttest latch'
      (some (loopTest p.graph latch' n)) (dropLastContinue body) :: .parts more :: k) latch') :=
    ihInner later begun (opened.keyed keyed) i _
      (answers.inLoop leaves le again here) fun _ x ends _ => by
          obtain rfl : latch' = x := by simpa using ends
          exact here
  have all := rounds (by decide) (loopTakes cond apart (header ▸ ways))
    (fun i le here => dropContinue (round i le here).1.less) (leaves x follow)
  have runs := round j (Nat.le_refl j) (all j (Nat.le_succ j))
  have leads : w.Leads p.graph (j + 1) (.parts (.loop (s.key (loopName n)) .posttest latch' n
      (some (loopTest p.graph latch' n)) (dropLastContinue body) :: more) :: k) n :=
    (dropContinue runs.1).silent rfl
  exact ⟨leads,loopTells leads (fun u here isFree => (Grows.soleTested keyed
    ((inner.grows free).trans later) here).resolve_right fun same =>
      isFree found fresh.shape kind (same ▸ test)) runs.2 told⟩

theorem runsEndless {found shape : LoopShape} {body more : List Piece} {s₂ : State} (sound : p.Sound)
    (grows : Grows s₂ w.state) (starts : shapeAt? p f n = some found) (settled : settleShape p s found = shape)
    (kind : shape.kind ≠ .pretest) (test : shape.kind = .posttest → shape.test = none)
    (inner : Writes p (.emit { scopes := loopScopes f shape n s } n body) (s.openLoop n) s₁)
    (ihInner : Grows s₁ w.state → Job.Runs w p (.emit { scopes := loopScopes f shape n s } n body) (s.openLoop n))
    (rest : Writes p (.goOn f [.loop (s.key (loopName n)) .endless (-1) n none (dropLastContinue body)]
      shape.follow more) s₁ s₂)
    (ihRest : Grows s₂ w.state → Job.Runs w p (.goOn f [.loop (s.key (loopName n)) .endless (-1) n none
      (dropLastContinue body)] shape.follow more) s₁) :
    Job.Runs w p (.emit f n (.loop (s.key (loopName n)) .endless (-1) n none (dropLastContinue body) :: more))
      s := by
  have free := sound.graph.regions
  intro due keyed j k answers ends
  obtain ⟨fresh,header⟩ := due.fresh starts
  obtain rfl : found = shape := (fresh.settles sound).symm.trans settled
  have kind := fresh.endless sound kind test
  have again := (sound.shapes found fresh.shape).endless kind
  have begun := due.beginEndless fresh sound header kind
  have written := due.endlessBody fresh sound header kind (inner.orders sound)
  obtain ⟨fitRest,sureRest⟩ := written.resumes due fresh header sound (fun k => Iff.rfl) rfl
  have opened := Grows.openLoop s n
  have later : Grows s₁ w.state := (rest.grows free).trans grows
  obtain ⟨resumes,told⟩ := ihRest grows fitRest sureRest ((opened.trans (inner.grows free)).keyed keyed) j k
    answers ends
  have leaves : ∀ x, found.follow = some x → w.Leads p.graph j (.parts more :: k) x := fun x follow =>
    resumes rfl x follow (fresh.safeFollow sound (header ▸ due.ready) follow)
  have round (i) (le : i ≤ j) (here : w.Leads p.graph i (.loop (s.key (loopName n)) .endless (-1) none
      (dropLastContinue body) :: .parts more :: k) n) :=
    ihInner later begun (opened.keyed keyed) i _
      (answers.inLoop leaves le (again.trans header) here) fun _ x ends _ => by simp at ends
  have all := endlessRounds fun i le here => dropContinue (round i le here).1
  have runs := round j (Nat.le_refl j) (all j (Nat.le_succ j))
  have leads : w.Leads p.graph (j + 1) (.parts (.loop (s.key (loopName n)) .endless (-1) n none
      (dropLastContinue body) :: more) :: k) n := (dropContinue runs.1).silent rfl
  exact ⟨leads,loopTells leads (fun u here _ => Grows.sole keyed ((inner.grows free).trans later) here)
    runs.2 told⟩

theorem Writes.runs {job : Job} (writes : Writes p job s s') (sound : p.Sound) (whole : w.Whole)
    (grows : Grows s' w.state) : job.Runs w p s := by
  have free := sound.graph.regions
  induction writes with
  | nowhere => exact fun _ _ _ j k _ _ => ⟨fun x none => absurd none.symm (Option.some_ne_none x),.nil⟩
  | inline way rest ih =>
    intro fit sure keyed j k answers ends
    obtain ⟨leads,tells⟩ := ih grows (fit.due (sure _ rfl) way) keyed j k answers ends
    exact ⟨fun x same _ => Option.some.inj same ▸ leads.less,tells⟩
  | falls way =>
    intro fit sure keyed j k answers ends
    refine ⟨fun x same safe => ?_,.nil⟩
    obtain rfl := Option.some.inj same
    exact (ends rfl _ (routeDone way) safe).silent rfl
  | @breaks f t scope s way =>
    intro fit sure keyed j k answers ends
    refine ⟨fun x same safe => ?_,.alone whole rfl rfl⟩
    obtain rfl := Option.some.inj same
    have jump := routeJump (.inl way)
    rw [way] at jump
    obtain ⟨k',found,leads⟩ := answers.breaks whole fit.orderly.owned safe jump fun key => grows.called
    refine leads.silent ?_
    show (w.breaks (scopeText scope) k).elim Move.stuck Move.silent = _
    rw [found]
    rfl
  | @continues f t scope s way =>
    intro fit sure keyed j k answers ends
    refine ⟨fun x same safe => ?_,.alone whole rfl rfl⟩
    obtain rfl := Option.some.inj same
    have jump := routeJump (.inr way)
    rw [way] at jump
    obtain ⟨k',found,leads⟩ := answers.continues whole fit.orderly.owned jump fun key => grows.called
    refine leads.silent ?_
    show (w.continues (scopeText scope) k).elim Move.stuck Move.silent = _
    rw [found]
    rfl
  | @jumps f t s way =>
    intro fit sure keyed j k answers ends
    refine ⟨fun x same safe => ?_,.alone whole rfl rfl⟩
    obtain rfl := Option.some.inj same
    obtain ⟨k',found,leads⟩ := answers.targets t (sure t rfl).1 (safe.free (routeGoto way))
    refine leads.silent ?_
    show (w.target t).elim Move.stuck Move.silent = _
    rw [found]
    rfl
  | nothing =>
    intro m follow key ss arms same fit sure keyed j k leaves answers
    cases arms with
    | nil => exact .nil
    | cons a arms => contradiction
  | each first rest ihFirst ihRest => exact runsEach sound grows first ihFirst rest ihRest
  | ends =>
    exact fun _ _ _ j k _ _ => ⟨fun _ x none => absurd none.symm (Option.some_ne_none x),.nil⟩
  | never jump way =>
    intro fit sure keyed j k answers ends
    exact ⟨fun passes => absurd passes (by simp [jump]),.nil⟩
  | behind jump way rest ih =>
    intro fit sure keyed j k answers ends
    refine ⟨fun passes => absurd passes (by simp [jump]),?_⟩
    refine (ih grows (fit.due (sure _ rfl) way) keyed j k answers fun passes => ends ?_).2
    rwa [endsAppend rest.nonempty]
  | on passes rest ih =>
    intro fit sure keyed j k answers ends
    obtain ⟨leads,tells⟩ := ih grows fit sure keyed j k answers fun ends' => ends (endsAfter passes ends')
    exact ⟨fun _ => leads,tells⟩
  | last bare noBranch noSwitch alone => exact runsLast sound grows noBranch noSwitch alone
  | plain bare kind succ rest ih => exact runsPlain sound grows bare kind succ rest ih
  | branch bare kind sides start left right rest ihLeft ihRight ihRest =>
    exact runsBranch sound grows bare kind sides start left ihLeft right ihRight rest ihRest
  | switch bare kind start arms rest ihArms ihRest =>
    exact runsSwitch sound grows bare kind start arms ihArms rest ihRest
  | pretest outside starts settled kind inner rest ihInner ihRest =>
    exact runsPretest sound grows starts settled kind inner ihInner rest ihRest
  | posttest outside starts settled kind test inner rest ihInner ihRest =>
    exact runsPosttest sound grows starts settled kind test inner ihInner rest ihRest
  | endless outside starts settled kind test inner rest ihInner ihRest =>
    exact runsEndless sound grows starts settled kind test inner ihInner rest ihRest
  | cleanup outside | catches outside | again outside =>
    rw [noPending free] at outside
    contradiction

end RegCode.Recovery

/-! ### Whole methods

The tree of a graph without protected code, run from its start, visits what a walk of the graph visits. -/
namespace RegCode

namespace Recovery

open RegCode.Tree

variable {w : Draft} {p : Plan} {e n t : NodeId} {j : Nat} {s s' : State}

mutual

theorem pointsParts : (t : Piece) → (∀ u ∈ parts t, isGuarded u = false) →
    t.label :: (points t).map (·.1) = t.parts.map label
  | .block l body, free => by
    rw [parts] at free
    rw [points,parts,List.map_cons,← pointsPartsAll body fun u inside => free u (List.mem_cons_of_mem _ inside)]
  | .branch l n c a none, free => by
    rw [parts] at free
    rw [points,parts,List.map_cons,← pointsPartsAll a fun u inside => free u (List.mem_cons_of_mem _ inside)]
  | .branch l n c a (some b), free => by
    rw [parts] at free
    obtain ⟨inA,inB⟩ := List.forall_mem_append.mp (List.forall_mem_cons.mp free).2
    rw [points,parts,List.map_cons,List.map_append,List.map_append,← pointsPartsAll a inA,
      ← pointsPartsAll b inB]
  | .loop l k n h c body, free => by
    rw [parts] at free
    rw [points,parts,List.map_cons,List.map_map,
      ← pointsPartsAll body fun u inside => free u (List.mem_cons_of_mem _ inside)]
    rfl
  | .switch l n v arms, free => by
    rw [parts] at free
    rw [points,parts,List.map_cons,← pointsPartsArms l arms fun u inside => free u (List.mem_cons_of_mem _ inside)]
  | .guarded l r body cs none, free | .guarded l r body cs (some z), free => by
    rw [parts] at free
    exact absurd (free _ (List.mem_cons_self ..)) (by simp [isGuarded])
  | .stmts _ _ _, _ | .goto _ _, _ | .breakTo _ _, _ | .continueTo _ _, _ => rfl

theorem pointsPartsAll : (ts : List Piece) → (∀ u ∈ partsAll ts, isGuarded u = false) →
    (pointsAll ts).map (·.1) = (partsAll ts).map label
  | [], _ => rfl
  | t :: ts, free => by
    rw [partsAll] at free
    obtain ⟨here,later⟩ := List.forall_mem_append.mp free
    rw [pointsAll,partsAll,List.map_append,List.map_append,← pointsParts t here,← pointsPartsAll ts later,
      List.map_cons,List.map_map]
    rfl

theorem pointsPartsArms (key : Key) : (arms : List (ArmHead × List Piece)) →
    (∀ u ∈ partsArms arms, isGuarded u = false) → (pointsArms key arms).map (·.1) = (partsArms arms).map label
  | [], _ => rfl
  | (h,body) :: rest, free => by
    rw [partsArms] at free
    obtain ⟨here,later⟩ := List.forall_mem_append.mp free
    rw [pointsArms,partsArms,List.map_append,List.map_append,← pointsPartsAll body here,
      ← pointsPartsArms key rest later,List.map_map]
    rfl

end

theorem Tells.targets (tells : Tells w p j (pointsAll w.body) []) (whole : w.Whole)
    (free : ∀ u ∈ partsAll w.body, isGuarded u = false)
    (done : ∀ n ∈ p.graph.rpo, (w.state.placed.get? n).isSome) : Targets w p j := by
  intro t member isFree
  obtain ⟨key,placed⟩ := Option.isSome_iff_exists.mp (done t member)
  obtain ⟨-,u,inside,rfl⟩ := whole.labelled.placed t key placed
  have listed : u.label ∈ (pointsAll w.body).map (·.1) := by
    rw [pointsPartsAll _ free]
    exact List.mem_map_of_mem inside
  obtain ⟨⟨key,k⟩,point,same⟩ := List.mem_map.mp listed
  cases found : (pointsAll w.body).lookup u.label with
  | none => exact absurd same.symm (by simpa using List.lookup_eq_none_iff.mp found _ point)
  | some k =>
    obtain ⟨before,after,cut,-⟩ := List.lookup_eq_some_iff.mp found
    refine ⟨k,by rw [Draft.target,placed]; exact found,?_⟩
    have leads := tells (u.label,k) (by rw [cut]; simp) t placed isFree
    rwa [List.append_nil] at leads

theorem Due.start (sound : p.Sound) (entry : p.graph.entry = some e) : Due p {} e {} where
  orderly :=
    { loops := nofun, switches := nofun, unguarded := nofun, names := List.nodup_nil
      tests := fun _ ⟨_,_,absent,_⟩ => absurd absent List.not_mem_nil
      above := fun _ met => absurd rfl met
      closed := fun _ _ met => absurd rfl met
      reserved := nofun, meets := nofun }
  opened := nofun
  stop := nofun
  member := sound.graph.toEdged.entry e entry
  unmet := fun met => met rfl
  ready _ other dom := absurd (.stay (Ne.symm other)) (dom e entry)

theorem Moved.all (moved : Moved p {} {} s) (sound : p.Sound) (entry : p.graph.entry = some e)
    (here : s.Seen e) : ∀ n ∈ p.graph.rpo, s.Seen n := by
  have ranked := sound.graph.toRanked
  suffices all : ∀ k n, p.graph.rpo[k]? = some n → s.Seen n from
    fun n member => (List.mem_iff_getElem?.mp member).elim fun k there => all k n there
  intro k
  induction k using Nat.strongRecOn with
  | ind k ih =>
    intro n there
    by_cases first : p.graph.entry = some n
    · exact Option.some.inj (entry.symm.trans first) ▸ here
    · obtain ⟨m,inside,out,less⟩ := ranked.earlier n (List.mem_of_getElem? there) first
      obtain ⟨i,before⟩ := List.mem_iff_getElem?.mp inside
      rw [ranked.nums i m before,ranked.nums k n there] at less
      rw [sound.allSuccs inside] at out
      refine (moved.onward m inside (fun met => met rfl) (ih i (by omega) m before) n out).resolve_right ?_
      rintro (stop | fall | held | ⟨z,scope,-⟩)
      · contradiction
      · contradiction
      · exact absurd held List.not_mem_nil
      · exact absurd scope List.not_mem_nil

theorem Remains.nothing {ns : List NodeId} {out : List Piece} (remains : Remains p ns out s s')
    (met : ∀ n ∈ ns, s.Seen n) : out = [] ∧ s' = s := by
  induction remains with
  | none => exact ⟨rfl,rfl⟩
  | met _ rest ih => exact ih fun n member => met n (List.mem_cons_of_mem _ member)
  | more free => exact absurd free (met _ (List.mem_cons_self ..))

theorem Drafted.leads (drafted : Drafted p e w) (sound : p.Sound) (whole : w.Whole)
    (entry : p.graph.entry = some e) (j : Nat) :
    w.Leads p.graph j [.parts w.body] e := by
  have free := sound.graph.regions
  obtain ⟨out,rest,s,here,remains,body⟩ := drafted
  have due := Due.start sound entry
  obtain ⟨moved,met⟩ := here.orders sound due
  have all := moved.all sound entry met
  obtain ⟨rfl,same⟩ := remains.nothing all
  rw [List.append_nil] at body
  have unguarded : ∀ u ∈ partsAll w.body, isGuarded u = false := body ▸ here.unguarded free
  have done : ∀ n ∈ p.graph.rpo, (w.state.placed.get? n).isSome := fun n member =>
    whole.labelled.marked n (same ▸ all n member)
  have keyed : ({} : State).Keyed := ⟨nofun,rfl⟩
  have both : w.Leads p.graph j [.parts w.body] e ∧ Tells w p j (pointsAll w.body) [] := by
    induction j with
    | zero => exact ⟨trivial,fun _ _ _ _ _ => trivial⟩
    | succ j ih =>
      rw [body]
      exact here.runs sound whole (same ▸ .refl _) due keyed j [] (.outermost (ih.2.targets whole unguarded done))
        fun _ x ends => by simp at ends
  exact both.1

end Recovery

namespace Graph

open Recovery

/-- The tree of a numbered graph without regions, whose nodes end as their kind says and hold no more than a test
or a switch where they end with one, visits the nodes that a walk of the graph visits, for all outcomes of its tests
and switches and under either policy for loops. A jump to a label goes on at the part that stands for its node,
and a jump with a label out of the scope that is called so. -/
theorem recoverFollows (g : Graph) (unprotected : g.Unprotected) (policy : Policy) : ∃ r,
    g.recover (Dominators.ofGraph g) policy = .ok r ∧
    r.root = (Tree.block Key.none (g.written (Dominators.ofGraph g) policy).body).relabel
      (g.written (Dominators.ofGraph g) policy).name ∧
    ∀ entry, g.entry = some entry → ∀ os : List Outcome, ∃ enough, ∀ fuel ≥ enough,
      (g.written (Dominators.ofGraph g) policy).exec fuel
        [.parts (g.written (Dominators.ofGraph g) policy).body] os =
          some ((g.walk entry os).map Int.ofNat) := by
  obtain ⟨r,code,root,-⟩ := g.recoverWritten (Dominators.ofGraph g) policy
  refine ⟨r,code,root,fun entry start os => ?_⟩
  have drafted : Drafted (Plan.ofGraph g (Dominators.ofGraph g) policy) entry
      (g.written (Dominators.ofGraph g) policy) := by
    rw [written,start]
    exact Recovery.drafted (Nat.le_refl _) entry
  obtain ⟨enough,done⟩ := (drafted.leads (Plan.soundOfGraph unprotected policy)
    (g.wholeWritten (Dominators.ofGraph g) policy) start (os.length + 1)).exec
  exact ⟨enough,fun fuel le => Draft.execMono _ le done⟩

theorem crossingUnprotected : crossing.Unprotected where
  inStore := by decide
  entry e same := Option.some.inj same ▸ by decide
  empty := nofun
  succs := by decide
  preds := by decide
  catchSuccs := by decide
  catchPreds := by decide
  nums k n here := by
    match k with
    | 0 | 1 | 2 | 3 => cases here; decide
  first := rfl
  earlier n member other := by
    have cases : n = 0 ∨ n = 1 ∨ n = 2 ∨ n = 3 := by simpa [crossing] using member
    obtain rfl | rfl | rfl | rfl := cases
    · exact absurd rfl other
    · exact ⟨0,by decide,by decide,by decide⟩
    · exact ⟨0,by decide,by decide,by decide⟩
    · exact ⟨2,by decide,by decide,by decide⟩
  regions := rfl
  catches := by decide
  ends n member := by
    have cases : n = 0 ∨ n = 1 ∨ n = 2 ∨ n = 3 := by simpa [crossing] using member
    obtain rfl | rfl | rfl | rfl := cases
    · exact ⟨by decide,1,2,rfl,rfl,by simp [crossing,node]⟩
    · exact ⟨⟨2,rfl⟩,rfl⟩
    · exact ⟨by decide,1,3,rfl,rfl,by simp [crossing,node]⟩
    · exact ⟨rfl,rfl⟩

/-- The loop of `crossing` is entered at both of its nodes, once by a jump to a label. -/
theorem recoverFollowsCrossing : crossing.Unprotected ∧ ∃ r,
    crossing.recover (Dominators.ofGraph crossing) {} = .ok r ∧
      ∀ os : List Outcome, ∃ enough, ∀ fuel ≥ enough,
        (crossing.written (Dominators.ofGraph crossing) {}).exec fuel
          [.parts (crossing.written (Dominators.ofGraph crossing) {}).body] os =
            some ((crossing.walk 0 os).map Int.ofNat) := by
  obtain ⟨r,code,-,visits⟩ := recoverFollows crossing crossingUnprotected {}
  exact ⟨crossingUnprotected,r,code,visits 0 rfl⟩

end Graph

end RegCode
