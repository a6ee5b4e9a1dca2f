import RegCode.Proofs.Recovery.Declaring
import RegCode.Proofs.Recovery.Running

/-! Where a graph declares its variables in front of what mentions them, on every way and outside of the loops
that end before, the code that is written for it mentions them in the scopes of their declarations. -/
namespace RegCode

namespace Graph

structure Source (g : Graph) (loops : List Loop) (v : VarId) (d u : NodeId) : Prop where
  other : d ≠ u
  dominates : g.Dominates d u
  declares : v ∈ Stmt.declaredBy (g.node d).stmts
  loops : ∀ l ∈ loops, d ∈ l.body → u ∈ l.body

/-- Tests and switches stand alone in their nodes, and all that a node mentions is a parameter or declared before,
in the node or in a source. -/
structure Declared (g : Graph) (loops : List Loop) (params : List VarId) : Prop where
  tests : ∀ n ∈ g.rpo, (g.node n).kind = .cond → ∃ k c, (g.node n).stmts = [⟨k,.branch c⟩]
  choices : ∀ n ∈ g.rpo, (g.node n).kind = .switch → ∃ k e, (g.node n).stmts = [⟨k,.switch e⟩]
  sources : ∀ n ∈ g.rpo, ∀ v ∈ Stmt.neededBy (g.node n).stmts, v ∈ params ∨ ∃ d, g.Source loops v d n

namespace Declared

variable {g : Graph} {loops : List Loop} {params : List VarId} {n : NodeId}

theorem test (declared : g.Declared loops params) (member : n ∈ g.rpo) (kind : (g.node n).kind = .cond) :
    Stmt.neededBy (g.node n).stmts = readBy ((g.node n).test?.getD default).toExpr ∧
      Stmt.declaredBy (g.node n).stmts = [] := by
  obtain ⟨k,c,alone⟩ := declared.tests n member kind
  rw [Node.test?,Node.last?,alone]
  simp [Stmt.neededBy,Stmt.needed,Stmt.declaredBy,Stmt.declared?,Stmt.uses,Action.uses,Action.exprs,
    Expr.varsAll,readBy]

theorem choice (declared : g.Declared loops params) (member : n ∈ g.rpo) (kind : (g.node n).kind = .switch) :
    Stmt.neededBy (g.node n).stmts = readBy (Recovery.switchValue (g.node n)) ∧
      Stmt.declaredBy (g.node n).stmts = [] := by
  obtain ⟨k,e,alone⟩ := declared.choices n member kind
  rw [Recovery.switchValue,Node.last?,alone]
  simp [Stmt.neededBy,Stmt.needed,Stmt.declaredBy,Stmt.declared?,Stmt.uses,Action.uses,Action.exprs,
    Expr.varsAll,readBy]

end Declared

end Graph

def Plan.Source (p : Plan) : VarId → NodeId → NodeId → Prop := p.graph.Source (p.shapes.map (·.loop))

theorem readNegate (c : Test) : readBy c.negate.toExpr = readBy c.toExpr := by
  cases c with
  | mk op left right => cases right <;> rfl

namespace Recovery

open RegCode.Tree

variable {p : Plan} {f f' : Frame} {a : LoopShape} {n d u x : NodeId} {s s₀ s₁ s₂ s' : State}
  {known more : List VarId} {begins follows : NodeId → Prop} {outs outs' : List (List Piece)}
  {out : List Piece}

/-! ### What is met -/

def Gains (s s' : State) (u : NodeId) : Prop := ¬s.Seen u ∧ s'.Seen u

namespace Gains

theorem mono (gains : Gains s₀ s₁ u) (before : ∀ m, s.Seen m → s₀.Seen m) (after : ∀ m, s₁.Seen m → s'.Seen m) :
    Gains s s' u := ⟨fun old => gains.1 (before u old),after u gains.2⟩

theorem split (gains : Gains s s' u) (s₁ : State) : Gains s s₁ u ∨ Gains s₁ s' u := by
  by_cases met : s₁.Seen u
  · exact .inl ⟨gains.1,met⟩
  · exact .inr ⟨met,gains.2⟩

end Gains

def Covers (p : Plan) (known : List VarId) (s s' : State) : Prop :=
  ∀ u ∈ p.graph.rpo, Gains s s' u → ∀ v ∈ Stmt.neededBy (p.graph.node u).stmts, v ∈ known ∨ ∃ d, p.Source v d u ∧ ¬s.Seen d

structure Shows (p : Plan) (begins : NodeId → Prop) (outs : List (List Piece)) (s s' : State) : Prop where
  under : ∀ u, Gains s s' u → ∀ d, p.graph.Dominates d u →
    Gains s s' d ∨ ∃ x, begins x ∧ Gains s s' x ∧ p.graph.Dominates d x
  declares : ∀ u, Gains s s' u → ∀ v ∈ Stmt.declaredBy (p.graph.node u).stmts, v ∈ declaredWithin outs.flatten
  within : ∀ known, Covers p known s s' → ∀ out ∈ outs, inScopeAll true known out = true

namespace Covers

theorem inner (covers : Covers p known s s') (shows : Shows p begins outs s₀ s₁)
    (before : ∀ m, s.Seen m → s₀.Seen m) (after : ∀ m, s₁.Seen m → s'.Seen m) (le : known ⊆ more)
    (apart : ∀ x, begins x → Gains s₀ s₁ x → ∀ d, d ≠ x → p.graph.Dominates d x → ¬s.Seen d → s₀.Seen d →
      ∀ v u, Gains s₀ s₁ u → p.Source v d u → v ∈ more) : Covers p more s₀ s₁ := by
  intro u inside gains v needs
  rcases covers u inside (gains.mono before after) v needs with here | ⟨d,source,unmet⟩
  · exact .inl (le here)
  · by_cases early : s₀.Seen d
    · refine .inl ?_
      rcases shows.under u gains d source.dominates with ⟨late,-⟩ | ⟨x,first,new,dom⟩
      · exact absurd early late
      · exact apart x first new d (fun same => new.1 (same ▸ early)) dom unmet early v u gains source
    · exact .inr ⟨d,source,early⟩

theorem own (covers : Covers p known s s') (due : Due p f n s) (met : s'.Seen n) :
    (Stmt.neededBy (p.graph.node n).stmts).all known.contains = true := by
  refine allKnown.mpr fun v needs => ?_
  rcases covers n due.member ⟨due.unmet,met⟩ v needs with here | ⟨d,source,unmet⟩
  · exact here
  · exact absurd (due.ready d source.other source.dominates) unmet

end Covers

namespace Shows

theorem still (same : ∀ m, s'.Seen m → s.Seen m)
    (plain : ∀ known, ∀ out ∈ outs, inScopeAll true known out = true) : Shows p begins outs s s' where
  under u gains := absurd (same u gains.2) gains.1
  declares u gains := absurd (same u gains.2) gains.1
  within known _ := plain known

theorem weaken (shows : Shows p begins outs s s') (le : ∀ x, begins x → Gains s s' x → follows x) :
    Shows p follows outs s s' :=
  ⟨fun u gains d dom => (shows.under u gains d dom).imp id fun ⟨x,first,new,above⟩ => ⟨x,le x first new,new,above⟩,
    shows.declares,shows.within⟩

theorem lift (shows : Shows p begins outs s₀ s₁) (before : ∀ m, s.Seen m → s₀.Seen m)
    (after : ∀ m, s₁.Seen m → s'.Seen m) (leads : ∀ x, begins x → ∀ d, d ≠ x → p.graph.Dominates d x →
      Gains s s' d ∨ p.graph.Dominates d n) (gains : Gains s₀ s₁ u) (dom : p.graph.Dominates d u) :
    Gains s s' d ∨ p.graph.Dominates d n := by
  rcases shows.under u gains d dom with new | ⟨x,first,new,above⟩
  · exact .inl (new.mono before after)
  · by_cases same : d = x
    · exact .inl (same ▸ new.mono before after)
    · exact leads x first d same above

theorem join (first : Shows p begins outs s s₁) (rest : Shows p follows outs' s₁ s₂)
    (before : ∀ m, s.Seen m → s₁.Seen m) (after : ∀ m, s₁.Seen m → s₂.Seen m)
    (sure : ∀ x, follows x → s.Sure p.graph x) :
    Shows p (fun x => begins x ∨ follows x) (outs ++ outs') s s₂ where
  under u gains d dom := by
    rcases gains.split s₁ with early | late
    · refine (first.under u early d dom).imp (·.mono (fun _ => id) after) ?_
      rintro ⟨x,starts,new,above⟩
      exact ⟨x,.inl starts,new.mono (fun _ => id) after,above⟩
    · refine (rest.under u late d dom).imp (·.mono before fun _ => id) ?_
      rintro ⟨x,starts,new,above⟩
      exact ⟨x,.inr starts,new.mono before fun _ => id,above⟩
  declares u gains v member := by
    rw [List.flatten_append,declaredWithin,partsAppend,List.flatMap_append]
    exact (gains.split s₁).elim (fun early => List.mem_append_left _ (first.declares u early v member))
      fun late => List.mem_append_right _ (rest.declares u late v member)
  within known covers := by
    refine List.forall_mem_append.mpr ⟨first.within known ?_,rest.within known ?_⟩
    · exact covers.inner first (fun _ => id) after (fun _ => id) fun _ _ _ d _ _ unmet early =>
        absurd early unmet
    · refine covers.inner rest before (fun _ => id) (fun _ => id) fun x starts new d other above unmet _ => ?_
      have ready := (sure x starts).2.resolve_left fun met => new.1 (before x met)
      exact absurd (ready d other above) unmet

end Shows

theorem Due.only (due : Due p f n s) (under : p.graph.Under x n) (other : d ≠ x) (dom : p.graph.Dominates d x)
    (unmet : ¬s.Seen d) : d = n := by
  by_contra apart
  exact unmet (due.ready d apart (under.2 d other dom))

/-! ### Parts of code -/

theorem declaredAppend (ts us : List Piece) : declaredWithin (ts ++ us) = declaredWithin ts ++ declaredWithin us := by
  rw [declaredWithin,partsAppend,List.flatMap_append]
  rfl

theorem declaredDrop {ts : List Piece} {j : Piece} (last : ts.getLast? = some j) (jump : declaredWithin [j] = []) :
    declaredWithin ts.dropLast = declaredWithin ts := by
  obtain ⟨front,rfl⟩ := List.getLast?_eq_some_iff.mp last
  rw [List.dropLast_concat,declaredAppend,jump,List.append_nil]

theorem inScopeDrop {ts : List Piece} {j : Piece} (last : ts.getLast? = some j)
    (holds : inScopeAll true known ts = true) : inScopeAll true known ts.dropLast = true := by
  obtain ⟨front,rfl⟩ := List.getLast?_eq_some_iff.mp last
  rw [List.dropLast_concat]
  exact inScopeFront holds

theorem declaredDropContinue (body : List Piece) : declaredWithin (dropLastContinue body) = declaredWithin body := by
  unfold dropLastContinue
  split
  · rename_i l last
    exact declaredDrop last rfl
  · rfl

theorem inScopeDropContinue {body : List Piece} (holds : inScopeAll true known body = true) :
    inScopeAll true known (dropLastContinue body) = true := by
  unfold dropLastContinue
  split
  · rename_i l last
    exact inScopeDrop last holds
  · exact holds

theorem declaredDropBreak (arms : List (ArmHead × List Piece)) :
    (partsArms (dropLastBreak arms)).flatMap declared = (partsArms arms).flatMap declared := by
  fun_induction dropLastBreak arms with
  | case1 => rfl
  | case2 h body l last =>
    have same := declaredDrop last rfl
    simpa [partsArms,declaredWithin] using same
  | case3 => rfl
  | case4 a rest _ ih =>
    obtain ⟨h,body⟩ := a
    simp only [partsArms,List.flatMap_append,ih]

theorem inScopeDropBreak {arms : List (ArmHead × List Piece)} (holds : inScopeArms true known arms = true) :
    inScopeArms true known (dropLastBreak arms) = true := by
  fun_induction dropLastBreak arms with
  | case1 => exact holds
  | case2 h body l last =>
    rw [inScopeArms,Bool.and_eq_true] at holds ⊢
    exact ⟨inScopeDrop last holds.1,holds.2⟩
  | case3 => exact holds
  | case4 a rest _ ih =>
    obtain ⟨h,body⟩ := a
    rw [inScopeArms,Bool.and_eq_true] at holds ⊢
    exact ⟨holds.1,ih holds.2⟩

theorem inScopeZip {heads : List ArmHead} {bodies : List (List Piece)}
    (holds : ∀ out ∈ bodies, inScopeAll true known out = true) : inScopeArms true known (heads.zip bodies) = true := by
  induction heads generalizing bodies with
  | nil => rw [List.zip_nil_left,inScopeArms]
  | cons h heads ih =>
    cases bodies with
    | nil => rw [List.zip_nil_right,inScopeArms]
    | cons b bodies =>
      rw [List.forall_mem_cons] at holds
      rw [List.zip_cons_cons,inScopeArms,holds.1,ih holds.2,Bool.and_self]

theorem inScopeBranch {key : Key} {cond : Test} {meets : Bool} {onTrue onFalse : List Piece}
    (test : (readBy cond.toExpr).all known.contains = true) (left : inScopeAll true known onTrue = true)
    (right : inScopeAll true known onFalse = true) :
    inScopeAll true known (branchPieces key n cond meets onTrue onFalse) = true := by
  unfold branchPieces
  split
  · rw [inScopeAll,inScopeAll,inScope,test,left]
    rfl
  · split
    · rw [inScopeAll,inScopeAll,inScope,readNegate,test,right]
      rfl
    · split
      · rw [inScopeAll,inScope,test,left]
        exact right
      · rw [inScopeAll,inScopeAll,inScope,test,left,right]
        rfl

theorem declaredBranch (key : Key) (n : NodeId) (cond : Test) (meets : Bool) (onTrue onFalse : List Piece) :
    declaredWithin (branchPieces key n cond meets onTrue onFalse) =
      declaredWithin onTrue ++ declaredWithin onFalse := by
  obtain ⟨c,x,y,-,pieces⟩ := partsBranch key n cond meets onTrue onFalse
  rw [declaredWithin,pieces,List.flatMap_cons,List.flatMap_append]
  rfl

/-! ### Constructs -/

namespace Shows

theorem stated {piece : Piece} {l : Key} (due : Due p f n s)
    (form : piece = .stmts l n (p.graph.node n).stmts) (met : ∀ k, s₀.Seen k ↔ s.Seen k ∨ k = n)
    (rest : Shows p begins [out] s₀ s') (grown : ∀ k, s₀.Seen k → s'.Seen k)
    (ways : ∀ x, begins x → p.graph.Under x n) : Shows p (· = n) [piece :: out] s s' where
  under u gains d dom := by
    have begun : ∀ k, s.Seen k → s₀.Seen k := fun k old => (met k).mpr (.inl old)
    have here : Gains s s' n := ⟨due.unmet,grown n ((met n).mpr (.inr rfl))⟩
    suffices lifted : Gains s s' d ∨ p.graph.Dominates d n from lifted.imp id fun above => ⟨n,rfl,here,above⟩
    rcases gains.split s₀ with early | late
    · obtain rfl := ((met u).mp early.2).resolve_left early.1
      exact .inr dom
    · exact rest.lift begun (fun _ => id) (fun x first d other above => .inr ((ways x first).2 d other above)) late dom
  declares u gains v member := by
    subst form
    rw [List.flatten_singleton,← List.singleton_append,declaredAppend]
    rcases gains.split s₀ with early | late
    · obtain rfl := ((met u).mp early.2).resolve_left early.1
      exact List.mem_append_left _ (by simpa [declaredWithin,partsAll,parts,declared] using member)
    · exact List.mem_append_right _ (by simpa using rest.declares u late v member)
  within known covers := by
    subst form
    have begun : ∀ k, s.Seen k → s₀.Seen k := fun k old => (met k).mpr (.inl old)
    refine List.forall_mem_singleton.mpr ?_
    rw [inScopeAll,inScope,covers.own due (grown n ((met n).mpr (.inr rfl)))]
    refine rest.within _ (covers.inner rest begun (fun _ => id) (List.subset_append_right _ _) ?_) out
      (List.mem_singleton_self out)
    intro x first new d other above unmet _ v u _ source
    obtain rfl := due.only (ways x first) other above unmet
    exact List.mem_append_left _ source.declares

theorem around {pieces : List Piece} (due : Due p f n s) (silent : Stmt.declaredBy (p.graph.node n).stmts = [])
    (met : ∀ k, s₀.Seen k ↔ s.Seen k ∨ k = n) (inner : Shows p begins outs s₀ s₁)
    (more : ∀ k, s₀.Seen k → s₁.Seen k) (same : ∀ k, s₂.Seen k ↔ s₁.Seen k) (rest : Shows p follows [out] s₂ s')
    (grown : ∀ k, s₂.Seen k → s'.Seen k) (ways : ∀ x, begins x → p.graph.Under x n)
    (meets : ∀ x, follows x → p.graph.Under x n)
    (declares : ∀ v ∈ declaredWithin outs.flatten, v ∈ declaredWithin pieces)
    (holds : ∀ known : List VarId, (Stmt.neededBy (p.graph.node n).stmts).all known.contains = true →
      (∀ out ∈ outs, inScopeAll true known out = true) → inScopeAll true known pieces = true) :
    Shows p (· = n) [pieces ++ out] s s' := by
  have begun : ∀ k, s.Seen k → s₀.Seen k := fun k old => (met k).mpr (.inl old)
  have later : ∀ k, s₁.Seen k → s'.Seen k := fun k here => grown k ((same k).mpr here)
  have whole : ∀ k, s.Seen k → s₂.Seen k := fun k old => (same k).mpr (more k (begun k old))
  have here : Gains s s' n := ⟨due.unmet,later n (more n ((met n).mpr (.inr rfl)))⟩
  have parted : ∀ u, Gains s s' u → u = n ∨ Gains s₀ s₁ u ∨ Gains s₂ s' u := by
    intro u gains
    rcases gains.split s₀ with early | late
    · exact .inl (((met u).mp early.2).resolve_left early.1)
    · rcases late.split s₁ with inside | behind
      · exact .inr (.inl inside)
      · exact .inr (.inr ⟨fun old => behind.1 ((same u).mp old),behind.2⟩)
  refine ⟨fun u gains d dom => ?_,fun u gains v member => ?_,fun known covers => ?_⟩
  · suffices lifted : Gains s s' d ∨ p.graph.Dominates d n from lifted.imp id fun above => ⟨n,rfl,here,above⟩
    rcases parted u gains with rfl | inside | behind
    · exact .inr dom
    · exact inner.lift begun later (fun x first d other above => .inr ((ways x first).2 d other above)) inside dom
    · exact rest.lift whole (fun _ => id) (fun x first d other above => .inr ((meets x first).2 d other above))
        behind dom
  · rw [List.flatten_singleton,declaredAppend]
    rcases parted u gains with rfl | inside | behind
    · rw [silent] at member
      exact absurd member List.not_mem_nil
    · exact List.mem_append_left _ (declares v (inner.declares u inside v member))
    · exact List.mem_append_right _ (by simpa using rest.declares u behind v member)
  · -- The node itself is all that may have been met in between, and it declares nothing.
    have apart : ∀ x d, p.graph.Under x n → d ≠ x → p.graph.Dominates d x → ¬s.Seen d → ∀ v u,
        p.Source v d u → v ∈ known := fun x d under other above unmet v u source => by
      obtain rfl := due.only under other above unmet
      have declares := source.declares
      rw [silent] at declares
      exact absurd declares List.not_mem_nil
    refine List.forall_mem_singleton.mpr (inScopeAppend (holds known (covers.own due here.2) ?_) ?_)
    · exact inner.within known (covers.inner inner begun later (fun _ => id) fun x first _ d other above unmet _ v u _ =>
        apart x d (ways x first) other above unmet v u)
    · refine rest.within known (covers.inner rest whole (fun _ => id) (fun _ => id) ?_) out (List.mem_singleton_self out)
      exact fun x first _ d other above unmet _ v u _ => apart x d (meets x first) other above unmet v u

theorem loop {key : Key} {kind : LoopKind} {test header : Int} {cond : Option Test} {body : List Piece}
    (due : Due p f n s) (sound : p.Sound) (fresh : Fresh p f.scopes s a) (header' : a.loop.header = n)
    (written : Fresh.Body p f a f' s s₀ s₁) (inner : Shows p begins [body] s₀ s₁)
    (ways : ∀ x, begins x → ∀ d, d ≠ x → p.graph.Dominates d x → p.graph.Dominates d n)
    (silent : ∀ d, Gains s s₀ d → Stmt.declaredBy (p.graph.node d).stmts = [])
    (tested : ∀ known, Covers p known s s' → ∀ v ∈ readBy (cond.map Test.toExpr),
      v ∈ known ∨ kind = .posttest ∧ v ∈ declaredWithin body)
    (same : ∀ k, s₂.Seen k ↔ s₁.Seen k) (rest : Shows p follows [out] s₂ s') (grown : ∀ k, s₂.Seen k → s'.Seen k)
    (meets : ∀ x, follows x → a.follow = some x) :
    Shows p (· = n) [.loop key kind test header cond (dropLastContinue body) :: out] s s' := by
  have later : ∀ k, s₁.Seen k → s'.Seen k := fun k here => grown k ((same k).mpr here)
  have whole : ∀ k, s.Seen k → s₂.Seen k := fun k old => (same k).mpr (written.moved.more k (written.begun k old))
  have all := written.allMet fresh sound
  have here : Gains s s' n := ⟨due.unmet,later n (header' ▸ written.header)⟩
  have own : ∀ d ∈ a.loop.body, Gains s s' d := fun d inside =>
    ⟨fresh.untouched sound inside,later d (all d inside)⟩
  have parted : ∀ u, Gains s s' u → Gains s s₀ u ∨ Gains s₀ s₁ u ∨ Gains s₂ s' u := by
    intro u gains
    rcases gains.split s₀ with early | late
    · exact .inl early
    · refine .inr ((late.split s₁).imp id fun behind => ⟨fun old => behind.1 ((same u).mp old),behind.2⟩)
  -- What comes behind the loop is left to from inside of the loop.
  have leaves : ∀ x, follows x → ∀ d, d ≠ x → p.graph.Dominates d x → d ∈ a.loop.body ∨ p.graph.Dominates d n := by
    intro x follow d other above
    obtain ⟨-,w,inside,out⟩ := (sound.shapes a fresh.shape).follow x (meets x follow)
    have source := (sound.headerDominates fresh.shape inside).1
    exact header' ▸ sound.dominator fresh.shape inside ((sound.graph.toEdged.underEdge source out).2 d other above)
  refine ⟨fun u gains d dom => ?_,fun u gains v member => ?_,fun known covers => ?_⟩
  · suffices lifted : Gains s s' d ∨ p.graph.Dominates d n from lifted.imp id fun above => ⟨n,rfl,here,above⟩
    rcases parted u gains with early | inside | behind
    · have inside := (written.new u early.2).resolve_left early.1
      exact header' ▸ (sound.dominator fresh.shape inside dom).imp (own d) id
    · exact inner.lift written.begun later (fun x first d other above => .inr (ways x first d other above)) inside dom
    · exact rest.lift whole (fun _ => id) (fun x first d other above =>
        (leaves x first d other above).imp (own d) id) behind dom
  · rw [List.flatten_singleton,← List.singleton_append,declaredAppend]
    rcases parted u gains with early | inside | behind
    · rw [silent u early] at member
      exact absurd member List.not_mem_nil
    · refine List.mem_append_left _ ?_
      have inBody := inner.declares u inside v member
      rw [List.flatten_singleton,← declaredDropContinue] at inBody
      simpa [declaredWithin,partsAll,parts,declared] using inBody
    · exact List.mem_append_right _ (by simpa using rest.declares u behind v member)
  · refine List.forall_mem_singleton.mpr ?_
    rw [inScopeAll,Bool.and_eq_true,inScope,Bool.and_eq_true,List.all_eq_true]
    refine ⟨⟨fun v reads => ?_,inScopeDropContinue ?_⟩,?_⟩
    · rw [declaredDropContinue]
      rcases tested known covers v reads with here | ⟨rfl,peeked⟩
      · simp [here]
      · simp [peeked]
    · refine inner.within known (covers.inner inner written.begun later (fun _ => id) ?_) body
        (List.mem_singleton_self body)
      intro x _ _ d _ _ unmet early v u _ source
      have declares := source.declares
      rw [silent d ⟨unmet,early⟩] at declares
      exact absurd declares List.not_mem_nil
    · refine rest.within known (covers.inner rest whole (fun _ => id) (fun _ => id) ?_) out (List.mem_singleton_self out)
      intro x first _ d other above unmet _ v u behind source
      have inside : d ∈ a.loop.body := by
        refine (leaves x first d other above).elim id fun above => ?_
        by_cases same : d = n
        · exact same ▸ header' ▸ sound.header fresh.shape
        · exact absurd (due.ready d same above) unmet
      -- A declaration in the loop holds for nothing behind it.
      have inside := source.loops a.loop (List.mem_map_of_mem fresh.shape) inside
      exact absurd ((same u).mpr (all u inside)) behind.1

end Shows

/-! ### All jobs -/

def Job.Shows (p : Plan) : Job → State → State → Prop
  | .emit f n out, s, s' => Due p f n s → s.Keyed → Recovery.Shows p (· = n) [out] s s'
  | .go f t out, s, s' | .goOn f _ t out, s, s' => Fit p f s → (∀ x, t = some x → s.Sure p.graph x) → s.Keyed →
    Recovery.Shows p (fun x => t = some x ∧ f.stop ≠ some x) [out] s s'
  | .each jobs outs, s, s' => ∀ ss arms, jobs = armJobs ss arms → Fit p { scopes := ss } s →
    (∀ a ∈ arms, s.Sure p.graph a.target) → s.Keyed → Recovery.Shows p (fun x => ∃ a ∈ arms, a.target = x) outs s s'

theorem routeStop {t : NodeId} (way : route p s f t = .inline) : f.stop ≠ some t := by
  intro stop
  unfold route at way
  rw [if_pos (by simp [stop])] at way
  contradiction

theorem seenGoto (t k : NodeId) : (s.goto t).2.Seen k ↔ s.Seen k := by
  rw [State.Seen,State.Seen,State.mark,State.mark,(s.gotoFields t).1]

theorem seenNameScope (scope : Option Key) (k : NodeId) : (s.nameScope scope).Seen k ↔ s.Seen k := by
  rw [State.Seen,State.Seen,State.mark,State.mark,(s.nameScopeFields scope).1]

theorem readLoopTest (g : Graph) (t stays : NodeId) :
    readBy (loopTest g t stays).toExpr = readBy ((g.node t).test?.getD default).toExpr := by
  unfold loopTest
  dsimp only
  split
  · exact readNegate _
  · rfl

theorem Covers.peeks {latch : NodeId} {body : List Piece} (covers : Covers p known s s') (due : Due p f n s)
    (sound : p.Sound) (fresh : Fresh p f.scopes s a) (header : a.loop.header = n)
    (written : Fresh.Body p f a f' s s₀ s₁) (inner : Shows p begins [body] s₀ s₁)
    (silent : ∀ d, Gains s s₀ d → Stmt.declaredBy (p.graph.node d).stmts = [])
    (later : ∀ k, s₁.Seen k → s'.Seen k) (inside : latch ∈ a.loop.body) :
    ∀ v ∈ Stmt.neededBy (p.graph.node latch).stmts, v ∈ known ∨ v ∈ declaredWithin body := by
  intro v needs
  have all := written.allMet fresh sound
  have member := (sound.headerDominates fresh.shape inside).1
  refine (covers latch member ⟨fresh.untouched sound inside,later latch (all latch inside)⟩ v needs).imp id ?_
  rintro ⟨d,source,unmet⟩
  have within : d ∈ a.loop.body := by
    refine (sound.dominator fresh.shape inside source.dominates).elim id fun above => ?_
    by_cases same : d = n
    · exact same ▸ header ▸ sound.header fresh.shape
    · exact absurd (due.ready d same (header ▸ above)) unmet
  have gains : Gains s s₁ d := ⟨unmet,all d within⟩
  rcases gains.split s₀ with early | late
  · have declares := source.declares
    rw [silent d early] at declares
    exact absurd declares List.not_mem_nil
  · simpa using inner.declares d late v source.declares

theorem Writes.shows {job : Job} {params : List VarId} (writes : Writes p job s s') (sound : p.Sound)
    (declared : p.graph.Declared (p.shapes.map (·.loop)) params) : job.Shows p s s' := by
  have free := sound.graph.regions
  induction writes with
  | nowhere => exact fun _ _ _ => .still (fun _ => id) fun _ => by simp [inScopeAll]
  | falls way => exact fun _ _ _ => .still (fun _ => id) fun _ => by simp [inScopeAll]
  | @breaks f t scope s way | @continues f t scope s way =>
    exact fun _ _ _ => .still (fun k => (seenNameScope scope k).mp) fun _ => by simp [inScopeAll,inScope]
  | @jumps f t s way =>
    exact fun _ _ _ => .still (fun k => (seenGoto t k).mp) fun _ => by
      simp [inScopeAll,State.goto,inScope]
  | ends => exact fun _ _ _ => .still (fun _ => id) fun _ => by simp [inScopeAll]
  | never jump way => exact fun _ _ _ => .still (fun _ => id) fun _ => by simp [inScopeAll]
  | inline way rest ih | behind jump way rest ih =>
    intro fit sure keyed
    refine (ih (fit.due (sure _ rfl) way) keyed).weaken ?_
    rintro x rfl -
    exact ⟨rfl,routeStop way⟩
  | on passes rest ih => exact ih
  | nothing =>
    intro ss arms same fit sure keyed
    exact .still (fun _ => id) fun _ _ member => absurd member List.not_mem_nil
  | @each f t jobs out outs s s₁ s₂ first rest ihFirst ihRest =>
    intro ss arms same fit sure keyed
    cases arms with
    | nil => contradiction
    | cons a arms =>
      obtain ⟨head,rfl⟩ := List.cons.inj same
      obtain ⟨rfl,rfl⟩ := Prod.mk.inj head
      obtain ⟨here,others⟩ := List.forall_mem_cons.mp sure
      have sureHere : ∀ x, some a.target = some x → s.Sure p.graph x := fun x same =>
        Option.some.inj same ▸ here
      have moved := (first.orders sound fit.arm sureHere).1
      have sureRest : ∀ b ∈ arms, s₁.Sure p.graph b.target := fun b member => (others b member).mono moved.more
      have later := (rest.orders sound ss arms rfl (moved.armFit fit) sureRest).1
      refine ((ihFirst fit.arm sureHere keyed).join (ihRest ss arms rfl (moved.armFit fit) sureRest
        ((first.grows free).keyed keyed)) moved.more later.more ?_).weaken ?_
      · rintro x ⟨b,member,rfl⟩
        exact others b member
      · rintro x (⟨same,-⟩ | ⟨b,member,same⟩) -
        · exact ⟨a,List.mem_cons_self ..,Option.some.inj same⟩
        · exact ⟨b,List.mem_cons_of_mem _ member,same⟩
  | @last f n s bare noBranch noSwitch alone =>
    intro due keyed
    have met := s.seenStatement (n := n) (p.graph.node n).stmts
    have nothing : Shows p (fun _ => False) [[]] (s.statement n (p.graph.node n).stmts).2
        (s.statement n (p.graph.node n).stmts).2 :=
      .still (fun _ => id) fun _ => by simp [inScopeAll]
    exact Shows.stated due (keyed.statement n _) met nothing (fun _ => id) fun _ none => none.elim
  | @plain f n t out s s' bare kind succ rest ih =>
    intro due keyed
    have met := s.seenStatement (n := n) (p.graph.node n).stmts
    have out' : t ∈ (p.graph.node n).succs := succ ▸ List.mem_singleton_self t
    have sure : ∀ x, some t = some x → (s.statement n (p.graph.node n).stmts).2.Sure p.graph x := fun x same =>
      Option.some.inj same ▸ due.sureSucc sound (fun k old => (met k).mpr (.inl old)) ((met n).mpr (.inr rfl)) out'
    have fit := due.stated bare (p.graph.node n).stmts
    refine Shows.stated due (keyed.statement n _) met (ih fit sure ((Grows.statement s n _).keyed keyed))
      (rest.orders sound fit sure).1.more ?_
    rintro x ⟨same,-⟩
    exact Option.some.inj same ▸ sound.graph.toEdged.underEdge due.member out'
  | @branch f n cond first second lead onTrue onFalse more s s₀ s₁ s₂ s₃ bare kind sides start left
      right rest ihLeft ihRight ihRest =>
    intro due keyed
    have nodeEnds := sound.graph.ends n due.member
    obtain ⟨rfl,rfl⟩ := leadAlone (Node.endsCond nodeEnds kind).1 start
    have met := s₀.seenEnter (n := n) "" (p.branchFollows.get? n)
    have sure : ∀ x ∈ (p.graph.node n).succs, (s₀.enter n "" (p.branchFollows.get? n)).Sure p.graph x :=
      fun x out => due.sureSucc sound (fun k old => (met k).mpr (.inl old)) ((met n).mpr (.inr rfl)) out
    have fit := due.enterBranch sound bare
    obtain ⟨targets,-⟩ := sideTargets nodeEnds kind sides
    have sureLeft := fun x same => sure x (targets x (.inl same))
    have movedLeft := (left.orders sound fit sureLeft).1
    have sureRight := fun x same => (sure x (targets x (.inr same))).mono movedLeft.more
    have movedRight := (right.orders sound (movedLeft.fit fit) sureRight).1
    obtain ⟨⟨fitRest,sureRest⟩,-,-,same⟩ := due.resumes (movedLeft.trans movedRight)
      (sideScopes f (p.branchFollows.get? n) ▸ movedRight.orderly)
      fun x follow => due.branchFollow sound "" follow
    have keyedIn := (Grows.enter s₀ n "" (p.branchFollows.get? n)).keyed keyed
    have keyedLeft := (left.grows free).keyed keyedIn
    have keyedRest := (Grows.leave s₂ n (p.branchFollows.get? n)).keyed ((right.grows free).keyed keyedLeft)
    obtain ⟨needs,silent⟩ := declared.test due.member kind
    have both := (ihLeft fit sureLeft keyedIn).join (ihRight (movedLeft.fit fit) sureRight keyedLeft)
      movedLeft.more movedRight.more fun x follows => sure x (targets x (.inr follows.1))
    refine Shows.around due silent met both (movedLeft.trans movedRight).more same
      (ihRest fitRest sureRest keyedRest) (rest.orders sound fitRest sureRest).1.more ?_
      (fun x follow => sound.branches n x follow.1) (fun v member => ?_) fun known test inner => ?_
    · rintro x (⟨here,-⟩ | ⟨here,-⟩)
      · exact sound.graph.toEdged.underEdge due.member (targets x (.inl here))
      · exact sound.graph.toEdged.underEdge due.member (targets x (.inr here))
    · rw [List.nil_append,declaredBranch]
      simpa [declaredAppend] using member
    · obtain ⟨inLeft,inRight⟩ := List.forall_mem_cons.mp inner
      refine inScopeBranch ?_ inLeft (inRight onFalse (List.mem_singleton_self _))
      rw [needs] at test
      rcases orientCases sides with ⟨rfl,-⟩ | ⟨rfl,-⟩
      · exact test
      · rwa [readNegate]
  | @switch f n lead bodies more s s₀ s₁ s₂ bare kind start arms rest ihArms ihRest =>
    intro due keyed
    have nodeEnds := sound.graph.ends n due.member
    obtain ⟨alone,-,succs,-⟩ := Node.endsSwitch nodeEnds kind
    obtain ⟨rfl,rfl⟩ := leadAlone alone start
    have met := s₀.seenEnter (n := n) (switchName n) (switchFollow p f n)
    have fit := due.enterSwitch sound bare
    have sure := due.sureArms sound kind
    have moved := (arms.orders sound _ _ rfl fit sure).1
    obtain ⟨⟨fitRest,sureRest⟩,-,-,same⟩ := due.resumes moved moved.orderly.closeSwitch
      fun x follow => due.switchMeets sound (switchName n) follow
    have keyedIn := (Grows.enter s₀ n (switchName n) (switchFollow p f n)).keyed keyed
    have keyedRest := (Grows.leave s₁ n (switchFollow p f n)).keyed ((arms.grows free).keyed keyedIn)
    obtain ⟨needs,silent⟩ := declared.choice due.member kind
    refine Shows.around due silent met (ihArms _ _ rfl fit sure keyedIn) moved.more same
      (ihRest fitRest sureRest keyedRest) (rest.orders sound fitRest sureRest).1.more ?_ ?_ (fun v member => ?_)
      fun known value inner => ?_
    · rintro x ⟨a,member,rfl⟩
      have gathered := armsGathered p.graph (p.graph.node n) (switchFollow p f n)
      refine sound.graph.toEdged.underEdge due.member ((succs _).mpr ?_)
      exact ((gathered.targets a.target).mp (List.mem_map_of_mem member)).elim .inr fun here => .inl here.1
    · rintro x ⟨follow,apart⟩
      rcases Option.or_eq_some_iff.mp follow with meets | ⟨-,stop⟩
      · exact sound.switches n x meets
      · exact absurd stop apart
    · rw [declaredWithin,← partsSwitch arms] at member
      simpa [declaredWithin,partsAll,parts,writtenArms,declaredDropBreak,Tree.declared] using member
    · rw [needs] at value
      rw [List.nil_append,inScopeAll,inScopeAll,inScope,value,writtenArms,inScopeDropBreak (inScopeZip inner)]
      rfl
  | @pretest f n found shape body more s s₁ s₂ outside starts settled kind inner rest ihInner ihRest =>
    intro due keyed
    obtain ⟨fresh,header⟩ := due.fresh starts
    obtain rfl : found = shape := (fresh.settles sound).symm.trans settled
    obtain ⟨-,cond,-⟩ := (sound.shapes found fresh.shape).pretest kind
    obtain ⟨fit,sure⟩ := due.beginPretest fresh sound header kind
    have written := due.pretestBody fresh sound header kind (inner.orders sound)
    have met : ∀ k, ((s.openLoop n).setMark n .entered).Seen k ↔ s.Seen k ∨ k = n := fun k =>
      (State.seenSetMark (by decide) k).trans (or_congr (seenOpenLoop k) Iff.rfl)
    have same : ∀ k, (s₁.setMark n .finished).Seen k ↔ s₁.Seen k := fun k =>
      (State.seenSetMark (by decide) k).trans (or_iff_left_of_imp fun same => same ▸ header ▸ written.header)
    obtain ⟨fitRest,sureRest⟩ := written.resumes due fresh header sound same rfl
    have grown := (rest.orders sound fitRest sureRest).1.more
    have keyedIn := ((Grows.openLoop s n).trans (.setMark _ n .entered)).keyed keyed
    have keyedRest := (Grows.setMark s₁ n .finished).keyed ((inner.grows free).keyed keyedIn)
    obtain ⟨needs,silent⟩ := declared.test due.member (header ▸ cond)
    refine Shows.loop due sound fresh header written (ihInner fit sure keyedIn) ?_ (fun d gains => ?_)
      (fun known covers v reads => .inl ?_) same (ihRest fitRest sureRest keyedRest) grown fun x follow => follow.1
    · rintro x ⟨here,-⟩ d other above
      obtain ⟨y,-,succs⟩ := fresh.pretestSuccs sound header kind
      obtain rfl := Option.some.inj here
      exact (sound.graph.toEdged.underEdge due.member ((succs _).mpr (.inl rfl))).2 d other above
    · exact ((met d).mp gains.2).resolve_left gains.1 ▸ silent
    · have own := covers.own due (grown n ((same n).mpr (header ▸ written.header)))
      rw [needs] at own
      exact allKnown.mp own v (by rwa [Option.map_some,readLoopTest] at reads)
  | @posttest f n found shape latch body more s s₁ s₂ outside starts settled kind test inner rest
      ihInner ihRest =>
    intro due keyed
    obtain ⟨fresh,header⟩ := due.fresh starts
    obtain rfl : found = shape := (fresh.settles sound).symm.trans settled
    obtain ⟨latch',x,test',-,inside,-,cond,-⟩ := (sound.shapes found fresh.shape).posttest kind
    obtain rfl : latch' = latch := Option.some.inj (test'.symm.trans test)
    have begun := due.beginPosttest fresh sound header kind test
    have written := due.posttestBody fresh sound header kind test (inner.orders sound)
    have same : ∀ k, (s₁.setMark latch' .finished).Seen k ↔ s₁.Seen k := fun k =>
      (State.seenSetMark (by decide) k).trans (or_iff_left_of_imp fun same => written.stop k (same ▸ rfl))
    obtain ⟨fitRest,sureRest⟩ := written.resumes due fresh header sound same rfl
    have grown := (rest.orders sound fitRest sureRest).1.more
    have keyedIn := (Grows.openTested s n latch').keyed keyed
    have keyedRest := (Grows.setMark s₁ latch' .finished).keyed ((inner.grows free).keyed keyedIn)
    obtain ⟨needs,silent⟩ := declared.test (sound.headerDominates fresh.shape inside).1 cond
    have shows := ihInner begun keyedIn
    have quiet : ∀ d, Gains s (((s.openLoop n).place latch' (s.key (loopName n))).setMark latch' .entered) d →
        Stmt.declaredBy (p.graph.node d).stmts = [] := fun d gains =>
      ((Due.seenTested d).mp gains.2).resolve_left gains.1 ▸ silent
    refine Shows.loop due sound fresh header written shows (fun x here d _ above => here ▸ above) quiet
      (fun known covers v reads => ?_) same (ihRest fitRest sureRest keyedRest) grown fun x follow => follow.1
    rw [Option.map_some,readLoopTest,← needs] at reads
    exact (covers.peeks due sound fresh header written shows quiet
      (fun k here => grown k ((same k).mpr here)) inside v reads).imp id fun peeked => ⟨rfl,peeked⟩
  | @endless f n found shape body more s s₁ s₂ outside starts settled kind test inner rest ihInner ihRest =>
    intro due keyed
    obtain ⟨fresh,header⟩ := due.fresh starts
    obtain rfl : found = shape := (fresh.settles sound).symm.trans settled
    have kind := fresh.endless sound kind test
    have begun := due.beginEndless fresh sound header kind
    have written := due.endlessBody fresh sound header kind (inner.orders sound)
    obtain ⟨fitRest,sureRest⟩ := written.resumes due fresh header sound (fun k => Iff.rfl) rfl
    have keyedIn := (Grows.openLoop s n).keyed keyed
    refine Shows.loop due sound fresh header written (ihInner begun keyedIn) (fun x here d _ above => here ▸ above)
      (fun d gains => ?_) (fun _ _ v reads => ?_) (fun k => Iff.rfl)
      (ihRest fitRest sureRest ((inner.grows free).keyed keyedIn)) (rest.orders sound fitRest sureRest).1.more
      fun x follow => follow.1
    · exact absurd ((seenOpenLoop d).mp gains.2) gains.1
    · exact absurd reads List.not_mem_nil
  | cleanup outside | catches outside | again outside =>
    rw [noPending free] at outside
    contradiction

theorem Drafted.shows {w : Draft} {e : NodeId} {params : List VarId} (drafted : Drafted p e w) (sound : p.Sound)
    (declared : p.graph.Declared (p.shapes.map (·.loop)) params) (entry : p.graph.entry = some e) :
    inScopeAll true params w.body = true := by
  obtain ⟨out,rest,s,here,remains,body⟩ := drafted
  have due := Due.start sound entry
  obtain ⟨moved,met⟩ := here.orders sound due
  obtain ⟨rfl,-⟩ := remains.nothing (moved.all sound entry met)
  rw [body,List.append_nil]
  refine (here.shows sound declared due ⟨nofun,rfl⟩).within params (fun u inside _ v needs => ?_) out
    (List.mem_singleton_self out)
  exact (declared.sources u inside v needs).imp id fun ⟨d,source⟩ => ⟨d,source,fun met => met rfl⟩

end Recovery

namespace Graph

open Recovery

end Graph

end RegCode
