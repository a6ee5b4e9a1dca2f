import RegCode.Proofs.Flow.Search
import RegCode.Proofs.Expr.Machine
import RegCode.Proofs.Flow.Path
import RegCode.Proofs.Chains.Maintenance
import RegCode.Proofs.Chains.Ordering

/-! Executions of a graph and what is seen of them: the statements with the values that they read, and where each
branch and each exception goes. -/
namespace RegCode

abbrev Doing (V O W : Type) := Action → List V → W → Ending V O W

def Doing.Quiet {V O W : Type} (m : Doing V O W) : Prop :=
  ∀ e values w r w', e.hasEffects = false → m (.invoke e) values w = .value r w' → w' = w

inductive Event (V : Type) where
  | done (loc : Loc) (reads : List V)
  | goes (target : NodeId)
  | raised (loc : Loc) (reads : List V) (handler : Option NodeId)

def Event.label {V : Type} : Event V → Event Unit
  | done l _ => .done l []
  | goes j => .goes j
  | raised l _ j => .raised l [] j

structure Situation (V W : Type) where
  point : Point
  values : Values V
  world : W

namespace Stmt

variable {V O W : Type}

def reads (s : Stmt) (ρ : Values V) : List V := s.uses.map ρ

def assigned (s : Stmt) (ρ : Values V) (r : V) : Values V :=
  match s.def? with
  | some v => Function.update ρ v r
  | none => ρ

def outcome (m : Doing V O W) (s : Stmt) (ρ : Values V) (w : W) : Ending V O W :=
  m s.act.withoutResult (s.reads ρ) w

theorem assignedOther {s : Stmt} {ρ : Values V} {r : V} {x : VarId} (other : s.def? ≠ some x) :
    s.assigned ρ r x = ρ x := by
  cases defines : s.def? with
  | none => rw [assigned,defines]
  | some v =>
    have apart : x ≠ v := fun same => other (same.symm ▸ defines)
    rw [assigned,defines]
    exact Function.update_of_ne apart r ρ

theorem assignedSame {s : Stmt} {ρ : Values V} {r : V} {x : VarId} (defines : s.def? = some x) :
    s.assigned ρ r x = r := by
  rw [assigned,defines]
  exact Function.update_self x r ρ

end Stmt

namespace Graph

inductive Execution {V O W : Type} (g : Graph) (m : Doing V O W) (start : Situation V W) :
    List (Event V) → Option (Situation V W) → Prop where
  | stay : Execution g m start [] (some start)
  | next {trace i k s ρ w r w'} (way : Execution g m start trace (some ⟨⟨i,k⟩,ρ,w⟩))
      (here : (g.node i).stmts[k]? = some s) (does : s.outcome m ρ w = .value r w') :
      Execution g m start (trace ++ [.done s.loc (s.reads ρ)]) (some ⟨⟨i,k + 1⟩,s.assigned ρ r,w'⟩)
  | edge {trace i j ρ w} (way : Execution g m start trace (some ⟨⟨i,(g.node i).stmts.length⟩,ρ,w⟩))
      (out : j ∈ (g.node i).succs) : Execution g m start (trace ++ [.goes j]) (some ⟨⟨j,0⟩,ρ,w⟩)
  | raise {trace i j k s ρ w o w'} (way : Execution g m start trace (some ⟨⟨i,k⟩,ρ,w⟩))
      (here : (g.node i).stmts[k]? = some s) (raises : s.outcome m ρ w = .raised o w')
      (out : j ∈ (g.node i).catchSuccs) :
      Execution g m start (trace ++ [.raised s.loc (s.reads ρ) (some j)]) (some ⟨⟨j,0⟩,ρ,w'⟩)
  | leave {trace i k s ρ w o w'} (way : Execution g m start trace (some ⟨⟨i,k⟩,ρ,w⟩))
      (here : (g.node i).stmts[k]? = some s) (raises : s.outcome m ρ w = .raised o w')
      (out : (g.node i).catchSuccs = []) :
      Execution g m start (trace ++ [.raised s.loc (s.reads ρ) none]) none

variable {V O W : Type} {g : Graph} {m : Doing V O W} {start : Situation V W} {trace : List (Event V)}

theorem Execution.inRpo (wired : g.Wired) (begins : start.point.node ∈ g.rpo) {state : Option (Situation V W)}
    (run : g.Execution m start trace state) : ∀ q ∈ state, q.point.node ∈ g.rpo := by
  induction run with
  | stay => exact fun q same => Option.some.inj same ▸ begins
  | next way here does ih =>
    have member := ih _ rfl
    exact fun q same => Option.some.inj same ▸ member
  | edge way out ih =>
    have member := (wired.succs _ (ih _ rfl) _ out).1
    exact fun q same => Option.some.inj same ▸ member
  | raise way here raises out ih =>
    have member := (wired.catchSuccs _ (ih _ rfl) _ out).1
    exact fun q same => Option.some.inj same ▸ member
  | leave => exact nofun

theorem Event.labelAppend {t t' : List (Event V)} {e e' : Event V}
    (same : (t' ++ [e']).map Event.label = (t ++ [e]).map Event.label) :
    t'.map Event.label = t.map Event.label ∧ e'.label = e.label := by
  rw [List.map_append,List.map_append] at same
  obtain ⟨front,last⟩ := List.append_inj' same rfl
  exact ⟨front,List.singleton_inj.mp last⟩

theorem Execution.unique {trace' : List (Event V)} {state state' : Option (Situation V W)}
    (run : g.Execution m start trace state) (run' : g.Execution m start trace' state')
    (same : trace'.map Event.label = trace.map Event.label) : trace' = trace ∧ state' = state := by
  induction run generalizing trace' state' with
  | stay =>
    cases run' with
    | stay => exact ⟨rfl,rfl⟩
    | _ => simp at same
  | next way here does ih =>
    cases run' with
    | stay => simp at same
    | next way' here' does' =>
      obtain ⟨front,-⟩ := Event.labelAppend same
      obtain ⟨rfl,state⟩ := ih way' front
      cases state
      cases here.symm.trans here'
      cases does.symm.trans does'
      exact ⟨rfl,rfl⟩
    | _ => simpa [Event.label] using (Event.labelAppend same).2
  | edge way out ih =>
    cases run' with
    | stay => simp at same
    | edge way' out' =>
      obtain ⟨front,last⟩ := Event.labelAppend same
      obtain ⟨rfl,state⟩ := ih way' front
      cases state
      cases last
      exact ⟨rfl,rfl⟩
    | _ => simpa [Event.label] using (Event.labelAppend same).2
  | raise way here raises out ih =>
    cases run' with
    | stay => simp at same
    | raise way' here' raises' out' =>
      obtain ⟨front,last⟩ := Event.labelAppend same
      obtain ⟨rfl,state⟩ := ih way' front
      cases state
      cases here.symm.trans here'
      cases raises.symm.trans raises'
      cases last
      exact ⟨rfl,rfl⟩
    | _ => simpa [Event.label] using (Event.labelAppend same).2
  | leave way here raises out ih =>
    cases run' with
    | stay => simp at same
    | leave way' here' raises' out' =>
      obtain ⟨front,-⟩ := Event.labelAppend same
      obtain ⟨rfl,state⟩ := ih way' front
      cases state
      cases here.symm.trans here'
      exact ⟨rfl,rfl⟩
    | _ => simpa [Event.label] using (Event.labelAppend same).2

end Graph

/-! Executions of a graph whose dead code has been removed. What has gone had no effects, and what remains never reads
what went: where the values of a variable differ, a definition that has gone reaches the point. -/

inductive Stmt.Fate (s : Stmt) : Option Stmt → Prop where
  | stays : Fate s (some s)
  | strips {v e d} (assigns : s.act = .assign v e d) (acts : e.hasEffects = true) : Fate s (some s.withoutResult)
  | goes {v e d} (assigns : s.act = .assign v e d) (idle : e.hasEffects = false) : Fate s none

def Event.remains {V : Type} (ls : List Loc) : Event V → Bool
  | done l _ => ls.contains l
  | _ => true

namespace Stmt.Fate

variable {s t : Stmt}

theorem uses (fate : s.Fate (some t)) : t.uses = s.uses := by
  cases fate with
  | stays => rfl
  | strips assigns acts => exact s.act.usesWithoutResult

theorem steps (fate : s.Fate (some t)) : t.act.steps = s.act.steps := by
  cases fate with
  | stays => rfl
  | strips assigns acts => simp [Stmt.withoutResult,Action.withoutResult,assigns,Action.steps,Action.exprs,Action.own]

theorem idle (fate : s.Fate none) : ∀ st ∈ s.act.steps, ¬st.acts := by
  cases fate with
  | goes assigns idle =>
    have quiet : s.act.hasEffects = false := by rw [assigns]; exact idle
    exact fun st member => Bool.eq_false_iff.mp (Action.stepsIdle quiet st member)

theorem act (fate : s.Fate (some t)) : t.act.withoutResult = s.act.withoutResult := by
  cases fate with
  | stays => rfl
  | strips assigns acts => simp [withoutResult,Action.withoutResult,assigns]

theorem ofDef {v : VarId} (fate : s.Fate (some t)) (defines : t.def? = some v) : t = s := by
  cases fate with
  | stays => rfl
  | strips assigns acts =>
    rw [defWithoutResult] at defines
    contradiction

theorem trans {r : Option Stmt} (first : s.Fate (some t)) (second : t.Fate r) : s.Fate r := by
  cases first with
  | stays => exact second
  | strips assigns acts =>
    cases second with
    | stays => exact .strips assigns acts
    | strips again => simp [withoutResult,Action.withoutResult,assigns] at again
    | goes again => simp [withoutResult,Action.withoutResult,assigns] at again

end Stmt.Fate

namespace Graph

def stated (g : Graph) : List Stmt := g.rpo.flatMap fun i => (g.node i).stmts

theorem memStated {g : Graph} {s : Stmt} : s ∈ g.stated ↔ ∃ p, g.StmtAt p s := by
  rw [stated,List.mem_flatMap]
  constructor
  · rintro ⟨i,member,held⟩
    obtain ⟨k,here⟩ := List.getElem?_of_mem held
    exact ⟨⟨i,k⟩,member,here⟩
  · rintro ⟨p,here⟩
    exact ⟨p.node,here.1,List.mem_of_getElem? here.2⟩

def locs (g : Graph) : List Loc := g.rpo.flatMap fun i => (g.node i).stmts.map (·.loc)

theorem memLocs {g : Graph} {l : Loc} : l ∈ g.locs ↔ ∃ p s, g.StmtAt p s ∧ s.loc = l := by
  simp only [locs,List.mem_flatMap,List.mem_map]
  constructor
  · rintro ⟨i,member,s,listed,rfl⟩
    obtain ⟨k,here⟩ := List.getElem?_of_mem listed
    exact ⟨⟨i,k⟩,s,⟨member,here⟩,rfl⟩
  · rintro ⟨p,s,here,rfl⟩
    exact ⟨p.node,here.1,s,List.mem_of_getElem? here.2,rfl⟩

theorem locsStated (g : Graph) : g.locs = g.stated.map (·.loc) := by
  rw [locs,stated,List.map_flatMap]

def Loses (edit : Stmt → Option Stmt) (s : Stmt) (v : VarId) : Prop :=
  s.def? = some v ∧ ∀ t, edit s = some t → t.def? ≠ some v

structure Cleared (edit : Stmt → Option Stmt) (g h : Graph) : Prop extends Edited edit g h where
  fates : ∀ p s, g.StmtAt p s → s.Fate (edit s)
  unread : ∀ v p s q t, g.StmtAt p s → Loses edit s v → g.StmtAt q t → (edit t).isSome → v ∈ t.uses →
    ¬g.Reaches v s.loc q

variable {edit edit' : Stmt → Option Stmt} {g h k : Graph} {p q : Point} {s t : Stmt} {v : VarId}

theorem Edited.refl (g : Graph) : Edited some g g :=
  ⟨.refl g,fun i _ => by rw [List.filterMap_some],fun s t same => Option.some.inj same ▸ rfl,
    fun s t v same defines => Option.some.inj same ▸ defines⟩

theorem Edited.trans (first : Edited edit g h) (second : Edited edit' h k) :
    Edited (fun s => (edit s).bind edit') g k := by
  refine ⟨first.thins.trans second.thins,fun i member => ?_,fun s t kept => ?_,fun s t v kept defines => ?_⟩
  · rw [second.stmts i (first.rpo ▸ member),first.stmts i member,List.filterMap_filterMap]
  · obtain ⟨r,kept,kept'⟩ := Option.bind_eq_some_iff.mp kept
    exact (second.locs r t kept').trans (first.locs s r kept)
  · obtain ⟨r,kept,kept'⟩ := Option.bind_eq_some_iff.mp kept
    exact first.defs s r v kept (second.defs r t v kept' defines)

theorem Cleared.refl (g : Graph) : Cleared some g g :=
  ⟨.refl g,fun _ _ _ => .stays,fun _ _ s _ _ _ loses => (loses.2 s rfl loses.1).elim⟩

theorem Cleared.trans (first : Cleared edit g h) (second : Cleared edit' h k) (wired : g.Wired)
    (distinct : g.LocsDistinct) : Cleared (fun s => (edit s).bind edit') g k := by
  refine ⟨first.toEdited.trans second.toEdited,fun p s here => ?_,
    fun v p s q t here loses there kept use reaches => ?_⟩
  · have fate := first.fates p s here
    change s.Fate ((edit s).bind edit')
    cases result : edit s with
    | none =>
      rw [result] at fate
      exact fate
    | some r =>
      rw [result] at fate
      exact fate.trans (second.fates _ r (first.stmtAt here result))
  · obtain ⟨r,kept,kept'⟩ := Option.bind_eq_some_iff.mp (Option.isSome_iff_exists.mp kept).choose_spec
    by_cases already : Loses edit s v
    · exact first.unread v p s q t here already there (kept ▸ rfl) use reaches
    · obtain ⟨s',stays,defines⟩ : ∃ s', edit s = some s' ∧ s'.def? = some v := by
        simpa [Loses,loses.1] using already
      have same : s' = s := (stays ▸ first.fates p s here).ofDef defines
      subst same
      have left : g.Stays edit v s'.loc := fun p' u there' loc _ =>
        (here.unique distinct there' loc.symm).2 ▸ ⟨s',stays,defines⟩
      refine second.unread v _ s' _ r (first.stmtAt here stays) ⟨defines,fun u kept => ?_⟩ (first.stmtAt there kept)
        (kept' ▸ rfl) ((kept ▸ first.fates q t there).uses ▸ use) (first.reachesShift wired reaches left)
      exact loses.2 u ((congrArg (·.bind edit') stays).trans kept)

theorem Edited.locsIff (edited : Edited edit g h) (distinct : g.LocsDistinct) (here : g.StmtAt p s) :
    s.loc ∈ h.locs ↔ (edit s).isSome := by
  rw [memLocs,Option.isSome_iff_exists]
  constructor
  · rintro ⟨q,t,there,loc⟩
    obtain ⟨p',s',source,kept,-⟩ := edited.stmtBack there
    obtain rfl := (here.unique distinct source (loc.symm.trans (edited.locs s' t kept))).2
    exact ⟨t,kept⟩
  · rintro ⟨t,kept⟩
    exact ⟨_,t,edited.stmtAt here kept,edited.locs s t kept⟩

section Executing

variable {V O W : Type} {m : Doing V O W}

structure Follows (edit : Stmt → Option Stmt) (g : Graph) (q q' : Situation V W) : Prop where
  point : q'.point = g.shift edit q.point
  world : q'.world = q.world
  values : ∀ x, q'.values x ≠ q.values x → ∃ p s, g.StmtAt p s ∧ Loses edit s x ∧ g.Reaches x s.loc q.point

theorem Cleared.reads (cleared : Cleared edit g h) {q q' : Situation V W} (follows : Follows edit g q q')
    (here : g.StmtAt q.point s) (kept : edit s = some t) : t.reads q'.values = s.reads q.values := by
  have fate := cleared.fates _ _ here
  rw [kept] at fate
  rw [Stmt.reads,fate.uses]
  refine List.map_congr_left fun x use => ?_
  by_contra other
  obtain ⟨p,r,there,loses,reaches⟩ := follows.values x other
  exact cleared.unread x p r _ s there loses here (kept ▸ rfl) use reaches

theorem Cleared.outcome (cleared : Cleared edit g h) {q q' : Situation V W} (follows : Follows edit g q q')
    (here : g.StmtAt q.point s) (kept : edit s = some t) :
    t.outcome m q'.values q'.world = s.outcome m q.values q.world := by
  have fate := cleared.fates _ _ here
  rw [kept] at fate
  rw [Stmt.outcome,Stmt.outcome,fate.act,cleared.reads follows here kept,follows.world]

theorem Follows.next {i : NodeId} {n : Nat} {ρ ρ' ρ'' : Values V} {w w' : W} {point point' : Point} {r : V}
    (follows : Follows edit g ⟨⟨i,n⟩,ρ,w⟩ ⟨point,ρ',w⟩) (here : g.StmtAt ⟨i,n⟩ s)
    (arrives : point' = g.shift edit ⟨i,n + 1⟩) (others : ∀ x, s.def? ≠ some x → ρ'' x = ρ' x)
    (lost : ∀ x, s.def? = some x → ρ'' x ≠ r → Loses edit s x) :
    Follows edit g ⟨⟨i,n + 1⟩,s.assigned ρ r,w'⟩ ⟨point',ρ'',w'⟩ := by
  refine ⟨arrives,rfl,fun x other => ?_⟩
  by_cases defines : s.def? = some x
  · simp only [Stmt.assignedSame defines] at other
    exact ⟨_,s,here,lost x defines other,_,.stmt here defines,.stay⟩
  · simp only [Stmt.assignedOther defines,others x defines] at other
    obtain ⟨p,r,there,loses,d,origin,way⟩ := follows.values x other
    exact ⟨p,r,there,loses,d,origin,.next way here.2 defines⟩

theorem Follows.moves {q q' : Situation V W} (follows : Follows edit g q q') {j : NodeId} {w : W}
    (way : ∀ x p, g.Path (fun s => s.def? ≠ some x) p q.point → g.Path (fun s => s.def? ≠ some x) p ⟨j,0⟩) :
    Follows edit g ⟨⟨j,0⟩,q.values,w⟩ ⟨⟨j,0⟩,q'.values,w⟩ := by
  refine ⟨rfl,rfl,fun x other => ?_⟩
  obtain ⟨p,r,there,loses,d,origin,before⟩ := follows.values x other
  exact ⟨p,r,there,loses,d,origin,way x d before⟩

variable {start : Situation V W}

theorem Cleared.simulate (cleared : Cleared edit g h) (wired : g.Wired) (distinct : g.LocsDistinct) (quiet : m.Quiet)
    (begins : start.point.node ∈ g.rpo) (first : start.point.index = 0) {trace : List (Event V)}
    {state : Option (Situation V W)} (run : g.Execution m start trace state)
    (calm : ∀ l reads j, Event.raised l reads j ∈ trace → l ∈ h.locs) :
    ∃ state', h.Execution m start (trace.filter (Event.remains h.locs)) state' ∧
      Option.Rel (Follows edit g) state state' := by
  induction run with
  | stay =>
    obtain ⟨⟨i,n⟩,ρ,w⟩ := start
    subst first
    exact ⟨_,.stay,.some ⟨rfl,rfl,fun x other => (other rfl).elim⟩⟩
  | @next trace i n s ρ w r w' way here does ih =>
    obtain ⟨_,way',@⟨_,⟨point,ρ',w₁⟩,follows⟩⟩ := ih fun l reads j member =>
      calm l reads j (List.mem_append_left _ member)
    obtain rfl : point = g.shift edit ⟨i,n⟩ := follows.point
    obtain rfl : w₁ = w := follows.world
    have placed : g.StmtAt ⟨i,n⟩ s := ⟨way.inRpo wired begins _ rfl,here⟩
    have stays := cleared.locsIff distinct placed
    cases kept : edit s with
    | none =>
      have gone : s.loc ∉ h.locs := fun member => by simpa [kept] using stays.mp member
      have fate := cleared.fates _ _ placed
      rw [kept] at fate
      cases fate with
      | goes assigns idle =>
        obtain rfl : w' = w₁ := quiet _ _ _ _ _ idle (by rw [← does,Stmt.outcome,assigns]; rfl)
        refine ⟨_,?_,.some (follows.next placed (shiftGone here kept).symm (fun _ _ => rfl) fun x defines _ =>
          ⟨defines,fun t kept' => by simp [kept] at kept'⟩)⟩
        simpa [List.filter_append,Event.remains,gone] using way'
    | some t =>
      have there := cleared.stmtAt placed kept
      have member : s.loc ∈ h.locs := stays.mpr (kept ▸ rfl)
      have reads := cleared.reads follows placed kept
      have step := way'.next there.2 ((cleared.outcome follows placed kept).trans does)
      rw [reads,cleared.locs s t kept] at step
      refine ⟨some ⟨_,t.assigned ρ' r,w'⟩,?_,.some (follows.next placed (shiftNext here kept).symm (fun x other => ?_)
        fun x defines other => ?_)⟩
      · have seen : Event.remains h.locs (.done s.loc (s.reads ρ)) = true := by simpa [Event.remains] using member
        rw [List.filter_append,List.filter_cons_of_pos seen]
        exact step
      · exact Stmt.assignedOther fun defines => other (cleared.defs s t x kept defines)
      · refine ⟨defines,fun t' kept' defines' => other ?_⟩
        obtain rfl : t = t' := Option.some.inj (kept.symm.trans kept')
        exact Stmt.assignedSame defines'
  | @edge trace i j ρ w way out ih =>
    obtain ⟨_,way',@⟨_,⟨point,ρ',w₁⟩,follows⟩⟩ := ih fun l reads j member =>
      calm l reads j (List.mem_append_left _ member)
    obtain rfl : point = g.shift edit ⟨i,_⟩ := follows.point
    obtain rfl : w₁ = w := follows.world
    have member := way.inRpo wired begins _ rfl
    rw [cleared.shiftEnd member] at way'
    refine ⟨_,?_,.some (follows.moves fun x d before => .edge before out)⟩
    rw [List.filter_append]
    exact .edge way' ((cleared.thins.edges i).1 ▸ out)
  | @raise trace i j n s ρ w o w' way here raises out ih =>
    obtain ⟨_,way',@⟨_,⟨point,ρ',w₁⟩,follows⟩⟩ := ih fun l reads j member =>
      calm l reads j (List.mem_append_left _ member)
    obtain rfl : point = g.shift edit ⟨i,n⟩ := follows.point
    obtain rfl : w₁ = w := follows.world
    have placed : g.StmtAt ⟨i,n⟩ s := ⟨way.inRpo wired begins _ rfl,here⟩
    have remains := calm s.loc _ _ (List.mem_append_right _ (List.mem_singleton.mpr rfl))
    obtain ⟨t,kept⟩ := Option.isSome_iff_exists.mp ((cleared.locsIff distinct placed).mp remains)
    have step := way'.raise (cleared.stmtAt placed kept).2 ((cleared.outcome follows placed kept).trans raises)
      ((cleared.thins.edges i).2.2.1 ▸ out)
    rw [cleared.reads follows placed kept,cleared.locs s t kept] at step
    refine ⟨_,?_,.some (follows.moves fun x d before => .raise before out)⟩
    rw [List.filter_append]
    exact step
  | @leave trace i n s ρ w o w' way here raises out ih =>
    obtain ⟨_,way',@⟨_,⟨point,ρ',w₁⟩,follows⟩⟩ := ih fun l reads j member =>
      calm l reads j (List.mem_append_left _ member)
    obtain rfl : point = g.shift edit ⟨i,n⟩ := follows.point
    obtain rfl : w₁ = w := follows.world
    have placed : g.StmtAt ⟨i,n⟩ s := ⟨way.inRpo wired begins _ rfl,here⟩
    have remains := calm s.loc _ _ (List.mem_append_right _ (List.mem_singleton.mpr rfl))
    obtain ⟨t,kept⟩ := Option.isSome_iff_exists.mp ((cleared.locsIff distinct placed).mp remains)
    have step := way'.leave (cleared.stmtAt placed kept).2 ((cleared.outcome follows placed kept).trans raises)
      ((cleared.thins.edges i).2.2.1.trans out)
    rw [cleared.reads follows placed kept,cleared.locs s t kept] at step
    refine ⟨none,?_,.none⟩
    rw [List.filter_append]
    exact step

end Executing

end Graph

namespace Analysed

variable {a b : Analysed} {p : Point} {s : Stmt} {v : VarId}

theorem Tied.unreached (tied : a.Tied) (fits : a.Exact) {l : Loc} (unused : a.chains.uses v l = []) {q : Point}
    {t : Stmt} (there : a.graph.StmtAt q t) (use : v ∈ t.uses) : ¬a.graph.Reaches v l q := by
  intro reaches
  have linked := fits v t.loc ⟨q,t,there,rfl,use⟩ l ⟨q,t,there,rfl,reaches⟩
  have used := (tied.agree v t.loc l).mpr linked
  rw [unused] at used
  contradiction

theorem Tied.cleared (tied : a.Tied) (fits : a.Exact) (here : a.graph.StmtAt p s) (defines : s.def? = some v)
    (unused : a.chains.uses v s.loc = []) {edit : Stmt → Option Stmt} {h : Graph} (edited : a.graph.Edited edit h)
    (only : ∀ t, t.loc ≠ s.loc → edit t = some t) (fate : s.Fate (edit s)) : a.graph.Cleared edit h := by
  refine ⟨edited,fun q t there => ?_,fun w p' r q t here' loses there kept use => ?_⟩
  · by_cases same : t.loc = s.loc
    · obtain rfl := (there.unique tied.distinct here same).2
      exact fate
    · rw [only t same]
      exact .stays
  · have same : r.loc = s.loc := by
      by_contra other
      exact loses.2 r (only r other) loses.1
    obtain rfl := (here'.unique tied.distinct here same).2
    obtain rfl : w = v := Option.some.inj (loses.1.symm.trans defines)
    exact tied.unreached fits unused there use

def Sweeps (a b : Analysed) : Prop := ∃ edit, a.graph.Cleared edit b.graph

theorem Tied.sweepsSite (tied : a.Tied) (fits : a.Exact) (site : Site) : a.Sweeps (a.eliminateSite site).1 := by
  obtain ⟨v,l⟩ := site
  have same : a.Sweeps a := ⟨_,.refl a.graph⟩
  unfold eliminateSite
  dsimp only
  split
  · rename_i w value i assigns listed
    obtain ⟨p,s,d,here,rfl,act⟩ := tied.homed.assignment assigns
    have defines : s.def? = some w := by rw [Stmt.def?,act]; rfl
    split
    · exact same
    · rename_i held
      simp only [ne_eq,not_or,not_not] at held
      obtain ⟨rfl,unused⟩ := held
      obtain rfl : p.node = i := Option.some.inj ((tied.placed p s here).symm.trans listed)
      split
      · rename_i acts
        split
        · refine ⟨_,tied.cleared fits here defines unused (tied.toGrounded.stripped here w).edited
            (fun t => Stmt.rewriteOther) ?_⟩
          rw [Stmt.rewrite,if_pos rfl]
          exact .strips act acts
        · exact same
      · rename_i idle
        split
        · exact same
        · refine ⟨_,tied.cleared fits here defines unused (tied.removed here defines).edited
            (fun t other => if_neg other) ?_⟩
          rw [Stmt.strike,if_pos rfl]
          exact .goes act (Bool.eq_false_iff.mpr idle)
  · exact same

theorem Tied.sweeps (tied : a.Tied) (fits : a.Exact) : a.Sweeps a.eliminateDeadCode.1 := by
  suffices run : ∀ (fuel : Nat) (a : Analysed) (work : List Site) (removed : Nat), a.Tied → a.Exact →
      a.Sweeps (eliminateFrom fuel a work removed).1 from run _ a _ 0 tied fits
  intro fuel
  induction fuel with
  | zero => exact fun a _ _ _ _ => ⟨_,.refl a.graph⟩
  | succ fuel ih =>
    intro a work removed tied fits
    cases work with
    | nil => exact ⟨_,.refl a.graph⟩
    | cons site work =>
      have keeps := a.keepsEliminateSite site
      obtain ⟨edit,first⟩ := tied.sweepsSite fits site
      obtain ⟨edit',second⟩ := ih (a.eliminateSite site).1 (work ++ (a.eliminateSite site).2.2)
        (if (a.eliminateSite site).2.1 then removed + 1 else removed) (keeps.tied tied) (keeps.exact tied fits)
      exact ⟨_,first.trans second tied.wired tied.distinct⟩

theorem effectsCleared {edit : Stmt → Option Stmt} {ss : List Stmt} (fates : ∀ s ∈ ss, s.Fate (edit s)) :
    effects ((ss.filterMap edit).flatMap (·.act.steps)) = effects (ss.flatMap (·.act.steps)) := by
  induction ss with
  | nil => rfl
  | cons s ss ih =>
    have fate := fates s List.mem_cons_self
    have rest := ih fun t member => fates t (List.mem_cons_of_mem _ member)
    rw [List.flatMap_cons,effectsAppend,← rest]
    cases kept : edit s with
    | none =>
      rw [kept] at fate
      rw [List.filterMap_cons_none kept,effectsIdle fate.idle,List.nil_append]
    | some t =>
      rw [kept] at fate
      rw [List.filterMap_cons_some kept,List.flatMap_cons,effectsAppend,fate.steps]

/-- Every execution in which nothing raises that is gone afterwards has one of the new graph with the same branches
and exceptions, and only one: it carries out what remains with the values that it read before, and leads to the same
world. The calls, allocations, stores and monitor operations of each node are those that it had, and what remains
is as it was, or a call without its result. No definition that is gone reaches a remaining statement that reads
it. -/
theorem executesCleared (made : a.Made) : let b := a.eliminateDeadCode.1
    (∀ (V O W : Type) (m : Doing V O W) (e : NodeId) (ρ : Values V) (w : W) (trace : List (Event V))
      (state : Option (Situation V W)), m.Quiet → a.graph.entry = some e →
        a.graph.Execution m ⟨⟨e,0⟩,ρ,w⟩ trace state →
        (∀ l reads j, Event.raised l reads j ∈ trace → l ∈ b.graph.locs) →
        ∃ state', b.graph.Execution m ⟨⟨e,0⟩,ρ,w⟩ (trace.filter (Event.remains b.graph.locs)) state' ∧
          state'.map Situation.world = state.map Situation.world ∧
          ∀ trace' state'', b.graph.Execution m ⟨⟨e,0⟩,ρ,w⟩ trace' state'' →
            trace'.map Event.label = (trace.filter (Event.remains b.graph.locs)).map Event.label →
            trace' = trace.filter (Event.remains b.graph.locs) ∧ state'' = state') ∧
    (∀ i ∈ a.graph.rpo, effects (b.evaluation i) = effects (a.evaluation i)) ∧
    (∀ q t, b.graph.StmtAt q t →
      ∃ p s, a.graph.StmtAt p s ∧ p.node = q.node ∧ (t = s ∨ t = s.withoutResult)) ∧
    (∀ v p s q t, a.graph.StmtAt p s → s.def? = some v → ¬b.graph.Defines v s.loc → a.graph.StmtAt q t →
      t.loc ∈ b.graph.locs → v ∈ t.uses → ¬a.graph.Reaches v s.loc q) := by
  intro b
  obtain ⟨tied,fits⟩ := made.tied
  obtain ⟨edit,cleared⟩ := tied.sweeps fits
  refine ⟨fun V O W m e ρ w trace state quiet entry run calm => ?_,fun i member => ?_,fun q t there => ?_,
    fun v p s q t here defines gone there remains use => ?_⟩
  · have begins := made.wired.entry e entry
    obtain ⟨state',run',follows⟩ := cleared.simulate made.wired made.distinct quiet begins rfl run calm
    refine ⟨state',run',?_,fun _ _ other same => run'.unique other same⟩
    cases follows with
    | none => rfl
    | some follows => exact congrArg some follows.world
  · rw [evaluation,evaluation,cleared.stmts i member]
    refine effectsCleared fun s listed => ?_
    obtain ⟨k,here⟩ := List.getElem?_of_mem listed
    exact cleared.fates ⟨i,k⟩ s ⟨member,here⟩
  · obtain ⟨p,s,source,kept,rfl⟩ := cleared.stmtBack there
    have fate := cleared.fates p s source
    rw [kept] at fate
    refine ⟨p,s,source,rfl,?_⟩
    cases fate with
    | stays => exact .inl rfl
    | strips => exact .inr rfl
  · refine cleared.unread v p s q t here ⟨defines,fun r kept defines' => gone ?_⟩ there
      ((cleared.locsIff made.distinct there).mp remains) use
    have defined := Graph.DefinedAt.stmt (cleared.stmtAt here kept) defines'
    rw [cleared.locs s r kept] at defined
    exact ⟨_,defined⟩

def summing : Doing Int Unit Unit := fun _ values _ => .value (values.sum + 5) ()

/-- The second of two assignments goes, and with it one event; what follows reads what it read. -/
theorem executesClearedReviving : ∃ a : Analysed, a.graph = reviving ∧ a.Made ∧
    a.eliminateDeadCode.1.graph.locs = [0,1,2,3,4,6] ∧
    ∃ state, a.eliminateDeadCode.1.graph.Execution summing ⟨⟨0,0⟩,fun _ => 0,()⟩
      [.done 0 [],.done 1 [5],.done 2 [0],.goes 1,.done 3 [],.done 4 [5],.goes 2,.done 6 [10]] state := by
  have swept : (Chains.ofGraph reviving).toOption.map (fun c => (eliminateDeadCode ⟨reviving,c⟩).1.graph.locs) =
      some [0,1,2,3,4,6] := by
    simp -zeta only [eliminateDeadCode,Chains.sorted,sortByHalves]
    decide +kernel
  cases ok : Chains.ofGraph reviving with
  | error f => rw [ok] at swept; contradiction
  | ok c =>
    rw [ok] at swept
    have made : Made ⟨reviving,c⟩ := ⟨revivingWired,revivingDistinct,revivingReserved,ok⟩
    have locs : (eliminateDeadCode ⟨reviving,c⟩).1.graph.locs = [0,1,2,3,4,6] := Option.some.inj swept
    have start : reviving.Execution summing ⟨⟨0,0⟩,fun _ => 0,()⟩ [] (some ⟨⟨0,0⟩,fun _ => 0,()⟩) := .stay
    have upper := ((start.next rfl rfl).next rfl rfl).next rfl rfl
    have left := (((upper.edge (j := 1) (by decide)).next rfl rfl).next rfl rfl).next rfl rfl
    have run := (left.edge (j := 2) (by decide)).next rfl rfl
    obtain ⟨state,run',-⟩ := (executesCleared made).1 _ _ _ summing 0 _ _ _ _ (fun _ _ _ _ _ _ _ => rfl) rfl run
      (by simp)
    refine ⟨⟨reviving,c⟩,rfl,made,locs,state,?_⟩
    rw [locs] at run'
    exact run'

end Analysed

end RegCode
