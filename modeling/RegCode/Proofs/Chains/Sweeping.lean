import RegCode.Proofs.Chains.Unread

/-! Removal of dead code comes to an end. What is on the list of work, or can get there, always covers
the definitions without a use that could still go; each removal takes as many links out of the tables
as it can put definitions on the list. -/
namespace RegCode

theorem Expr.statementActs {e : Expr} (stands : e.isStatement = true) : e.hasEffects = true := by
  cases e <;> simp_all [isStatement,hasEffects]

def Chains.linkCount (c : Chains) : Nat := sumOf (fun (_,ds) => ds.length) c.useDef.entries

namespace Analysed

variable {a b s : Analysed} {v w : VarId} {l e : Loc} {c : Chains}

def Unused (a : Analysed) (v : VarId) (l : Loc) : Prop :=
  a.chains.defUse.get? (v,l) = some [] ∧ l ≠ paramLoc

def Stuck (a : Analysed) (v : VarId) (l : Loc) : Prop :=
  ∃ p s e d, a.graph.StmtAt p s ∧ s.loc = l ∧ s.act = .assign v e d ∧ e.isStatement = false ∧
    (e.hasEffects = true ∨ e.canThrow = true ∧ (a.graph.node p.node).catchSuccs ≠ [])

def Swept (a : Analysed) : Prop := ∀ v l, a.Unused v l → a.Stuck v l

theorem sumOfFilter {α : Type} (f : α → Nat) (keep : α → Bool) (xs : List α) :
    sumOf f (xs.filter keep) ≤ sumOf f xs := by
  induction xs with
  | nil => exact Nat.le_refl _
  | cons x xs ih =>
    rw [List.filter_cons]
    split
    · exact Nat.add_le_add_left ih _
    · exact Nat.le_trans ih (Nat.le_add_left ..)

theorem linksErase (c : Chains) (v : VarId) (l : Loc) :
    Chains.linkCount { c with useDef := c.useDef.erase (v,l) } + (c.defsOfUse v l).length ≤ c.linkCount := by
  unfold Chains.linkCount Chains.defsOfUse Table.getD Table.get? Table.erase
  dsimp only
  induction c.useDef.entries with
  | nil => simp [sumOf]
  | cons entry rest ih =>
    obtain ⟨site,ds⟩ := entry
    by_cases same : (v,l) = site
    · subst same
      rw [List.filter_cons_of_neg (by simp),List.lookup_cons,beq_self_eq_true]
      have fewer := sumOfFilter (fun entry : Site × List Loc => entry.2.length)
        (fun entry => !((v,l) == entry.1)) rest
      simp only [sumOf,Option.getD_some]
      omega
    · have other : ((v,l) == site) = false := by simpa using same
      rw [List.filter_cons_of_pos (by simpa using same),List.lookup_cons,other]
      simp only [sumOf]
      omega

theorem deadDropUse (v : VarId) (l : Loc) (ds : List Loc) (c : Chains) :
    (dropUse v l c ds).2.length ≤ ds.length ∧
      ∀ e ∈ ds, e ≠ paramLoc → (c.defUse.get? (v,e)).map (Locs.erase l) = some [] →
        (v,e) ∈ (dropUse v l c ds).2 := by
  induction ds generalizing c with
  | nil => exact ⟨Nat.le_refl _,fun _ member => absurd member List.not_mem_nil⟩
  | cons d ds ih =>
    unfold dropUse
    cases held : c.defUse.get? (v,d) with
    | none =>
      obtain ⟨short,all⟩ := ih c
      refine ⟨Nat.le_succ_of_le short,fun e member stated empty => all e ?_ stated empty⟩
      refine (List.mem_cons.mp member).resolve_left fun same => ?_
      rw [same,held] at empty
      contradiction
    | some us =>
      obtain ⟨short,all⟩ := ih { c with defUse := c.defUse.insert (v,d) (Locs.erase l us) }
      dsimp only
      refine ⟨?_,fun e member stated empty => ?_⟩
      · split
        · exact Nat.succ_le_succ short
        · exact Nat.le_succ_of_le short
      · by_cases same : e = d
        · subst same
          rw [held,Option.map_some,Option.some.injEq] at empty
          rw [if_pos (by simpa [empty] using stated)]
          exact List.mem_cons_self
        · have rest := all e ((List.mem_cons.mp member).resolve_left same) stated (by
            rw [Table.get?_insert,if_neg (by simpa using same)]
            exact empty)
          split
          · exact List.mem_cons_of_mem _ rest
          · exact rest

theorem deadDropUses (l : Loc) (vs : List VarId) (c : Chains) :
    (dropUses l vs c).1.linkCount + (dropUses l vs c).2.length ≤ c.linkCount ∧
      ∀ w ∈ vs, ∀ e ∈ c.defsOfUse w l, e ≠ paramLoc →
        (c.defUse.get? (w,e)).map (Locs.erase l) = some [] → (w,e) ∈ (dropUses l vs c).2 := by
  induction vs generalizing c with
  | nil => exact ⟨Nat.le_refl _,fun _ member => absurd member List.not_mem_nil⟩
  | cons v vs ih =>
    obtain ⟨short,own⟩ := deadDropUse v l (c.defsOfUse v l) c
    obtain ⟨table,unlinked⟩ := unlinkedDropUse v l (c.defsOfUse v l) c
    unfold dropUses
    dsimp only
    generalize dropUse v l c (c.defsOfUse v l) = r at short own table unlinked ⊢
    obtain ⟨c₁,dead⟩ := r
    obtain ⟨fewer,others⟩ := ih { c₁ with useDef := c₁.useDef.erase (v,l) }
    have erased := linksErase c v l
    have same : Chains.linkCount { c₁ with useDef := c₁.useDef.erase (v,l) } =
        Chains.linkCount { c with useDef := c.useDef.erase (v,l) } := by
      dsimp only at table
      rw [Chains.linkCount,Chains.linkCount,table]
    dsimp only at short ⊢
    refine ⟨?_,fun w member e linked stated empty => List.mem_append.mpr ?_⟩
    · rw [List.length_append]
      omega
    · by_cases here : w = v
      · subst here
        exact .inl (own e linked stated empty)
      · refine .inr (others w ((List.mem_cons.mp member).resolve_left here) e ?_ stated ?_)
        · dsimp only at table
          rw [Chains.defsOfUse,Table.getD,Table.get?_erase,if_neg (by simpa using here),table]
          exact linked
        · exact (unlinked.kept w e fun site => here site.1) ▸ empty

inductive Looked (a : Analysed) (v : VarId) (l : Loc) : Analysed × Bool × List Site → Prop where
  | idle (stuck : a.Unused v l → a.Stuck v l) : Looked a v l (a,false,[])
  | gone {edit b dead p s} {removed : Bool} (here : a.graph.StmtAt p s) (loc : s.loc = l)
      (defines : s.def? = some v) (edited : Graph.Edited edit a.graph b.graph)
      (only : ∀ t, t.loc ≠ l → edit t = some t) (lost : b.chains.defUse.get? (v,l) = none)
      (listed : ∀ w e, b.Unused w e → a.Unused w e ∨ (w,e) ∈ dead)
      (fewer : b.chains.linkCount + dead.length ≤ a.chains.linkCount) : Looked a v l (b,removed,dead)

theorem Tied.assigned (tied : a.Tied) (unused : a.Unused v l) :
    ∃ p s e d, a.graph.StmtAt p s ∧ s.loc = l ∧ s.act = .assign v e d ∧ a.assignment? l = some (v,e) ∧
      a.chains.home.get? l = some p.node := by
  have listed : a.chains.defUse.contains (v,l) = true := by simp [Table.contains,unused.1]
  obtain ⟨p,defined⟩ := (tied.defined v l).mp listed
  cases defined with
  | param member entry => exact absurd rfl unused.2
  | @stmt i k s here defines =>
    have found := tied.toGrounded.stmt.mpr ⟨_,here,rfl⟩
    cases act : s.act with
    | assign u e d =>
      rw [Stmt.def?,act] at defines
      cases defines
      exact ⟨_,s,e,d,here,rfl,act,by simp [assignment?,found,act],tied.placed _ s here⟩
    | _ => simp [Stmt.def?,act,Action.def?] at defines

theorem Tied.lookedRemoved (tied : a.Tied) {p : Point} {s : Stmt} (here : a.graph.StmtAt p s)
    (defines : s.def? = some v) (removed : Bool) :
    a.Looked v s.loc ((a.removeStmt s.loc).1,removed,(a.removeStmt s.loc).2) := by
  have gone := tied.removed here defines
  have found : a.stmt? s.loc = some s := tied.toGrounded.stmt.mpr ⟨p,here,rfl⟩
  have home := tied.placed p s here
  obtain ⟨fewer,listed⟩ := deadDropUses s.loc s.uses a.chains
  have dead : (a.removeStmt s.loc).2 = (dropUses s.loc s.uses a.chains).2 := by
    simp only [removeStmt,found,home]
  have kept : (a.removeStmt s.loc).1.chains.linkCount = (dropUses s.loc s.uses a.chains).1.linkCount := by
    simp only [removeStmt,found,home,defines,Chains.linkCount]
  rw [dead]
  refine .gone here rfl defines gone.edited (fun t other => if_neg other) (by rw [gone.defUse,if_pos rfl])
    (fun w e unused => ?_) (kept ▸ fewer)
  by_cases before : a.Unused w e
  · exact .inl before
  obtain ⟨empty,stated⟩ := unused
  rw [gone.defUse] at empty
  split at empty
  · contradiction
  · obtain ⟨us,held,erased⟩ := Option.map_eq_some_iff.mp empty
    -- The list was not empty before, so that the statement was on it.
    have last : s.loc ∈ a.chains.uses w e := by
      rw [Chains.uses,Table.getD,held,Option.getD_some]
      by_contra other
      have same : Locs.erase s.loc us = us := List.filter_eq_self.mpr fun u member =>
        bne_iff_ne.mpr fun equal => other (equal ▸ member)
      exact before ⟨held.trans (congrArg some (same.symm.trans erased)),stated⟩
    have linked := (tied.agree w s.loc e).mp last
    obtain ⟨q,t,there,loc,use⟩ := (tied.linked linked).1
    obtain ⟨-,rfl⟩ := there.unique tied.distinct here loc
    exact .inr (listed w use e linked stated empty)

theorem Tied.lookedDropped (tied : a.Tied) {p : Point} {s : Stmt} (here : a.graph.StmtAt p s)
    (defines : s.def? = some v) (removed : Bool) :
    a.Looked v s.loc (a.dropResult p.node v s.loc,removed,[]) := by
  have stripped := tied.toGrounded.stripped here v
  refine .gone here rfl defines stripped.edited (fun t => Stmt.rewriteOther) (by rw [stripped.defUse,if_pos rfl])
    (fun w e unused => .inl ⟨?_,unused.2⟩) ?_
  · have empty := unused.1
    rw [stripped.defUse] at empty
    split at empty
    · contradiction
    · exact empty
  · rw [Chains.linkCount,stripped.useDef]
    exact Nat.le_refl _

theorem Tied.looked (tied : a.Tied) (v : VarId) (l : Loc) : a.Looked v l (a.eliminateSite (v,l)) := by
  unfold eliminateSite
  dsimp only
  split
  · rename_i w value i assigns listed
    obtain ⟨p,s,d,here,rfl,act⟩ := tied.homed.assignment assigns
    obtain rfl : p.node = i := Option.some.inj ((tied.placed p s here).symm.trans listed)
    have defines : s.def? = some w := by rw [Stmt.def?,act]; rfl
    split
    · rename_i other
      refine .idle fun unused => ?_
      obtain ⟨_,_,_,_,-,-,-,assigns',-⟩ := tied.assigned unused
      rw [assigns] at assigns'
      cases assigns'
      simp [Chains.uses,Table.getD,unused.1] at other
    · rename_i held
      simp only [ne_eq,not_or,not_not] at held
      obtain ⟨rfl,-⟩ := held
      split
      · rename_i acts
        split
        · exact tied.lookedDropped here defines false
        · rename_i bare
          exact .idle fun _ => ⟨p,s,value,d,here,rfl,act,by simpa using bare,.inl acts⟩
      · rename_i idle
        split
        · rename_i raises
          rw [Bool.and_eq_true,Bool.not_eq_true',List.isEmpty_eq_false_iff] at raises
          refine .idle fun _ => ⟨p,s,value,d,here,rfl,act,?_,.inr raises⟩
          exact Bool.eq_false_iff.mpr fun stands => idle (Expr.statementActs stands)
        · exact tied.lookedRemoved here defines true
  · rename_i none
    refine .idle fun unused => ?_
    obtain ⟨p,_,value,_,-,-,-,assigns,home⟩ := tied.assigned unused
    exact (none v value p.node assigns home).elim

theorem Stuck.edited (stuck : a.Stuck w e) (distinct : a.graph.LocsDistinct) {p : Point} {s : Stmt}
    (here : a.graph.StmtAt p s) (defines : s.def? = some v) {edit : Stmt → Option Stmt}
    (edited : Graph.Edited edit a.graph b.graph) (only : ∀ t, t.loc ≠ s.loc → edit t = some t)
    (apart : (w,e) ≠ (v,s.loc)) : b.Stuck w e := by
  obtain ⟨p,t,value,d,there,rfl,act,bare,lasts⟩ := stuck
  have other : t.loc ≠ s.loc := fun same => by
    obtain ⟨-,rfl⟩ := there.unique distinct here same
    rw [Stmt.def?,act] at defines
    cases defines
    exact apart rfl
  refine ⟨_,t,value,d,edited.stmtAt there (only t other),rfl,act,bare,lasts.imp id fun raises => ?_⟩
  exact ⟨raises.1,(edited.thins.edges p.node).2.2.1 ▸ raises.2⟩

theorem Tied.sweptFrom (fuel : Nat) (tied : a.Tied) (work : List Site) (removed : Nat)
    (covers : ∀ v l, a.Unused v l → a.Stuck v l ∨ (v,l) ∈ work)
    (enough : work.length + a.chains.linkCount ≤ fuel) : (eliminateFrom fuel a work removed).1.Swept := by
  induction fuel generalizing a work removed with
  | zero =>
    obtain rfl : work = [] := List.eq_nil_of_length_eq_zero (by omega)
    exact fun v l unused => (covers v l unused).resolve_right List.not_mem_nil
  | succ fuel ih =>
    cases work with
    | nil => exact fun v l unused => (covers v l unused).resolve_right List.not_mem_nil
    | cons site work =>
      obtain ⟨v,l⟩ := site
      have next := (a.keepsEliminateSite (v,l)).tied tied
      have looked := tied.looked v l
      unfold eliminateFrom
      dsimp only
      rw [List.length_cons] at enough
      generalize a.eliminateSite (v,l) = r at next looked ⊢
      cases looked with
      | idle stuck =>
        refine ih next _ _ (fun w e unused => ?_) (by simp only [List.append_nil]; omega)
        rw [List.append_nil]
        rcases covers w e unused with done | listed
        · exact .inl done
        · rcases List.mem_cons.mp listed with same | listed
          · cases same
            exact .inl (stuck unused)
          · exact .inr listed
      | @gone edit b dead p s removed' here loc defines edited only lost listed fewer =>
        subst loc
        refine ih next _ _ (fun w e unused => ?_) (by rw [List.length_append]; dsimp only; omega)
        rcases listed w e unused with before | dead
        · have apart : (w,e) ≠ (v,s.loc) := fun same => by
            have held : b.chains.defUse.get? (w,e) = some [] := unused.1
            rw [same,lost] at held
            contradiction
          rcases covers w e before with done | listed
          · exact .inl (done.edited tied.distinct here defines edited only apart)
          · exact .inr (List.mem_append_left _ ((List.mem_cons.mp listed).resolve_left apart))
        · exact .inr (List.mem_append_right _ dead)

theorem Tied.swept (tied : a.Tied) : a.eliminateDeadCode.1.Swept := by
  refine tied.sweptFrom _ _ 0 (fun v l unused => .inr ?_) (Nat.le_succ _)
  obtain ⟨held,stated⟩ := unused
  have entry : ((v,l),([] : List Loc)) ∈ a.chains.defUse.entries := by
    obtain ⟨_,_,parts,-⟩ := List.lookup_eq_some_iff.mp held
    rw [parts]
    exact List.mem_append_right _ List.mem_cons_self
  rw [List.mem_mergeSort,List.mem_map]
  refine ⟨_,List.mem_filter.mpr ⟨List.mem_mergeSort.mpr entry,?_⟩,rfl⟩
  simpa using stated

theorem Tied.unused (tied : a.Tied) {p : Point} {s : Stmt} (here : a.graph.StmtAt p s) (defines : s.def? = some v)
    (empty : a.chains.uses v s.loc = []) : a.Unused v s.loc := by
  refine ⟨?_,fun same => tied.reserved p.node here.1 ?_⟩
  · obtain ⟨us,held⟩ := Option.isSome_iff_exists.mp ((tied.defined v s.loc).mpr ⟨_,.stmt here defines⟩)
    rw [Chains.uses,Table.getD,held] at empty
    exact held.trans (congrArg some empty)
  · exact same ▸ List.mem_map.mpr ⟨s,List.mem_of_getElem? here.2,rfl⟩

theorem Tied.idle (tied : a.Tied) (swept : a.Swept) (site : Site) : a.eliminateSite site = (a,false,[]) := by
  obtain ⟨v,l⟩ := site
  unfold eliminateSite
  dsimp only
  split
  · rename_i w value i assigns listed
    split
    · rfl
    · rename_i held
      simp only [ne_eq,not_or,not_not] at held
      obtain ⟨rfl,empty⟩ := held
      obtain ⟨p,s,d,here,rfl,act⟩ := tied.homed.assignment assigns
      obtain rfl : p.node = i := Option.some.inj ((tied.placed p s here).symm.trans listed)
      obtain ⟨_,t,_,_,there,loc,act',bare,lasts⟩ := swept w s.loc
        (tied.unused here (by rw [Stmt.def?,act]; rfl) empty)
      obtain ⟨rfl,rfl⟩ := there.unique tied.distinct here loc
      cases act.symm.trans act'
      rcases lasts with acts | ⟨raises,guarded⟩
      · simp [acts,bare]
      · simp [bare,raises,guarded]
  · rfl

theorem Tied.idleFrom (tied : a.Tied) (swept : a.Swept) (fuel : Nat) (work : List Site) (removed : Nat) :
    eliminateFrom fuel a work removed = (a,removed) := by
  induction fuel generalizing work with
  | zero => rfl
  | succ fuel ih =>
    cases work with
    | nil => rfl
    | cons site work =>
      unfold eliminateFrom
      rw [tied.idle swept site]
      exact ih (work ++ [])

/-- Once dead code is gone, what is assigned without a use is neither a call nor a finished object. It
acts in another way, or may raise in a node with handlers. Nothing more goes when dead code is removed
again. With tables that are those of new chains, a definition has no use just when none of its
variable's reads can be reached from it. -/
theorem sweepSettles {fits : Analysed → Loc → VarId → Prop} (made : s.Made)
    (start : a = s ∨ s.splitLifetimes = .ok a) (steps : Steps fits a b) :
    let c := b.eliminateDeadCode.1
    (∀ p t v e d, c.graph.StmtAt p t → t.act = .assign v e d → c.chains.uses v t.loc = [] →
      e.isStatement = false ∧
        (e.hasEffects = true ∨ e.canThrow = true ∧ (c.graph.node p.node).catchSuccs ≠ [])) ∧
    c.eliminateDeadCode = (c,0) ∧
    (b.Current → ∀ p t v, c.graph.StmtAt p t → t.def? = some v →
      (c.chains.uses v t.loc = [] ↔
        ∀ q r, c.graph.StmtAt q r → v ∈ r.uses → ¬c.graph.Reaches v t.loc q)) := by
  intro c
  have tied : b.Tied := (steps.tied (start.elim (fun same => same ▸ made) made.split)).1
  have keeps := keepsEliminateDeadCode b
  have swept : c.Swept := tied.swept
  have left : c.Tied := keeps.tied tied
  refine ⟨fun p t v e d here act empty => ?_,left.idleFrom swept _ _ 0,fun current p t v here defines => ?_⟩
  · obtain ⟨q,r,_,_,there,loc,act',lasts⟩ := swept v t.loc (left.unused here (by rw [Stmt.def?,act]; rfl) empty)
    obtain ⟨rfl,rfl⟩ := there.unique left.distinct here loc
    cases act.symm.trans act'
    exact lasts
  · have exact_ : c.Exact := keeps.exact tied (tied.currentIff.mp current)
    refine ⟨fun empty q r there use => left.unreached exact_ empty there use,fun free => ?_⟩
    refine List.eq_nil_iff_forall_not_mem.mpr fun u used => ?_
    have linked := (left.agree v u t.loc).mp used
    obtain ⟨q,r,there,rfl,use⟩ := (left.linked linked).1
    exact free q r there use (left.reaches there linked)

def cascading : Graph where
  vars := ⟨#[{},{ register := 1 },{ register := 2 },{ register := 3 },{ register := 4 }]⟩
  params := [0]
  entry := some 0
  store := #[
    { num := 0, kind := .ret, catchSuccs := [1],
      stmts := [⟨0,.assign 1 (.const "I" 5) false⟩,
        ⟨1,.assign 2 (.binary .add (.var 1) (.const "I" 8) "I") false⟩,
        ⟨2,.assign 3 (.binary .div (.var 0) (.var 0) "I") false⟩,
        ⟨3,.assign 4 (.call .static ⟨"LTest;","g",[],"I"⟩ []) false⟩,⟨4,.ret none⟩] },
    { num := 1, kind := .ret, handler := true, stmts := [⟨5,.ret none⟩], catchPreds := [0] }]
  nodes := [0,1]
  rpo := [0,1]
  nextLoc := 6

theorem cascadingWired : cascading.Wired where
  inStore := by decide
  entry := by intro e h; cases h; decide
  empty := by intro h; cases h
  succs := by decide
  preds := by decide
  catchSuccs := by decide
  catchPreds := by decide
  defs := by
    have all : ∀ i ∈ cascading.rpo, ∀ s ∈ (cascading.node i).stmts,
        s.def?.all (· < cascading.vars.size) = true := by decide
    intro i hi s hs v defines
    simpa [defines] using all i hi s hs
  params := by decide

/-- The first two go one after the other, and the call loses its result. The quotient stays. -/
theorem sweepSettlesCascading : ∃ a : Analysed, a.graph = cascading ∧ a.Made ∧
    a.eliminateDeadCode.1.graph.locs = [2,3,4,5] ∧ a.eliminateDeadCode.2 = 2 ∧
    a.eliminateDeadCode.1.eliminateDeadCode = (a.eliminateDeadCode.1,0) ∧
    ∀ q r, a.eliminateDeadCode.1.graph.StmtAt q r → 3 ∈ r.uses →
      ¬a.eliminateDeadCode.1.graph.Reaches 3 2 q := by
  have swept : (Chains.ofGraph cascading).toOption.map (fun c =>
      let r := eliminateDeadCode ⟨cascading,c⟩
      (r.1.graph.locs,r.2,(r.1.graph.node 0).stmts[0]?.map (fun s => (s.loc,s.def?)),r.1.chains.uses 3 2)) =
        some ([2,3,4,5],2,some (2,some 3),[]) := by cbv
  cases ok : Chains.ofGraph cascading with
  | error f => rw [ok] at swept; contradiction
  | ok c =>
    rw [ok] at swept
    obtain ⟨locs,rest⟩ := Prod.mk.inj (Option.some.inj swept)
    obtain ⟨count,rest⟩ := Prod.mk.inj rest
    obtain ⟨first,unused⟩ := Prod.mk.inj rest
    have distinct : cascading.LocsDistinct := by unfold Graph.LocsDistinct; decide
    have reserved : ∀ i ∈ cascading.rpo, paramLoc ∉ (cascading.node i).stmts.map (·.loc) := by decide
    have made : Made ⟨cascading,c⟩ := ⟨cascadingWired,distinct,reserved,ok⟩
    obtain ⟨-,again,reads⟩ := sweepSettles made (.inl rfl) (Steps.none : Steps (fun _ _ _ => True) _ _)
    obtain ⟨s,here,same⟩ := Option.map_eq_some_iff.mp first
    obtain ⟨loc,defines⟩ := Prod.mk.inj same
    have place : (eliminateDeadCode ⟨cascading,c⟩).1.graph.StmtAt ⟨0,0⟩ s :=
      ⟨(thinsEliminateFrom ..).graph.rest ▸ (by decide : 0 ∈ cascading.rpo),here⟩
    have current : Current ⟨cascading,c⟩ := ⟨c,ok,fun _ => rfl,fun _ => rfl⟩
    refine ⟨⟨cascading,c⟩,rfl,made,locs,count,again,?_⟩
    have free := (reads current _ s 3 place defines).mp (loc.symm ▸ unused)
    rwa [loc] at free

end Analysed

end RegCode
