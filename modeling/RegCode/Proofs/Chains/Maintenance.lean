import RegCode.Proofs.Flow.Search
import RegCode.Proofs.Chains.Relinking
import RegCode.Proofs.Chains.Restating
import Mathlib

/-! Chains that are kept up while dead code goes and values are substituted, against chains made anew.
They never tell too much, and new ones can always be made. They tell too little once a value is
substituted where more definitions of its operands come than at its own: these have come there only
since a definition in between was taken out, which the sets at the start of the nodes do not know. -/
namespace RegCode.Analysed

open Chains

/-- Chains as they are made for a graph that is well formed. -/
structure Made (a : Analysed) : Prop where
  wired : a.graph.Wired
  distinct : a.graph.LocsDistinct
  reserved : ∀ i ∈ a.graph.rpo, paramLoc ∉ (a.graph.node i).stmts.map (·.loc)
  ok : Chains.ofGraph a.graph = .ok a.chains

/-- Removal of dead code, and tries of a substitution, in any order and number; `fits` tells of the
tries. -/
inductive Steps (fits : Analysed → Loc → VarId → Prop) (a : Analysed) : Analysed → Prop where
  | none : Steps fits a a
  | swept {b} (before : Steps fits a b) : Steps fits a b.eliminateDeadCode.1
  | tried {b} (before : Steps fits a b) (o : PropagateOptions) (u : Loc) (n : Nat) (v : VarId)
      (fit : fits b u v) : Steps fits a (propagateVar o u (b,n) v).1

/-- The tables are those of chains made anew. -/
def Current (a : Analysed) : Prop :=
  ∃ c, Chains.ofGraph a.graph = .ok c ∧ (∀ site, a.chains.useDef.get? site = c.useDef.get? site) ∧
    ∀ site, a.chains.defUse.get? site = c.defUse.get? site

variable {a b s : Analysed} {c : Chains}

theorem Steps.propagate (before : Steps (fun _ _ _ => True) a b) (o : PropagateOptions) :
    Steps (fun _ _ _ => True) a (b.propagate o).1 :=
  propagateInduction o (fun _ u n v steps => steps.tried o u n v trivial) before

theorem Made.split (made : a.Made) (split : a.splitLifetimes = .ok b) : b.Made := by
  have renamed := renamedSplitLifetimes split
  refine ⟨renamed.wired made.wired,renamed.distinct made.distinct,fun i member => ?_,?_⟩
  · rw [renamed.rest] at member
    rw [renamed.locs]
    exact made.reserved i member
  · unfold splitLifetimes at split
    dsimp only at split
    split at split
    · cases Except.ok.inj split
      exact made.ok
    · cases linked : Chains.ofGraph (a.chains.definedVars.foldl splitVariable a).graph with
      | error fault =>
        rw [linked] at split
        contradiction
      | ok chains =>
        rw [linked] at split
        cases Except.ok.inj split
        exact linked

theorem Made.fresh (made : a.Made) : a.chains.Fresh a.graph ∧ ∀ v u, a.graph.Reads v u →
    a.chains.defsOfUse v u ≠ [] := by
  rcases Chains.ofGraphOk made.wired made.distinct with ⟨⟨c,ok,fresh⟩,full⟩ | ⟨⟨f,fault⟩,-⟩
  · cases Except.ok.inj (ok.symm.trans made.ok)
    refine ⟨fresh,?_⟩
    rintro v u ⟨p,s,here,rfl,use⟩
    rw [Chains.defsOfUse,Table.getD,fresh.useDef p s here,if_pos use]
    exact full p s here v use
  · have ok := made.ok
    rw [fault] at ok
    contradiction

theorem Made.tied (made : a.Made) : a.Tied ∧ a.Exact := by
  obtain ⟨fresh,served⟩ := made.fresh
  have listed := Chains.listed made.wired made.distinct made.ok
  have mem := fun {p : Point} {s : Stmt} (here : a.graph.StmtAt p s) (v : VarId) (d : Loc) =>
    Reaching.memBefore made.wired here.1 (v := v) (d := d)
      (Nat.le_of_lt (List.getElem?_eq_some_iff.mp here.2).1)
  have linked : ∀ {p s}, a.graph.StmtAt p s → ∀ v, a.chains.defsOfUse v s.loc =
      if v ∈ s.uses then (Reaching.before a.graph p).get v else [] := by
    intro p s here v
    rw [Chains.defsOfUse,Table.getD,fresh.useDef p s here]
    split <;> rfl
  have elsewhere : ∀ v u, (¬∃ p s, a.graph.StmtAt p s ∧ s.loc = u) → a.chains.useDef.get? (v,u) = none := by
    intro v u gone
    refine listed.others v u fun inside => gone ?_
    obtain ⟨i,member,inside⟩ := List.mem_flatMap.mp inside
    obtain ⟨s,held,loc⟩ := List.mem_map.mp inside
    obtain ⟨k,place⟩ := List.getElem?_of_mem held
    exact ⟨⟨i,k⟩,s,⟨member,place⟩,loc⟩
  refine ⟨⟨⟨made.wired,made.distinct,made.reserved,fresh.homed,fresh.home,?_,?_⟩,listed.defined,?_,
    fresh.agree,listed.sorted,?_,served,?_⟩,?_⟩
  · intro p s here gone
    rw [fresh.dropped] at gone
    contradiction
  · intro i member v d told _
    have told : d ∈ (Reaching.before a.graph ⟨i,0⟩).get v := by
      rw [Analysed.told,fresh.reaching i member] at told
      exact told
    exact (Reaching.memBefore (p := ⟨i,0⟩) made.wired member (Nat.zero_le _)).mp told
  · intro v u
    by_cases known : ∃ p s, a.graph.StmtAt p s ∧ s.loc = u
    · obtain ⟨p,s,here,rfl⟩ := known
      rw [Table.contains,fresh.useDef p s here]
      constructor
      · intro held
        split at held
        · rename_i use
          exact ⟨p,s,here,rfl,use⟩
        · contradiction
      · rintro ⟨q,t,there,loc,use⟩
        obtain ⟨-,rfl⟩ := there.unique made.distinct here loc
        rw [if_pos use]
        rfl
    · rw [Table.contains,elsewhere v u known]
      refine iff_of_false (by simp) ?_
      rintro ⟨p,s,here,loc,-⟩
      exact known ⟨p,s,here,loc⟩
  · intro v u
    by_cases known : ∃ p s, a.graph.StmtAt p s ∧ s.loc = u
    · obtain ⟨p,s,here,rfl⟩ := known
      rw [linked here]
      split
      · have start := (Reaching.solutionRest made.wired).2.1.kept.shaped.parts .start p.node
        exact (DefSet.shapedFoldAfter start _).sorted v
      · exact List.Pairwise.nil
    · rw [Chains.defsOfUse,Table.getD,elsewhere v u known]
      exact List.Pairwise.nil
  · intro v u d member
    by_cases known : ∃ p s, a.graph.StmtAt p s ∧ s.loc = u
    · obtain ⟨p,s,here,rfl⟩ := known
      exact (Chains.memDefsAt made.wired made.distinct fresh here).mpr
        (fresh.reaches made.wired here member)
    · rw [Chains.defsOfUse,Table.getD,elsewhere v u known] at member
      contradiction
  · rintro v u ⟨p,s,here,rfl,use⟩ d ⟨q,t,there,loc,reaches⟩
    obtain ⟨rfl,rfl⟩ := there.unique made.distinct here loc
    rw [linked here,if_pos use,mem here]
    exact reaches

theorem Tied.made (tied : a.Tied) : ∃ c, Made ⟨a.graph,c⟩ := by
  obtain ⟨c,ok⟩ := ((Chains.reachingExact a.graph tied.wired tied.distinct).2.1).mpr
    fun p s here v use => by
      obtain ⟨d,linked⟩ := List.exists_mem_of_ne_nil _ (tied.served v s.loc ⟨p,s,here,rfl,use⟩)
      exact ⟨d,tied.reaches here linked⟩
  exact ⟨c,tied.wired,tied.distinct,tied.reserved,ok⟩

theorem Tied.sound (tied : a.Tied) (made : Made ⟨a.graph,c⟩) :
    (∀ site, a.chains.useDef.contains site = c.useDef.contains site) ∧
      (∀ site, a.chains.defUse.contains site = c.defUse.contains site) ∧
      ∀ v u d, d ∈ a.chains.defsOfUse v u → d ∈ c.defsOfUse v u := by
  obtain ⟨fits,exact_⟩ := made.tied
  refine ⟨fun site => ?_,fun site => ?_,fun v u d linked => ?_⟩
  · obtain ⟨v,u⟩ := site
    rw [Bool.eq_iff_iff,tied.read]
    exact (fits.read v u).symm
  · obtain ⟨v,d⟩ := site
    rw [Bool.eq_iff_iff,tied.defined]
    exact (fits.defined v d).symm
  · have use := (tied.linked linked).1
    obtain ⟨p,s,here,rfl,-⟩ := id use
    exact exact_ v s.loc use d ⟨p,s,here,rfl,tied.reaches here linked⟩

theorem tableExt {t t' : Table Site (List Loc)} {site : Site} (contains : t.contains site = t'.contains site)
    (same : t.getD site [] = t'.getD site []) : t.get? site = t'.get? site := by
  unfold Table.contains at contains
  unfold Table.getD at same
  cases left : t.get? site <;> cases right : t'.get? site <;> simp_all

theorem Tied.currentIff (tied : a.Tied) : a.Current ↔ a.Exact := by
  constructor
  · rintro ⟨c,ok,useDef,-⟩ v u use d comes
    have made : Made ⟨a.graph,c⟩ := ⟨tied.wired,tied.distinct,tied.reserved,ok⟩
    have linked := made.tied.2 v u use d comes
    rw [Chains.defsOfUse,Table.getD,← useDef] at linked
    exact linked
  · intro exact_
    obtain ⟨c,made⟩ := tied.made
    obtain ⟨fits,all⟩ := made.tied
    obtain ⟨uses,defs,sound⟩ := tied.sound made
    have links : ∀ v u d, d ∈ a.chains.defsOfUse v u ↔ d ∈ c.defsOfUse v u := by
      refine fun v u d => ⟨sound v u d,fun linked => ?_⟩
      have use := (fits.linked linked).1
      obtain ⟨p,s,here,rfl,-⟩ := id use
      exact exact_ v s.loc use d ⟨p,s,here,rfl,fits.reaches here linked⟩
    refine ⟨c,made.ok,fun site => tableExt (uses site) ?_,fun site => tableExt (defs site) ?_⟩ <;>
      obtain ⟨v,d⟩ := site
    · exact Locs.eqOfMem (tied.defsSorted v d) (fits.defsSorted v d) (links v d)
    · refine Locs.eqOfMem (tied.usesSorted v d) (fits.usesSorted v d) fun u => ?_
      exact (tied.agree v u d).trans ((links v u d).trans (fits.agree v u d).symm)

theorem Steps.tied {fits : Analysed → Loc → VarId → Prop} (steps : Steps fits a b) (made : a.Made) :
    b.Tied ∧ ((∀ x u v, fits x u v → x.Level u v) → b.Exact) := by
  induction steps with
  | none => exact ⟨made.tied.1,fun _ => made.tied.2⟩
  | @swept b before ih =>
    have keeps := keepsEliminateDeadCode b
    exact ⟨keeps.tied ih.1,fun level => keeps.exact ih.1 (ih.2 level)⟩
  | tried before o u n v fit ih =>
    obtain ⟨tied,exactIff⟩ := ih.1.tried o u n v
    exact ⟨tied,fun level => (exactIff (ih.2 level)).mpr (level _ u v fit)⟩

/-- However dead code goes and values are substituted, chains can be made anew. The tables that have
been kept up have the same entries then, tell of no link that the new ones lack, and agree with each
other. They are the same when all that was substituted was level. From tables that are the same,
removal of dead code leads to such, and a substitution just when it is level. -/
theorem upkeepExactIff {fits : Analysed → Loc → VarId → Prop} (made : s.Made)
    (start : a = s ∨ s.splitLifetimes = .ok a) (steps : Steps fits a b) :
    (∃ c, Chains.ofGraph b.graph = .ok c ∧
      (∀ site, b.chains.useDef.contains site = c.useDef.contains site) ∧
      (∀ site, b.chains.defUse.contains site = c.defUse.contains site) ∧
      (∀ v u d, d ∈ b.chains.defsOfUse v u → d ∈ c.defsOfUse v u) ∧
      ∀ v u d, u ∈ b.chains.uses v d ↔ d ∈ b.chains.defsOfUse v u) ∧
    ((∀ x u v, fits x u v → x.Level u v) → b.Current) ∧
    (b.Current → b.eliminateDeadCode.1.Current ∧
      ∀ o u n v, (propagateVar o u (b,n) v).1.Current ↔ b.Level u v) := by
  have first : a.Made := start.elim (fun same => same ▸ made) made.split
  obtain ⟨tied,exact_⟩ := steps.tied first
  obtain ⟨c,anew⟩ := tied.made
  obtain ⟨uses,defs,sound⟩ := tied.sound anew
  refine ⟨⟨c,anew.ok,uses,defs,sound,tied.agree⟩,fun level => tied.currentIff.mpr (exact_ level),
    fun current => ?_⟩
  have exact_ := tied.currentIff.mp current
  have swept := keepsEliminateDeadCode b
  refine ⟨(swept.tied tied).currentIff.mpr (swept.exact tied exact_),fun o u n v => ?_⟩
  obtain ⟨tied',exactIff⟩ := tied.tried o u n v
  rw [tied'.currentIff]
  exact exactIff exact_

def reviving : Graph where
  vars := ⟨#[{},{ register := 1 },{ register := 2 }]⟩
  params := [2]
  entry := some 0
  store := #[
    { num := 0, kind := .cond, succs := [2,1], onTrue := some 2, onFalse := some 1,
      stmts := [⟨0,.assign 0 (.const "I" 5) false⟩,
        ⟨1,.assign 1 (.binary .add (.var 0) (.const "I" 8) "I") false⟩,
        ⟨2,.branch ⟨.eq,.var 2,none⟩⟩] },
    { num := 1, succs := [2], preds := [0],
      stmts := [⟨3,.assign 0 (.const "I" 6) false⟩,⟨4,.monitor true (.var 0)⟩,
        ⟨5,.assign 0 (.const "I" 7) false⟩] },
    { num := 2, kind := .ret, stmts := [⟨6,.ret (some (.var 1))⟩], preds := [0,1] }]
  nodes := [0,1,2]
  rpo := [0,1,2]
  nextLoc := 7

theorem revivingWired : reviving.Wired where
  inStore := by decide
  entry := by intro e h; cases h; decide
  empty := by intro h; cases h
  succs := by decide
  preds := by decide
  catchSuccs := by decide
  catchPreds := by decide
  defs := by
    have all : ∀ i ∈ reviving.rpo, ∀ s ∈ (reviving.node i).stmts,
        s.def?.all (· < reviving.vars.size) = true := by decide
    intro i hi s hs v defines
    simpa [defines] using all i hi s hs
  params := by decide

theorem revivingDistinct : reviving.LocsDistinct := by unfold Graph.LocsDistinct; decide

theorem revivingReserved : ∀ i ∈ reviving.rpo, paramLoc ∉ (reviving.node i).stmts.map (·.loc) := by
  decide

theorem upkeepExactIffReviving : ∃ a : Analysed, a.Made ∧ a.eliminateDeadCode.1.Current ∧
    ¬a.eliminateDeadCode.1.Level 6 1 ∧ ¬(propagateVar {} 6 (a.eliminateDeadCode.1,0) 1).1.Current := by
  have run : (Chains.ofGraph reviving).toOption.map (fun c =>
      let b := (propagateVar {} 6 (eliminateDeadCode ⟨reviving,c⟩ |>.1,0) 1).1
      (b.chains.defsOfUse 0 6,(Chains.ofGraph b.graph).toOption.map (·.defsOfUse 0 6))) =
        some ([0],some [0,3]) := by
    simp -zeta only [eliminateDeadCode,Chains.sorted,sortByHalves]
    decide +kernel
  cases ok : Chains.ofGraph reviving with
  | error f => rw [ok] at run; contradiction
  | ok c =>
    rw [ok] at run
    obtain ⟨kept,anew⟩ := Prod.mk.inj (Option.some.inj run)
    have made : Made ⟨reviving,c⟩ :=
      ⟨revivingWired,revivingDistinct,revivingReserved,ok⟩
    have stale : ¬(propagateVar {} 6 (eliminateDeadCode ⟨reviving,c⟩ |>.1,0) 1).1.Current := by
      rintro ⟨c',ok',useDef,-⟩
      rw [ok'] at anew
      have fresh : c'.defsOfUse 0 6 = [0,3] := Option.some.inj anew
      rw [Chains.defsOfUse,Table.getD,useDef] at kept
      rw [Chains.defsOfUse,Table.getD,kept] at fresh
      contradiction
    have current : Current ⟨reviving,c⟩ := ⟨c,ok,fun _ => rfl,fun _ => rfl⟩
    have begun : Steps (fun _ _ _ => True) (⟨reviving,c⟩ : Analysed) ⟨reviving,c⟩ := .none
    have swept := ((upkeepExactIff made (.inl rfl) begun).2.2 current).1
    have step := ((upkeepExactIff made (.inl rfl) begun.swept).2.2 swept).2 {} 6 0 1
    exact ⟨⟨reviving,c⟩,made,swept,fun level => stale (step.mpr level),stale⟩

end RegCode.Analysed
