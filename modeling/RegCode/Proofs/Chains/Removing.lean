import RegCode.Proofs.Chains.Upkeep

/-! Removal of a definition without uses. Its own uses go from the tables with it; what it has kept
from coming further has no use there, so that exact chains stay exact. -/
namespace RegCode

theorem Locs.memErase {d l : Loc} {ds : List Loc} : d ∈ erase l ds ↔ d ∈ ds ∧ d ≠ l := by
  simp [erase]

theorem Locs.canonicalErase {l : Loc} {ds : List Loc} (sorted : Canonical ds) :
    Canonical (erase l ds) := sorted.sublist List.filter_sublist

namespace Analysed

structure Unlinked (loc : Loc) (sites : VarId → Loc → Prop) (c c' : Chains) : Prop where
  reaching : c'.reaching = c.reaching
  dropped : c'.dropped = c.dropped
  home : c'.home = c.home
  gone : ∀ w e, sites w e → c'.defUse.get? (w,e) = (c.defUse.get? (w,e)).map (Locs.erase loc)
  kept : ∀ w e, ¬sites w e → c'.defUse.get? (w,e) = c.defUse.get? (w,e)

variable {loc : Loc} {P Q R : VarId → Loc → Prop} {c c' c₁ c₂ : Chains}

theorem Unlinked.trans (first : Unlinked loc P c c₁) (second : Unlinked loc Q c₁ c₂)
    (all : ∀ w e, R w e ↔ P w e ∨ Q w e) : Unlinked loc R c c₂ := by
  have twice : Locs.erase loc ∘ Locs.erase loc = Locs.erase loc := by
    funext us
    simp [Locs.erase]
  refine ⟨second.reaching.trans first.reaching,second.dropped.trans first.dropped,
    second.home.trans first.home,fun w e site => ?_,fun w e other => ?_⟩
  · by_cases late : Q w e
    · rw [second.gone w e late]
      by_cases early : P w e
      · rw [first.gone w e early,Option.map_map,twice]
      · rw [first.kept w e early]
    · rw [second.kept w e late,first.gone w e (((all w e).mp site).resolve_right late)]
  · rw [all,not_or] at other
    rw [second.kept w e other.2,first.kept w e other.1]

theorem unlinkedDropUse (v : VarId) (loc : Loc) (ds : List Loc) (c : Chains) :
    (dropUse v loc c ds).1.useDef = c.useDef ∧
      Unlinked loc (fun w e => w = v ∧ e ∈ ds) c (dropUse v loc c ds).1 := by
  induction ds generalizing c with
  | nil => exact ⟨rfl,rfl,rfl,rfl,by simp,fun _ _ _ => rfl⟩
  | cons d ds ih =>
    have all : ∀ w e, (w = v ∧ e ∈ d :: ds) ↔ (w = v ∧ e = d) ∨ (w = v ∧ e ∈ ds) := by
      intro w e
      rw [List.mem_cons]
      tauto
    unfold dropUse
    cases held : c.defUse.get? (v,d) with
    | none =>
      have first : Unlinked loc (fun w e => w = v ∧ e = d) c c :=
        ⟨rfl,rfl,rfl,fun w e site => by rw [site.1,site.2,held]; rfl,fun _ _ _ => rfl⟩
      exact ⟨(ih c).1,first.trans (ih c).2 all⟩
    | some us =>
      have first : Unlinked loc (fun w e => w = v ∧ e = d) c
          { c with defUse := c.defUse.insert (v,d) (Locs.erase loc us) } := by
        refine ⟨rfl,rfl,rfl,fun w e site => ?_,fun w e other => ?_⟩
        · rw [site.1,site.2,held,Table.get?_insert,if_pos (beq_self_eq_true _)]
          rfl
        · rw [Table.get?_insert,if_neg (by simpa using other)]
      exact ⟨(ih _).1,first.trans (ih _).2 all⟩

theorem unlinkedDropUses (loc : Loc) (vs : List VarId) (c : Chains) :
    (∀ w u, (dropUses loc vs c).1.useDef.get? (w,u) =
        if u = loc ∧ w ∈ vs then none else c.useDef.get? (w,u)) ∧
      Unlinked loc (fun w e => w ∈ vs ∧ e ∈ c.defsOfUse w loc) c (dropUses loc vs c).1 := by
  induction vs generalizing c with
  | nil => exact ⟨by simp [dropUses],rfl,rfl,rfl,by simp,fun _ _ _ => rfl⟩
  | cons v vs ih =>
    have next : (dropUses loc (v :: vs) c).1 = (dropUses loc vs
        { (dropUse v loc c (c.defsOfUse v loc)).1 with
          useDef := (dropUse v loc c (c.defsOfUse v loc)).1.useDef.erase (v,loc) }).1 := rfl
    obtain ⟨table,first⟩ := unlinkedDropUse v loc (c.defsOfUse v loc) c
    rw [next]
    generalize (dropUse v loc c (c.defsOfUse v loc)).1 = c₁ at table first ⊢
    obtain ⟨rest,second⟩ := ih { c₁ with useDef := c₁.useDef.erase (v,loc) }
    have left : ∀ w, Chains.defsOfUse { c₁ with useDef := c₁.useDef.erase (v,loc) } w loc =
        if w = v then [] else c.defsOfUse w loc := by
      intro w
      by_cases same : w = v <;> simp [Chains.defsOfUse,Table.getD,table,same]
    have between : Unlinked loc (fun w e => w = v ∧ e ∈ c.defsOfUse v loc) c
        { c₁ with useDef := c₁.useDef.erase (v,loc) } :=
      ⟨first.reaching,first.dropped,first.home,first.gone,first.kept⟩
    refine ⟨fun w u => ?_,between.trans second fun w e => ?_⟩
    · rw [rest]
      by_cases here : u = loc <;> by_cases same : w = v <;> simp [table,here,same]
    · rw [left,List.mem_cons]
      by_cases same : w = v
      · subst same
        simp
      · simp [same]

variable {a : Analysed} {p : Point} {s : Stmt} {v : VarId}

structure Removed (a : Analysed) (l : Loc) (v : VarId) (b : Analysed) : Prop where
  edited : Graph.Edited (Stmt.strike l) a.graph b.graph
  reaching : b.chains.reaching = a.chains.reaching
  dropped : b.chains.dropped = a.chains.dropped
  home : b.chains.home = a.chains.home.erase l
  useDef : ∀ w u, b.chains.useDef.get? (w,u) = if u = l then none else a.chains.useDef.get? (w,u)
  defUse : ∀ w e, b.chains.defUse.get? (w,e) =
    if (w,e) = (v,l) then none else (a.chains.defUse.get? (w,e)).map (Locs.erase l)

theorem Tied.removed (tied : a.Tied) (here : a.graph.StmtAt p s) (defines : s.def? = some v) :
    a.Removed s.loc v (a.removeStmt s.loc).1 := by
  have thins := a.thinsRemoveStmt s.loc
  have found : a.stmt? s.loc = some s := tied.toGrounded.stmt.mpr ⟨p,here,rfl⟩
  have listed := tied.placed p s here
  obtain ⟨table,unlinked⟩ := unlinkedDropUses s.loc s.uses a.chains
  have read : ∀ w, a.graph.Reads w s.loc → w ∈ s.uses := by
    rintro w ⟨q,t,there,loc,use⟩
    exact (there.unique tied.distinct here loc).2 ▸ use
  have erased : ∀ us, s.loc ∉ us → Locs.erase s.loc us = us := fun us absent =>
    List.filter_eq_self.mpr fun l member => by
      rw [bne_iff_ne]
      rintro rfl
      exact absent member
  unfold removeStmt at thins ⊢
  simp only [found,listed,defines] at thins ⊢
  refine ⟨?_,unlinked.reaching,unlinked.dropped,by rw [unlinked.home],fun w u => ?_,fun w e => ?_⟩
  · refine Graph.editedIn tied.distinct thins.graph here.1
      (List.mem_map.mpr ⟨s,List.mem_of_getElem? here.2,rfl⟩) ?_ (fun j other => ?_)
      (fun t other => if_neg other) (fun t r kept => ?_) fun t r w kept defines => ?_
    · have inside : p.node < a.graph.store.size := tied.wired.inStore p.node here.1
      rw [Graph.nodeModify,if_pos ⟨rfl,inside⟩,← List.filterMap_eq_filter]
      refine List.filterMap_congr fun t _ => ?_
      by_cases same : t.loc = s.loc <;> simp [Stmt.strike,same]
    · rw [Graph.nodeModify,if_neg (fun h => other h.1.symm)]
    · rw [(Stmt.strikeSome.mp kept).1]
    · exact (Stmt.strikeSome.mp kept).1 ▸ defines
  · rw [table]
    by_cases there : u = s.loc
    · subst there
      by_cases use : w ∈ s.uses
      · simp [use]
      · have none : a.chains.useDef.get? (w,s.loc) = none := by
          by_contra present
          refine use (read w ((tied.read w s.loc).mp ?_))
          simpa [Table.contains,Option.isSome_iff_ne_none] using present
        simp [use,none]
    · simp [there]
  · rw [Table.get?_erase]
    by_cases own : (w,e) = (v,s.loc)
    · simp [own]
    · rw [if_neg (by simpa using own),if_neg own]
      by_cases site : w ∈ s.uses ∧ e ∈ a.chains.defsOfUse w s.loc
      · exact unlinked.gone w e site
      · rw [unlinked.kept w e site]
        cases held : a.chains.defUse.get? (w,e) with
        | none => rfl
        | some us =>
          rw [Option.map_some,erased us]
          intro member
          have linked : e ∈ a.chains.defsOfUse w s.loc := (tied.agree w s.loc e).mp (by
            rw [Chains.uses,Table.getD,held]
            exact member)
          exact site ⟨read w (tied.linked linked).1,linked⟩

namespace Removed

variable {b : Analysed} {l : Loc} (removed : a.Removed l v b)

include removed

theorem defsOf (w : VarId) (u : Loc) :
    b.chains.defsOfUse w u = if u = l then [] else a.chains.defsOfUse w u := by
  rw [Chains.defsOfUse,Table.getD,removed.useDef]
  split <;> rfl

theorem usesOf (unused : a.chains.uses v l = []) (w : VarId) (e : Loc) :
    b.chains.uses w e = Locs.erase l (a.chains.uses w e) := by
  rw [Chains.uses,Table.getD,removed.defUse]
  split
  · rename_i same
    cases same
    rw [unused]
    rfl
  · rw [Chains.uses,Table.getD]
    cases a.chains.defUse.get? (w,e) <;> rfl

theorem back {q : Point} {t : Stmt} (there : b.graph.StmtAt q t) :
    ∃ q', a.graph.StmtAt q' t ∧ q'.node = q.node ∧ t.loc ≠ l := by
  obtain ⟨q',r,source,kept,rfl⟩ := removed.edited.stmtBack there
  obtain ⟨rfl,other⟩ := Stmt.strikeSome.mp kept
  exact ⟨q',source,rfl,other⟩

theorem reads (w : VarId) (u : Loc) : b.graph.Reads w u ↔ a.graph.Reads w u ∧ u ≠ l := by
  constructor
  · rintro ⟨q,t,there,rfl,use⟩
    obtain ⟨q',source,-,other⟩ := removed.back there
    exact ⟨⟨q',t,source,rfl,use⟩,other⟩
  · rintro ⟨⟨q,t,there,rfl,use⟩,other⟩
    exact ⟨_,t,removed.edited.stmtAt there (if_neg other),rfl,use⟩

theorem tied (tied : a.Tied) (homed : b.Homed) (here : a.graph.StmtAt p s) (loc : s.loc = l)
    (defines : s.def? = some v) (unused : a.chains.uses v l = []) :
    b.Tied ∧ (a.Exact → b.Exact) := by
  subst loc
  have only : ∀ t, t.loc ≠ s.loc → Stmt.strike s.loc t = some t := fun t other => if_neg other
  have definitions := tied.toGrounded.definesLeft removed.edited here defines only
    fun t kept => absurd rfl (Stmt.strikeSome.mp kept).2
  refine ⟨tied.rework removed.edited removed.reaching homed (fun q t there => ?_)
    (fun q t there gone => ?_) (fun w e => ?_) (fun w u => ?_) (fun w u e => ?_) (fun w e => ?_)
    (fun w u => ?_) (fun w u use => ?_) fun w u e linked => ?_,fun exact_ => ?_⟩
  · obtain ⟨q',source,node,other⟩ := removed.back there
    rw [removed.home,Table.get?_erase,if_neg (by simpa using other),tied.placed q' t source,node]
  · obtain ⟨q',source,-⟩ := removed.back there
    exact tied.plain q' t source (removed.dropped ▸ gone)
  · rw [definitions,← tied.defined,Table.contains,Table.contains,removed.defUse]
    split <;> simp_all
  · rw [removed.reads,← tied.read,Table.contains,Table.contains,removed.useDef]
    split <;> simp_all
  · rw [removed.usesOf unused,removed.defsOf,Locs.memErase,tied.agree]
    split <;> simp_all
  · rw [removed.usesOf unused]
    exact Locs.canonicalErase (tied.usesSorted w e)
  · rw [removed.defsOf]
    split
    · exact List.Pairwise.nil
    · exact tied.defsSorted w u
  · obtain ⟨use,other⟩ := (removed.reads w u).mp use
    rw [removed.defsOf,if_neg other]
    exact tied.served w u use
  · rw [removed.defsOf] at linked
    split at linked
    · contradiction
    · exact tied.links w u e linked
  · exact tied.exactLeft removed.edited here defines only unused
      (fun t r kept w use => (Stmt.strikeSome.mp kept).1 ▸ use)
      (fun w u use => by rw [removed.defsOf,if_neg ((removed.reads w u).mp use).2]) exact_

end Removed

theorem Tied.remove (tied : a.Tied) (here : a.graph.StmtAt p s) (defines : s.def? = some v)
    (unused : a.chains.uses v s.loc = []) : (a.removeStmt s.loc).1.Tied ∧
      (a.Exact → (a.removeStmt s.loc).1.Exact) :=
  (tied.removed here defines).tied tied ((a.thinsRemoveStmt s.loc).homed tied.homed) here rfl defines unused

structure Stripped (a : Analysed) (l : Loc) (v : VarId) (b : Analysed) : Prop where
  edited : Graph.Edited (Stmt.rewrite l Stmt.withoutResult) a.graph b.graph
  reaching : b.chains.reaching = a.chains.reaching
  dropped : b.chains.dropped = l :: a.chains.dropped
  home : b.chains.home = a.chains.home
  useDef : b.chains.useDef = a.chains.useDef
  defUse : ∀ w e, b.chains.defUse.get? (w,e) =
    if (w,e) = (v,l) then none else a.chains.defUse.get? (w,e)

theorem Grounded.stripped (grounded : a.Grounded) (here : a.graph.StmtAt p s) (v : VarId) :
    a.Stripped s.loc v (a.dropResult p.node v s.loc) := by
  refine ⟨?_,rfl,rfl,rfl,rfl,fun w e => ?_⟩
  · refine Graph.editedIn grounded.distinct (a.thinsDropResult p.node v s.loc).graph here.1
      (List.mem_map.mpr ⟨s,List.mem_of_getElem? here.2,rfl⟩) ?_ (fun j other => ?_)
      (fun t => Stmt.rewriteOther) (fun t r kept => ?_) fun t r w kept defines => ?_
    · have inside : p.node < a.graph.store.size := grounded.wired.inStore p.node here.1
      rw [Analysed.dropResult,Graph.nodeModify,if_pos ⟨rfl,inside⟩,Node.modifyStmt,
        ← List.filterMap_eq_map]
      refine List.filterMap_congr fun t _ => ?_
      simp [Stmt.rewrite]
    · rw [Analysed.dropResult,Graph.nodeModify,if_neg (fun h => other h.1.symm)]
    · cases Option.some.inj kept
      split <;> rfl
    · cases Option.some.inj kept
      split at defines
      · rw [Stmt.defWithoutResult] at defines
        contradiction
      · exact defines
  · rw [Analysed.dropResult,Table.get?_erase]
    by_cases same : (w,e) = (v,s.loc) <;> simp [same]

theorem Stripped.tied {b : Analysed} {l : Loc} (stripped : a.Stripped l v b) (tied : a.Tied)
    (homed : b.Homed) (here : a.graph.StmtAt p s) (loc : s.loc = l) (defines : s.def? = some v)
    (unused : a.chains.uses v l = []) : b.Tied ∧ (a.Exact → b.Exact) := by
  subst loc
  have edited := stripped.edited
  have only : ∀ t, t.loc ≠ s.loc → Stmt.rewrite s.loc Stmt.withoutResult t = some t :=
    fun t => Stmt.rewriteOther
  have definitions := tied.toGrounded.definesLeft edited here defines only fun t kept => by
    cases Option.some.inj kept
    rw [if_pos rfl,Stmt.defWithoutResult]
    simp
  have uses : ∀ t w, w ∈ (Stmt.withoutResult t).uses ↔ w ∈ t.uses := fun t w => by
    rw [show t.withoutResult.uses = t.uses from t.act.usesWithoutResult]
  have reads := readsRewrite edited uses
  have defsOf : ∀ w u, b.chains.defsOfUse w u = a.chains.defsOfUse w u := fun w u => by
    rw [Chains.defsOfUse,stripped.useDef]
    rfl
  have usesOf : ∀ w e, b.chains.uses w e = a.chains.uses w e := by
    intro w e
    rw [Chains.uses,Table.getD,stripped.defUse]
    split
    · rename_i same
      cases same
      exact unused.symm
    · rfl
  refine ⟨tied.rework edited stripped.reaching homed
    (fun _ _ => tied.toGrounded.placedRewrite edited stripped.home) (fun q t there gone => ?_)
    (fun w e => ?_) (fun w u => ?_) (fun w u e => ?_) (fun w e => ?_) (fun w u => ?_)
    (fun w u use => ?_) fun w u e linked => ?_,
    tied.exactLeft edited here defines only unused (fun t r kept w use => ?_) fun w u _ => defsOf w u⟩
  · obtain ⟨r,source,same⟩ := edited.rewriteAt.mp there
    rw [stripped.dropped,List.mem_cons] at gone
    split at same
    · rw [← same,Stmt.defWithoutResult]
    · rename_i other
      subst same
      exact tied.plain q r source (gone.resolve_left other)
  · rw [definitions,← tied.defined,Table.contains,Table.contains,stripped.defUse]
    split <;> simp_all
  · rw [reads,← tied.read,stripped.useDef]
  · rw [usesOf,defsOf,tied.agree]
  · rw [usesOf]
    exact tied.usesSorted w e
  · rw [defsOf]
    exact tied.defsSorted w u
  · rw [defsOf]
    exact tied.served w u ((reads w u).mp use)
  · rw [defsOf] at linked
    exact tied.links w u e linked
  · cases Option.some.inj kept
    split at use
    · exact (uses t w).mp use
    · exact use

theorem Tied.dropResult (tied : a.Tied) (here : a.graph.StmtAt p s) (defines : s.def? = some v)
    (unused : a.chains.uses v s.loc = []) : (a.dropResult p.node v s.loc).Tied ∧
      (a.Exact → (a.dropResult p.node v s.loc).Exact) :=
  (tied.toGrounded.stripped here v).tied tied ((a.thinsDropResult p.node v s.loc).homed tied.homed)
    here rfl defines unused

/-- Tables that fit go on to do so, and exact ones stay exact. -/
structure Keeps (a b : Analysed) : Prop where
  tied : a.Tied → b.Tied
  exact : a.Tied → a.Exact → b.Exact

theorem Keeps.refl (a : Analysed) : a.Keeps a := ⟨id,fun _ => id⟩

theorem Keeps.trans {a b c : Analysed} (first : a.Keeps b) (second : b.Keeps c) : a.Keeps c :=
  ⟨second.tied ∘ first.tied,fun tied fits => second.exact (first.tied tied) (first.exact tied fits)⟩

theorem keepsOf {a b : Analysed} (step : a.Tied → b.Tied ∧ (a.Exact → b.Exact)) : a.Keeps b :=
  ⟨fun tied => (step tied).1,fun tied => (step tied).2⟩

theorem keepsEliminateSite (a : Analysed) (site : Site) : a.Keeps (a.eliminateSite site).1 := by
  obtain ⟨v,l⟩ := site
  unfold eliminateSite
  dsimp only
  split
  · rename_i w value i assigns listed
    split
    · exact .refl a
    · rename_i fits
      simp only [ne_eq,not_or,not_not] at fits
      obtain ⟨rfl,unused⟩ := fits
      have place (tied : a.Tied) : ∃ p s, a.graph.StmtAt p s ∧ s.loc = l ∧ s.def? = some w ∧ p.node = i := by
        obtain ⟨p,s,b,here,rfl,act⟩ := tied.homed.assignment assigns
        refine ⟨p,s,here,rfl,by rw [Stmt.def?,act]; rfl,?_⟩
        exact Option.some.inj ((tied.placed p s here).symm.trans listed)
      have dropped : a.Keeps (a.dropResult i w l) := keepsOf fun tied => by
        obtain ⟨p,s,here,rfl,defines,rfl⟩ := place tied
        exact tied.dropResult here defines unused
      have removed : a.Keeps (a.removeStmt l).1 := keepsOf fun tied => by
        obtain ⟨p,s,here,rfl,defines,-⟩ := place tied
        exact tied.remove here defines unused
      split
      · split
        · exact dropped
        · exact .refl a
      · split
        · exact .refl a
        · exact removed
  · exact .refl a

theorem keepsEliminateDeadCode (a : Analysed) : a.Keeps a.eliminateDeadCode.1 := by
  suffices run : ∀ (fuel : Nat) (a : Analysed) (work : List Site) (removed : Nat),
      a.Keeps (eliminateFrom fuel a work removed).1 from run _ a _ 0
  intro fuel
  induction fuel with
  | zero => exact fun a _ _ => .refl a
  | succ fuel ih =>
    intro a work removed
    cases work with
    | nil => exact .refl a
    | cons site work => exact (a.keepsEliminateSite site).trans (ih ..)

end Analysed

end RegCode
