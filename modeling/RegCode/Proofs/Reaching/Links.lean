import RegCode.Proofs.Reaching.Exact
import Mathlib.Tactic.Linarith

/-! The passes come to rest within their bound, and the sets at rest are exact. -/
namespace RegCode.Reaching

open Classical in
noncomputable def facts (g : Graph) : Finset (Part × NodeId × Site) :=
  {Part.start,.finish,.handler} ×ˢ g.rpo.toFinset ×ˢ g.defSites.toFinset

open Classical in
noncomputable def weight (g : Graph) (s : State) : Nat :=
  ((facts g).filter fun f => f.2.2.2 ∈ (s.part g f.1 f.2.1).get f.2.2.1).card

variable {g : Graph} {s t : State}

theorem Part.meansSite {q : Part} {i : NodeId} {v : VarId} {d : Loc} (h : q.Means g i v d) :
    (v,d) ∈ g.defSites := by
  cases q with
  | start => obtain ⟨p,defined,-⟩ := h; exact defined.site
  | finish => obtain ⟨p,defined,-⟩ := h; exact defined.site
  | handler => obtain ⟨k,p,defined,-⟩ := h; exact defined.site

theorem memFacts (sound : Sound g s) {q : Part} {i : NodeId} {v : VarId} {d : Loc}
    (h : d ∈ (s.part g q i).get v) : (q,i,v,d) ∈ facts g := by
  classical
  obtain ⟨member,means⟩ := sound q i v d h
  have site := Part.meansSite means
  cases q <;> simp [facts,member,site]

theorem weightLe (g : Graph) (s : State) : weight g s < passBound g := by
  classical
  have parts : ({Part.start,.finish,.handler} : Finset Part).card ≤ 3 := Finset.card_le_three
  have nodes : g.rpo.toFinset.card ≤ g.rpo.length := List.toFinset_card_le _
  have sites : g.defSites.toFinset.card ≤ stmtCount g + g.params.length :=
    (List.toFinset_card_le _).trans g.defSitesLength
  have all : (facts g).card ≤ 3 * (g.rpo.length * (stmtCount g + g.params.length)) := by
    rw [facts,Finset.card_product,Finset.card_product]
    exact Nat.mul_le_mul parts (Nat.mul_le_mul nodes sites)
  have some_ : weight g s ≤ (facts g).card := Finset.card_filter_le _ _
  unfold passBound
  nlinarith

theorem weightLt (left : Fair g s) (right : Fair g t) (le : s.Le g t) (other : t ≠ s) :
    weight g s < weight g t := by
  classical
  have beyond : ¬t.Le g s := fun back =>
    other (State.leAntisymm right.kept.shaped left.kept.shaped back le)
  simp only [State.Le,not_forall] at beyond
  obtain ⟨q,i,beyond⟩ := beyond
  have ⟨v,d,inT,notS⟩ : ∃ v d, d ∈ (t.part g q i).get v ∧ d ∉ (s.part g q i).get v := by
    by_contra none
    push Not at none
    exact beyond fun v d h => none v d h
  refine Finset.card_lt_card (Finset.ssubset_iff_subset_ne.mpr ⟨fun f h => ?_,fun same => ?_⟩)
  · rw [Finset.mem_filter] at h ⊢
    exact ⟨h.1,le _ _ _ _ h.2⟩
  · have held : (q,i,v,d) ∈ (facts g).filter
        fun f => f.2.2.2 ∈ (t.part g f.1 f.2.1).get f.2.2.1 :=
      Finset.mem_filter.mpr ⟨memFacts right.sound inT,inT⟩
    rw [← same,Finset.mem_filter] at held
    exact notS held.2

theorem fairPass (wired : g.Wired) (fair : Fair g s) :
    Fair g (pass g g.vars.size s) ∧ s.Le g (pass g g.vars.size s) :=
  fairFold wired g.rpo (fun _ h => h) fair

theorem passesRest (wired : g.Wired) (fuel : Nat) (fair : Fair g s)
    (room : passBound g ≤ weight g s + fuel) :
    pass g g.vars.size (passes g g.vars.size fuel s) = passes g g.vars.size fuel s ∧
      Fair g (passes g g.vars.size fuel s) ∧ s.Le g (passes g g.vars.size fuel s) := by
  induction fuel generalizing s with
  | zero => have := weightLe g s; omega
  | succ fuel ih =>
    obtain ⟨next,le⟩ := fairPass wired fair
    simp only [passes]
    split
    · rename_i same
      exact ⟨same,fair,fun _ _ => DefSet.leRefl _⟩
    · rename_i other
      have more := weightLt fair next le other
      obtain ⟨rest,fair',le'⟩ := ih next (by omega)
      exact ⟨rest,fair',State.leTrans le le'⟩

theorem atReplicate {n size : Nat} {i : NodeId} :
    at? (Array.replicate n (DefSet.empty size)) size i = DefSet.empty size := by
  simp only [at?,Array.getElem?_replicate]
  split <;> rfl

theorem paramSets (params : List VarId) (size : Nat) (x : DefSet) (shaped : x.Shaped size)
    (inside : ∀ v ∈ params, v < size) (only : ∀ v, ∀ d ∈ x.get v, d = paramLoc) :
    (params.foldl (fun s p => s.set p [paramLoc]) x).Shaped size ∧
      ∀ v d, d ∈ (params.foldl (fun s p => s.set p [paramLoc]) x).get v ↔
        d ∈ x.get v ∨ (v ∈ params ∧ d = paramLoc) := by
  induction params generalizing x with
  | nil => exact ⟨shaped,by simp⟩
  | cons p ps ih =>
    have room : p < x.defs.size := shaped.size ▸ inside p (List.mem_cons_self ..)
    have here : ∀ v d, d ∈ (x.set p [paramLoc]).get v ↔ d ∈ x.get v ∨ (v = p ∧ d = paramLoc) := by
      intro v d
      rw [DefSet.getSet room]
      split
      · rename_i same
        subst same
        simpa using only v d
      · rename_i other; simp [other]
    obtain ⟨shape,mem⟩ := ih (x.set p [paramLoc])
      (DefSet.shapedSet shaped (by simp [Locs.Canonical]))
      (fun v h => inside v (List.mem_cons_of_mem _ h))
      (fun v d h => ((here v d).mp h).elim (only v d) And.right)
    refine ⟨shape,fun v d => ?_⟩
    rw [List.foldl_cons,mem,here,List.mem_cons]
    tauto

theorem initialParts (wired : g.Wired) :
    (initial g).Shaped g ∧ ∀ q i v d, d ∈ ((initial g).part g q i).get v ↔
      q = .start ∧ g.entry = some i ∧ v ∈ g.params ∧ d = paramLoc := by
  obtain ⟨shape,mem⟩ := paramSets g.params g.vars.size (DefSet.empty g.vars.size)
    (DefSet.shapedEmpty _) wired.params (by simp)
  have starts : ∀ i, (initial g).part g .start i = if g.entry = some i then
      g.params.foldl (fun s p => s.set p [paramLoc]) (DefSet.empty g.vars.size)
      else DefSet.empty g.vars.size := by
    intro i
    simp only [State.part,initial]
    cases entry : g.entry with
    | none => simpa using atReplicate
    | some e =>
      have inside := wired.inStore e (wired.entry e entry)
      have room : e < (Array.replicate g.store.size (DefSet.empty g.vars.size)).size := by
        rwa [Array.size_replicate]
      rw [atSet room,atReplicate]
      by_cases h : i = e
      · subst h; simp
      · simp [h,Ne.symm h]
  refine ⟨⟨?_,by simp [initial],by simp [initial],fun q i => ?_⟩,fun q i v d => ?_⟩
  · simp only [initial]; split <;> simp
  · cases q with
    | start =>
      rw [starts]
      split
      · exact shape
      · exact DefSet.shapedEmpty _
    | finish => simpa [State.part,initial,atReplicate] using DefSet.shapedEmpty _
    | handler => simpa [State.part,initial,atReplicate] using DefSet.shapedEmpty _
  · cases q with
    | start =>
      rw [starts]
      split
      · rename_i h; simp [mem,h]
      · rename_i h; simp [h]
    | finish => simp [State.part,initial,atReplicate]
    | handler => simp [State.part,initial,atReplicate]

theorem fairInitial (wired : g.Wired) : Fair g (initial g) := by
  obtain ⟨shaped,mem⟩ := initialParts wired
  refine ⟨⟨shaped,fun i v d h => ?_,fun i v d h => ?_⟩,fun q i v d h => ?_⟩
  · exact absurd ((mem _ _ _ _).mp h).1 (by simp)
  · exact absurd ((mem _ _ _ _).mp h).1 (by simp)
  · obtain ⟨rfl,entry,member,rfl⟩ := (mem q i v d).mp h
    exact ⟨wired.entry i entry,_,.param member entry,.stay⟩

theorem solutionRest (wired : g.Wired) :
    pass g g.vars.size (solution g) = solution g ∧ Fair g (solution g) ∧
      (initial g).Le g (solution g) :=
  passesRest wired (passBound g) (fairInitial wired) (by omega)

def before (g : Graph) (p : Point) : DefSet :=
  ((g.node p.node).stmts.take p.index).foldl DefSet.after
    (at? (solve g) g.vars.size p.node)

theorem solutionPart (wired : g.Wired) {i : NodeId} (member : i ∈ g.rpo) (q : Part) :
    (solution g).part g q i = passed g (solution g) i q := by
  obtain ⟨rest,fair,-⟩ := solutionRest wired
  have := partPassNode fair.kept.shaped (wired.inStore i member) q i
  rwa [fixedFold wired g.rpo (fun _ h => h) fair rest i member,if_pos rfl] at this

theorem memBeforeNext (wired : g.Wired) {i : NodeId} {k : Nat} {s : Stmt}
    (here : g.StmtAt ⟨i,k⟩ s) {w : VarId} {e : Loc} :
    e ∈ (before g ⟨i,k + 1⟩).get w ↔ (s.def? = some w ∧ e = s.loc) ∨
      (s.def? ≠ some w ∧ e ∈ (before g ⟨i,k⟩).get w) := by
  obtain ⟨short,same⟩ := List.getElem?_eq_some_iff.mp here.2
  have shaped := (solutionRest wired).2.1.kept.shaped
  have front := DefSet.shapedFoldAfter (shaped.parts .start i) ((g.node i).stmts.take k)
  have inside := boundedOfWired wired here.1 s (List.mem_of_getElem? here.2)
  have split : before g ⟨i,k + 1⟩ = (before g ⟨i,k⟩).after s := by
    simp only [before]
    rw [← List.take_concat_get' _ _ short,List.foldl_append,List.foldl_cons,List.foldl_nil,same]
  rw [split]
  exact DefSet.memAfter fun x h => Nat.lt_of_lt_of_eq (inside x h) front.size.symm

theorem memStartOfEdge (wired : g.Wired) {i j : NodeId} (member : i ∈ g.rpo)
    (out : j ∈ (g.node i).succs) {v : VarId} {d : Loc}
    (h : d ∈ (before g ⟨i,(g.node i).stmts.length⟩).get v) : d ∈ (before g ⟨j,0⟩).get v := by
  have shaped := (solutionRest wired).2.1.kept.shaped
  obtain ⟨target,listed⟩ := wired.succs i member j out
  have finish : d ∈ ((solution g).part g .finish i).get v := by
    simp only [before,List.take_length] at h
    rw [solutionPart wired member .finish,passed,← passed.eq_1,← solutionPart wired member .start]
    exact h
  have incoming : d ∈ (joined g (solution g) j).get v :=
    (memJoined shaped).mpr (.inr (.inl ⟨i,listed,finish⟩))
  rwa [← passed.eq_1,← solutionPart wired target .start] at incoming

theorem memStartOfRaise (wired : g.Wired) {i j : NodeId} {k : Nat} (member : i ∈ g.rpo)
    (short : k ≤ (g.node i).stmts.length) (out : j ∈ (g.node i).catchSuccs) {v : VarId} {d : Loc}
    (h : d ∈ (before g ⟨i,k⟩).get v) : d ∈ (before g ⟨j,0⟩).get v := by
  have shaped := (solutionRest wired).2.1.kept.shaped
  obtain ⟨target,listed⟩ := wired.catchSuccs i member j out
  have handler : d ∈ ((solution g).part g .handler i).get v := by
    have guarded : ¬(g.node i).catchSuccs.isEmpty = true := fun none => by
      rw [List.isEmpty_iff.mp none] at out
      contradiction
    rw [solutionPart wired member .handler,passed,if_neg guarded,← passed.eq_1,
      ← solutionPart wired member .start,
      DefSet.memFoldDuring (shaped.parts .start i) (boundedOfWired wired member)]
    exact ⟨k,short,h⟩
  have incoming : d ∈ (joined g (solution g) j).get v :=
    (memJoined shaped).mpr (.inr (.inr ⟨i,listed,handler⟩))
  rwa [← passed.eq_1,← solutionPart wired target .start] at incoming

theorem memBeforeOfPath (wired : g.Wired) {v : VarId} {d : Loc} {p q : Point}
    (defined : g.DefinedAt v d p) (way : g.Path (fun s => s.def? ≠ some v) p q) :
    d ∈ (before g q).get v := by
  obtain ⟨start,first⟩ := defined.inNode wired
  induction way with
  | stay =>
    cases defined with
    | stmt here defines => exact (memBeforeNext wired here).mpr (.inl ⟨defines,rfl⟩)
    | @param e member entry =>
      exact (solutionRest wired).2.2 .start e v paramLoc
        (((initialParts wired).2 .start e v paramLoc).mpr ⟨rfl,entry,member,rfl⟩)
  | next way here pass ih =>
    exact (memBeforeNext wired ⟨way.inRpo wired start,here⟩).mpr (.inr ⟨pass,ih⟩)
  | edge way out ih => exact memStartOfEdge wired (way.inRpo wired start) out ih
  | raise way out ih =>
    exact memStartOfRaise wired (way.inRpo wired start) (way.index first) out ih

theorem memBefore (wired : g.Wired) {p : Point} (member : p.node ∈ g.rpo)
    (short : p.index ≤ (g.node p.node).stmts.length) {v : VarId} {d : Loc} :
    d ∈ (before g p).get v ↔ g.Reaches v d p := by
  obtain ⟨-,fair,-⟩ := solutionRest wired
  constructor
  · exact prefixSound wired member (fair.kept.shaped.parts .start p.node)
      (fun w e h => (fair.sound .start p.node w e h).2) p.index short
  · rintro ⟨q,defined,way⟩
    exact memBeforeOfPath wired defined way

end RegCode.Reaching

/-! Links between definitions and uses, made statement by statement from the sets that reach each:
every use is linked to its whole set, in both directions, and a use that nothing reaches is the
only fault. -/
namespace RegCode.Chains

def Mutual (c : Chains) : Prop := ∀ v u d, u ∈ c.uses v d ↔ d ∈ c.defsOfUse v u

theorem getDInsert {κ ν : Type} [BEq κ] [LawfulBEq κ] [DecidableEq κ] (t : Table κ ν) (k j : κ)
    (x d : ν) : (t.insert k x).getD j d = if j = k then x else t.getD j d := by
  by_cases h : j = k <;> simp [Table.getD,h]

theorem usesAddUse (c : Chains) (v w : VarId) (use d e : Loc) :
    (c.addUse v use d).uses w e =
      if (w,e) = (v,d) then Locs.insert use (c.uses v d) else c.uses w e :=
  getDInsert _ _ _ _ _

theorem usesAddDef (c : Chains) (v w : VarId) (d e : Loc) : (c.addDef v d).uses w e = c.uses w e := by
  unfold addDef
  split
  · rfl
  · rename_i absent
    have none : c.defUse.get? (v,d) = none := by simpa [Table.contains] using absent
    rw [uses,uses,getDInsert]
    split
    · rename_i same; simp [same,Table.getD,none]
    · rfl

@[simp] theorem addDefFields (c : Chains) (v : VarId) (d : Loc) :
    (c.addDef v d).useDef = c.useDef ∧ (c.addDef v d).home = c.home ∧
      (c.addDef v d).reaching = c.reaching ∧ (c.addDef v d).dropped = c.dropped := by
  unfold addDef; split <;> simp

theorem mutualAddDef {c : Chains} (agree : c.Mutual) (v : VarId) (d : Loc) :
    (c.addDef v d).Mutual := fun w u e => by
  rw [usesAddDef,agree w u e,defsOfUse,defsOfUse,(addDefFields c v d).1]

theorem foldAddUse (v : VarId) (use : Loc) (ds : List Loc) (c : Chains) :
    (ds.foldl (fun c d => c.addUse v use d) c).useDef = c.useDef ∧
      (ds.foldl (fun c d => c.addUse v use d) c).home = c.home ∧
      (ds.foldl (fun c d => c.addUse v use d) c).reaching = c.reaching ∧
      (ds.foldl (fun c d => c.addUse v use d) c).dropped = c.dropped ∧
      ∀ w u e, u ∈ (ds.foldl (fun c d => c.addUse v use d) c).uses w e ↔
        u ∈ c.uses w e ∨ (w = v ∧ u = use ∧ e ∈ ds) := by
  induction ds generalizing c with
  | nil => simp
  | cons d ds ih =>
    obtain ⟨a,b,r,s,links⟩ := ih (c.addUse v use d)
    refine ⟨a,b,r,s,fun w u e => ?_⟩
    rw [List.foldl_cons,links,usesAddUse]
    split
    · rename_i same
      cases same
      simp only [Locs.memInsert,List.mem_cons]
      tauto
    · rename_i other
      simp only [Prod.mk.injEq] at other
      simp only [List.mem_cons]
      tauto

structure UsesLinked (loc : Loc) (cur : DefSet) (vs : List VarId) (c c' : Chains) : Prop where
  agree : c.Mutual → c'.Mutual
  home : c'.home = c.home
  reaching : c'.reaching = c.reaching
  dropped : c'.dropped = c.dropped
  useDef : ∀ w u, c'.useDef.get? (w,u) =
    if u = loc ∧ w ∈ vs ∧ c.useDef.get? (w,u) = none then some (cur.get w)
    else c.useDef.get? (w,u)

theorem linkUse (loc : Loc) (cur : DefSet) (v : VarId) (c : Chains)
    (absent : c.useDef.get? (v,loc) = none) :
    UsesLinked loc cur [v] c ((cur.get v).foldl (fun c d => c.addUse v loc d)
      { c with useDef := c.useDef.insert (v,loc) (cur.get v) }) := by
  obtain ⟨table,home,reaching,dropped,links⟩ := foldAddUse v loc (cur.get v)
    { c with useDef := c.useDef.insert (v,loc) (cur.get v) }
  refine ⟨fun agree w u d => ?_,home,reaching,dropped,fun w u => ?_⟩
  · rw [links,defsOfUse,table,getDInsert]
    have old : u ∈ uses { c with useDef := c.useDef.insert (v,loc) (cur.get v) } w d ↔
        d ∈ c.defsOfUse w u := agree w u d
    rw [old]
    split
    · rename_i same
      cases same
      simp [defsOfUse,Table.getD,absent]
    · rename_i other
      simp only [Prod.mk.injEq] at other
      simp only [defsOfUse,or_iff_left_iff_imp]
      rintro ⟨rfl,rfl,-⟩
      exact absurd ⟨rfl,rfl⟩ other
  · rw [table,Table.get?_insert]
    by_cases same : (w,u) = (v,loc)
    · cases same; simp [absent]
    · simp only [Prod.mk.injEq] at same
      have other : ¬(u = loc ∧ w ∈ [v] ∧ c.useDef.get? (w,u) = none) := by
        rintro ⟨rfl,member,-⟩
        exact same ⟨List.mem_singleton.mp member,rfl⟩
      rw [if_neg other]
      simp [same]

theorem UsesLinked.trans {loc : Loc} {cur : DefSet} {v : VarId} {vs : List VarId}
    {c c₁ c₂ : Chains} (first : UsesLinked loc cur [v] c c₁) (second : UsesLinked loc cur vs c₁ c₂) :
    UsesLinked loc cur (v :: vs) c c₂ := by
  refine ⟨fun h => second.agree (first.agree h),second.home.trans first.home,
    second.reaching.trans first.reaching,second.dropped.trans first.dropped,fun w u => ?_⟩
  rw [second.useDef,first.useDef]
  by_cases here : u = loc
  · by_cases same : w = v
    · subst same
      by_cases old : c.useDef.get? (w,u) = none <;> simp_all
    · simp [here,same]
  · simp [here]

theorem linkUsesOk (loc : Loc) (cur : DefSet) (vs : List VarId) (c : Chains) :
    (∃ c', linkUses loc cur vs c = .ok c' ∧ UsesLinked loc cur vs c c') ∧
        (∀ v ∈ vs, c.useDef.get? (v,loc) = none → cur.get v ≠ []) ∨
      (∃ f, linkUses loc cur vs c = .error f) ∧
        ∃ v ∈ vs, c.useDef.get? (v,loc) = none ∧ cur.get v = [] := by
  induction vs generalizing c with
  | nil => exact .inl ⟨⟨c,rfl,⟨id,rfl,rfl,rfl,by simp⟩⟩,by simp⟩
  | cons v vs ih =>
    simp only [linkUses]
    split
    · rename_i known
      have present : c.useDef.get? (v,loc) ≠ none := by
        simpa [Table.contains,Option.isSome_iff_ne_none] using known
      rcases ih c with ⟨⟨c',ok,linked⟩,full⟩ | ⟨fault,w,member,absent,empty⟩
      · refine .inl ⟨⟨c',ok,linked.agree,linked.home,linked.reaching,linked.dropped,
          fun w u => ?_⟩,fun w member absent => ?_⟩
        · rw [linked.useDef]
          by_cases same : w = v ∧ u = loc
          · obtain ⟨rfl,rfl⟩ := same; simp [present]
          · have : (u = loc ∧ w ∈ v :: vs ∧ c.useDef.get? (w,u) = none) ↔
                (u = loc ∧ w ∈ vs ∧ c.useDef.get? (w,u) = none) := by
              simp only [List.mem_cons]; tauto
            simp only [this]
        · rcases List.mem_cons.mp member with rfl | member
          · exact absurd absent present
          · exact full w member absent
      · exact .inr ⟨fault,w,List.mem_cons_of_mem _ member,absent,empty⟩
    · rename_i unknown
      have absent : c.useDef.get? (v,loc) = none := by
        simpa [Table.contains] using unknown
      split
      · rename_i empty
        exact .inr ⟨⟨_,rfl⟩,v,List.mem_cons_self ..,absent,empty⟩
      · rename_i filled
        have first := linkUse loc cur v c absent
        have still : ∀ w, ((cur.get v).foldl (fun (c : Chains) d => c.addUse v loc d)
            { c with useDef := c.useDef.insert (v,loc) (cur.get v) }).useDef.get? (w,loc) = none ↔
              w ≠ v ∧ c.useDef.get? (w,loc) = none := by
          intro w
          rw [first.useDef]
          by_cases same : w = v <;> simp [same,absent]
        rcases ih ((cur.get v).foldl (fun (c : Chains) d => c.addUse v loc d)
          { c with useDef := c.useDef.insert (v,loc) (cur.get v) }) with
          ⟨⟨c',ok,linked⟩,full⟩ | ⟨fault,w,member,gone,empty⟩
        · refine .inl ⟨⟨c',ok,first.trans linked⟩,fun w member none => ?_⟩
          by_cases same : w = v
          · subst same; exact filled
          · rcases List.mem_cons.mp member with rfl | member
            · exact absurd rfl same
            · exact full w member ((still w).mpr ⟨same,none⟩)
        · exact .inr ⟨fault,w,List.mem_cons_of_mem _ member,((still w).mp gone).2,empty⟩

def Served (ss : List Stmt) (cur : DefSet) : Prop :=
  ∀ (k : Nat) (s : Stmt), ss[k]? = some s → ∀ v ∈ s.uses,
    ((ss.take k).foldl DefSet.after cur).get v ≠ []

theorem servedCons {s : Stmt} {ss : List Stmt} {cur : DefSet} :
    Served (s :: ss) cur ↔ (∀ v ∈ s.uses, cur.get v ≠ []) ∧ Served ss (cur.after s) := by
  constructor
  · intro h
    exact ⟨fun v => h 0 s rfl v,fun k t here v => h (k + 1) t here v⟩
  · rintro ⟨head,tail⟩ k t here v
    cases k with
    | zero => cases here; exact head v
    | succ k => exact tail k t here v

structure StmtsLinked (node : NodeId) (ss : List Stmt) (cur : DefSet) (c c' : Chains) : Prop where
  agree : c.Mutual → c'.Mutual
  reaching : c'.reaching = c.reaching
  dropped : c'.dropped = c.dropped
  useDef : ∀ (k : Nat) (s : Stmt), ss[k]? = some s → ∀ w, c'.useDef.get? (w,s.loc) =
    if w ∈ s.uses then some (((ss.take k).foldl DefSet.after cur).get w) else none
  home : ∀ s ∈ ss, c'.home.get? s.loc = some node
  others : ∀ u ∉ ss.map (·.loc),
    (∀ w, c'.useDef.get? (w,u) = c.useDef.get? (w,u)) ∧ c'.home.get? u = c.home.get? u

theorem linkStmt {node : NodeId} {s : Stmt} {cur : DefSet} {c c₁ : Chains}
    (linked : UsesLinked s.loc cur s.uses { c with home := c.home.insert s.loc node } c₁)
    (fresh : ∀ w, c.useDef.get? (w,s.loc) = none) :
    StmtsLinked node [s] cur c (match s.def? with
      | some v => c₁.addDef v s.loc
      | none => c₁) := by
  have before : StmtsLinked node [s] cur c c₁ := by
    refine ⟨fun h => linked.agree h,linked.reaching,linked.dropped,?_,?_,?_⟩
    · intro k t here w
      cases k with
      | zero => cases here; rw [linked.useDef]; simp [fresh]
      | succ k => simp at here
    · intro t member
      cases List.mem_singleton.mp member
      rw [linked.home]; simp
    · intro u other
      simp only [List.map_cons,List.map_nil,List.mem_singleton] at other
      refine ⟨fun w => ?_,?_⟩
      · rw [linked.useDef,if_neg (fun h => other h.1)]
      · rw [linked.home]; simp [other]
  split
  · rename_i v defines
    obtain ⟨table,home,reaching,dropped⟩ := addDefFields c₁ v s.loc
    exact ⟨fun h => mutualAddDef (before.agree h) v s.loc,reaching.trans before.reaching,
      dropped.trans before.dropped,table ▸ before.useDef,home ▸ before.home,
      table ▸ home ▸ before.others⟩
  · exact before

theorem StmtsLinked.cons {node : NodeId} {s : Stmt} {ss : List Stmt} {cur : DefSet}
    {c c₁ c₂ : Chains} (first : StmtsLinked node [s] cur c c₁)
    (rest : StmtsLinked node ss (cur.after s) c₁ c₂) (apart : s.loc ∉ ss.map (·.loc)) :
    StmtsLinked node (s :: ss) cur c c₂ := by
  refine ⟨fun h => rest.agree (first.agree h),rest.reaching.trans first.reaching,
    rest.dropped.trans first.dropped,?_,?_,?_⟩
  · intro k t here w
    cases k with
    | zero =>
      cases here
      rw [(rest.others _ apart).1]
      exact first.useDef 0 s rfl w
    | succ k => exact rest.useDef k t here w
  · intro t member
    rcases List.mem_cons.mp member with rfl | member
    · rw [(rest.others _ apart).2]
      exact first.home t (List.mem_singleton_self t)
    · exact rest.home t member
  · intro u other
    rw [List.map_cons,List.mem_cons,not_or] at other
    obtain ⟨table,home⟩ := first.others u (by simpa using other.1)
    obtain ⟨table',home'⟩ := rest.others u other.2
    exact ⟨fun w => (table' w).trans (table w),home'.trans home⟩

theorem linkStmtsOk (node : NodeId) (ss : List Stmt) (cur : DefSet) (c : Chains)
    (distinct : (ss.map (·.loc)).Nodup) (fresh : ∀ s ∈ ss, ∀ w, c.useDef.get? (w,s.loc) = none) :
    (∃ c', linkStmts node ss cur c = .ok c' ∧ StmtsLinked node ss cur c c') ∧ Served ss cur ∨
      (∃ f, linkStmts node ss cur c = .error f) ∧ ¬Served ss cur := by
  induction ss generalizing cur c with
  | nil =>
    exact .inl ⟨⟨c,rfl,⟨id,rfl,rfl,by simp,by simp,fun _ _ => ⟨fun _ => rfl,rfl⟩⟩⟩,
      fun k s here => by simp at here⟩
  | cons s ss ih =>
    obtain ⟨apart,distinct⟩ := List.nodup_cons.mp distinct
    have freshHead := fresh s (List.mem_cons_self ..)
    rw [servedCons]
    rcases linkUsesOk s.loc cur s.uses
      { c with home := c.home.insert s.loc node } with ⟨⟨c₁,ok,linked⟩,full⟩ | ⟨⟨f,fault⟩,v,member,-,empty⟩
    · have first := linkStmt linked freshHead
      have freshTail : ∀ t ∈ ss, ∀ w, (match s.def? with
          | some v => c₁.addDef v s.loc
          | none => c₁).useDef.get? (w,t.loc) = none := by
        intro t member w
        have other : t.loc ∉ [s].map (·.loc) := fun h => by
          rw [List.map_cons,List.map_nil,List.mem_singleton] at h
          exact apart (List.mem_map.mpr ⟨t,member,h⟩)
        rw [(first.others _ other).1]
        exact fresh t (List.mem_cons_of_mem _ member) w
      have head : ∀ v ∈ s.uses, cur.get v ≠ [] := fun v member => full v member (freshHead v)
      simp only [linkStmts,ok,bind,Except.bind]
      rcases ih (cur.after s) _ distinct freshTail with ⟨⟨c₂,ok₂,linked₂⟩,served⟩ | ⟨fault,unserved⟩
      · exact .inl ⟨⟨c₂,ok₂,first.cons linked₂ apart⟩,head,served⟩
      · exact .inr ⟨fault,fun h => unserved h.2⟩
    · refine .inr ⟨⟨f,?_⟩,fun h => h.1 v member empty⟩
      simp only [linkStmts,fault,bind,Except.bind]

structure NodesLinked (g : Graph) (is : List NodeId) (c c' : Chains) : Prop where
  agree : c.Mutual → c'.Mutual
  reaching : c'.reaching = c.reaching
  dropped : c'.dropped = c.dropped
  useDef : ∀ i ∈ is, ∀ (k : Nat) (s : Stmt), (g.node i).stmts[k]? = some s →
    ∀ w, c'.useDef.get? (w,s.loc) = if w ∈ s.uses then
      some ((((g.node i).stmts.take k).foldl DefSet.after
        (Reaching.at? c.reaching g.vars.size i)).get w) else none
  home : ∀ i ∈ is, ∀ s ∈ (g.node i).stmts, c'.home.get? s.loc = some i
  others : ∀ u ∉ is.flatMap fun i => (g.node i).stmts.map (·.loc),
    (∀ w, c'.useDef.get? (w,u) = c.useDef.get? (w,u)) ∧ c'.home.get? u = c.home.get? u

theorem NodesLinked.cons {g : Graph} {i : NodeId} {is : List NodeId} {c c₁ c₂ : Chains}
    (first : StmtsLinked i (g.node i).stmts (Reaching.at? c.reaching g.vars.size i) c c₁)
    (rest : NodesLinked g is c₁ c₂)
    (apart : ((g.node i).stmts.map (·.loc)).Disjoint
      (is.flatMap fun i => (g.node i).stmts.map (·.loc))) :
    NodesLinked g (i :: is) c c₂ := by
  have kept : ∀ s ∈ (g.node i).stmts, (∀ w, c₂.useDef.get? (w,s.loc) = c₁.useDef.get? (w,s.loc)) ∧
      c₂.home.get? s.loc = c₁.home.get? s.loc := fun s member =>
    rest.others s.loc fun h => apart (List.mem_map.mpr ⟨s,member,rfl⟩) h
  refine ⟨fun h => rest.agree (first.agree h),rest.reaching.trans first.reaching,
    rest.dropped.trans first.dropped,?_,?_,?_⟩
  · intro j member k s here w
    rcases List.mem_cons.mp member with rfl | member
    · rw [(kept s (List.mem_of_getElem? here)).1]
      exact first.useDef k s here w
    · rw [rest.useDef j member k s here w,first.reaching]
  · intro j member s here
    rcases List.mem_cons.mp member with rfl | member
    · rw [(kept s here).2]
      exact first.home s here
    · exact rest.home j member s here
  · intro u other
    rw [List.flatMap_cons,List.mem_append,not_or] at other
    obtain ⟨table,home⟩ := first.others u other.1
    obtain ⟨table',home'⟩ := rest.others u other.2
    exact ⟨fun w => (table' w).trans (table w),home'.trans home⟩

theorem linkNodesOk (g : Graph) (is : List NodeId) (c : Chains)
    (distinct : (is.flatMap fun i => (g.node i).stmts.map (·.loc)).Nodup)
    (fresh : ∀ i ∈ is, ∀ s ∈ (g.node i).stmts, ∀ w, c.useDef.get? (w,s.loc) = none) :
    (∃ c', linkNodes g is c = .ok c' ∧ NodesLinked g is c c') ∧
        (∀ i ∈ is, Served (g.node i).stmts (Reaching.at? c.reaching g.vars.size i)) ∨
      (∃ f, linkNodes g is c = .error f) ∧
        ¬∀ i ∈ is, Served (g.node i).stmts (Reaching.at? c.reaching g.vars.size i) := by
  induction is generalizing c with
  | nil =>
    exact .inl ⟨⟨c,rfl,⟨id,rfl,rfl,by simp,by simp,fun _ _ => ⟨fun _ => rfl,rfl⟩⟩⟩,by simp⟩
  | cons i is ih =>
    rw [List.flatMap_cons] at distinct
    obtain ⟨distinctHead,distinctTail,apart⟩ := List.nodup_append'.mp distinct
    rw [List.forall_mem_cons]
    rcases linkStmtsOk i (g.node i).stmts (Reaching.at? c.reaching g.vars.size i) c distinctHead
      (fresh i (List.mem_cons_self ..)) with ⟨⟨c₁,ok,first⟩,head⟩ | ⟨⟨f,fault⟩,unserved⟩
    · have freshTail : ∀ j ∈ is, ∀ s ∈ (g.node j).stmts, ∀ w, c₁.useDef.get? (w,s.loc) = none := by
        intro j member s here w
        have other : s.loc ∉ (g.node i).stmts.map (·.loc) := fun h =>
          apart h (List.mem_flatMap.mpr ⟨j,member,List.mem_map.mpr ⟨s,here,rfl⟩⟩)
        rw [(first.others _ other).1]
        exact fresh j (List.mem_cons_of_mem _ member) s here w
      simp only [linkNodes,ok,bind,Except.bind]
      have sets := first.reaching
      rcases ih c₁ distinctTail freshTail with ⟨⟨c₂,ok₂,rest⟩,tail⟩ | ⟨fault,unserved⟩
      · exact .inl ⟨⟨c₂,ok₂,.cons first rest apart⟩,head,sets ▸ tail⟩
      · exact .inr ⟨fault,fun h => unserved (sets ▸ h.2)⟩
    · refine .inr ⟨⟨f,?_⟩,fun h => unserved h.1⟩
      simp only [linkNodes,fault,bind,Except.bind]

end RegCode.Chains
