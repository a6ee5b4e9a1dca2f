import RegCode.Proofs.Flow.Numbering
import RegCode.Proofs.Flow.Splitting

/-! Simplifying is one change after the other. What each change keeps, all of them keep, in whichever
order they come. -/
namespace RegCode.Graph

variable {g h : Graph} {P : Graph → Prop}

section
variable (merge : ∀ g i j, P g → i ∈ g.nodes → g.Merges i j → P (g.merge i j))
  (bypass : ∀ g i j, P g → i ∈ g.nodes → g.Bypasses i j → P (g.bypass i j))
include merge bypass

theorem keptReduce {i : NodeId} (before : P g) (found : g.reduce? i = some h) : P h := by
  unfold reduce? at found
  split at found
  · contradiction
  · rename_i listed
    have member : i ∈ g.nodes := by simpa using listed
    split at found
    · rename_i j merges
      cases Option.some.inj found
      exact merge g i j before member (mergesOf merges)
    · obtain ⟨j,removes,rfl⟩ := Option.map_eq_some_iff.mp found
      exact bypass g i j before member (bypassesOf removes)

theorem keptSweep (before : P g) : P g.sweep.1 := by
  refine List.foldlRecOn g.nodes _ (motive := fun r : Graph × Bool => P r.1) before ?_
  intro r before i _
  dsimp only
  split
  · rename_i found
    exact keptReduce merge bypass before found
  · exact before

theorem keptSweeps (fuel : Nat) (before : P g) : P (sweeps fuel g) := by
  induction fuel generalizing g with
  | zero => exact before
  | succ fuel ih =>
    rw [sweeps]
    dsimp only
    split
    · exact ih (keptSweep merge bypass before)
    · exact keptSweep merge bypass before

theorem keptSimplify (number : ∀ g, P g → P g.renumber) (before : P g) : P g.simplify := by
  unfold simplify
  split
  · exact before
  · exact number _ (keptSweeps merge bypass _ before)

end

/-- When a test or a switch is parted from statements in front of it. -/
structure Parts (g : Graph) (i : NodeId) (last : Stmt) : Prop where
  ends : (g.node i).stmts.getLast? = some last
  kind : (g.node i).kind = .cond ∨ (g.node i).kind = .switch
  long : 2 ≤ (g.node i).stmts.length

theorem keptSplitTest {i : NodeId}
    (split : ∀ last, P g → i ∈ g.nodes → g.Parts i last → P (g.split i last))
    (before : P g) (member : i ∈ g.nodes) : P (g.splitTest i) := by
  rcases g.splitTestBody i with ⟨same,-⟩ | ⟨last,ends,kind,long,same⟩
  · rwa [same]
  · rw [same]
    exact split last before member ⟨ends,kind,long⟩

theorem splitTestNodes {i : NodeId} : ∀ k ∈ g.nodes, k ∈ (g.splitTest i).nodes := by
  intro k member
  rcases g.splitTestBody i with ⟨same,-⟩ | ⟨last,-,-,-,same⟩
  · rwa [same]
  · rw [same]
    exact nodesSplit (g := g) ▸ List.mem_append_left _ member

theorem keptSplitTests (split : ∀ g i last, P g → i ∈ g.nodes → g.Parts i last → P (g.split i last))
    (before : P g) : P g.splitTests := by
  suffices all : ∀ (is : List NodeId) (g : Graph), P g → (∀ i ∈ is, i ∈ g.nodes) →
      P (is.foldl splitTest g) from all g.nodes g before fun _ => id
  intro is
  induction is with
  | nil => exact fun g before _ => before
  | cons i is ih =>
    intro g before listed
    obtain ⟨here,later⟩ := List.forall_mem_cons.mp listed
    exact ih _ (keptSplitTest (fun last => split g i last) before here)
      fun k member => splitTestNodes k (later k member)

theorem coherentSweeps (fuel : Nat) (coherent : g.Coherent) : (sweeps fuel g).Coherent :=
  keptSweeps (fun _ _ _ coherent member fits => coherentMerge coherent member fits)
    (fun _ _ _ coherent member fits => coherentBypass coherent member fits) fuel coherent

end RegCode.Graph

/-! Exceptional edges of nodes in regions. A node leads to the handlers of its region, all of them and
no others, but for a test that was parted from the statements in front of it: it cannot raise and has
lost its edges, while the node in front has them still. -/
namespace RegCode.Graph

variable {g h : Graph} {i j k p : NodeId}

def Full (g : Graph) (i : NodeId) : Prop :=
  ∀ j, j ∈ (g.node i).catchSuccs ↔ ∃ r, (g.node i).region = some r ∧ ∃ c ∈ g.handlersOf r, c.entry = j

structure Stripped (g : Graph) (i p : NodeId) : Prop where
  kind : (g.node i).kind = .cond ∨ (g.node i).kind = .switch
  alone : (g.node i).stmts.length ≤ 1
  quiet : ∀ s ∈ (g.node i).stmts, s.canThrow = false
  catchSuccs : (g.node i).catchSuccs = []
  entry : g.entry ≠ some i
  handler : (g.node i).handler = false
  preds : (g.node i).preds = [p]
  frontKind : (g.node p).kind = .stmt
  frontStmts : (g.node p).stmts ≠ []
  frontRegion : (g.node p).region = (g.node i).region
  frontFull : g.Full p

structure Shielded (g : Graph) : Prop extends g.Coherent where
  shields : ∀ i ∈ g.nodes, g.Full i ∨ ∃ p, g.Stripped i p

theorem Full.congr (full : g.Full i)
    (catchSuccs : ∀ j, j ∈ (h.node k).catchSuccs ↔ j ∈ (g.node i).catchSuccs)
    (region : (h.node k).region = (g.node i).region) (handlers : h.handlersOf = g.handlersOf) :
    h.Full k := fun j => by
  rw [catchSuccs,region,handlers]
  exact full j

theorem Shielded.full (shielded : g.Shielded) (member : i ∈ g.nodes)
    (other : (g.node i).kind ≠ .cond ∧ (g.node i).kind ≠ .switch) : g.Full i := by
  refine (shielded.shields i member).resolve_right fun ⟨p,stripped⟩ => ?_
  exact stripped.kind.elim other.1 other.2

section
variable (coherent : g.Coherent) (stripped : g.Stripped i p)
include coherent stripped

theorem Stripped.front (member : i ∈ g.nodes) : p ∈ g.nodes ∧ (g.node p).succs = [i] := by
  obtain ⟨there,leads⟩ := coherent.normal.back i member p (stripped.preds ▸ List.mem_singleton_self p)
  refine ⟨there,?_⟩
  have short := (coherent.formed p there).stmt stripped.frontKind
  obtain ⟨t,single⟩ := List.length_eq_one_iff.mp
    (Nat.le_antisymm short (List.length_pos_of_mem leads))
  rw [single] at leads ⊢
  rw [List.mem_singleton.mp leads]

end

theorem handlersSplit {last : Stmt} (r : RegionId) :
    (g.split i last).handlersOf r = (g.handlersOf r).map (redirectHandler i g.store.size) := by
  simp only [handlersOf,region?,regionsSplit,Array.getElem?_map]
  cases g.regions[r]? <;> rfl

theorem Full.redirect {a b : NodeId} {last : Stmt} (full : g.Full a)
    (catchSuccs : ∀ j, j ∈ ((g.split i last).node b).catchSuccs ↔
      (j ∈ (g.node a).catchSuccs ∧ j ≠ i) ∨ (j = g.store.size ∧ i ∈ (g.node a).catchSuccs))
    (region : ((g.split i last).node b).region = (g.node a).region) : (g.split i last).Full b := by
  intro j
  rw [catchSuccs,region,full,full]
  simp only [handlersSplit,List.mem_map]
  constructor
  · rintro (⟨⟨r,here,c,listed,rfl⟩,other⟩ | ⟨rfl,r,here,c,listed,leads⟩)
    · exact ⟨r,here,_,⟨c,listed,rfl⟩,by rw [redirectHandler,if_neg other]⟩
    · exact ⟨r,here,_,⟨c,listed,rfl⟩,by rw [redirectHandler,if_pos leads]⟩
  · rintro ⟨r,here,_,⟨c,listed,rfl⟩,rfl⟩
    unfold redirectHandler
    split
    · rename_i leads
      exact .inr ⟨rfl,r,here,c,listed,leads⟩
    · rename_i other
      exact .inl ⟨⟨r,here,c,listed,rfl⟩,other⟩

theorem shieldedSplit {last : Stmt} (shielded : g.Shielded) (member : i ∈ g.nodes)
    (parts : g.Parts i last) : (g.split i last).Shielded := by
  have coherent := shielded.toCoherent
  have new := fresh coherent
  have node := @nodeSplit g i coherent member last
  have kept := fun k x => g.detourKept i k x
  have whole : g.Full i := (shielded.shields i member).resolve_right fun ⟨p,stripped⟩ => by
    have := stripped.alone
    have := parts.long
    omega
  have other : ∀ {k}, k ∈ g.nodes → k ≠ g.store.size := fun member same => new (same ▸ member)
  -- The new node in front has what the test had.
  have front : (g.split i last).Full g.store.size := by
    refine whole.redirect (fun j => ?_) ?_
    · rw [node,if_pos rfl]
      exact handlersMem coherent member
    · rw [node,if_pos rfl]
      rfl
  have full : ∀ k ∈ g.nodes, k ≠ i → g.Full k → (g.split i last).Full k := by
    intro k old apart full
    refine full.redirect (fun j => ?_) ?_
    · rw [node,if_neg (other old),if_neg apart]
      exact detourCatchMem coherent old rfl
    · rw [node,if_neg (other old),if_neg apart]
      exact (kept k _).2.2.1
  refine ⟨coherentSplit coherent member,fun k here => ?_⟩
  rw [nodesSplit,List.mem_append,List.mem_singleton] at here
  rcases here with old | rfl
  · by_cases same : k = i
    · subst same
      cases throws : last.canThrow with
      | true =>
        refine .inl (whole.redirect (fun j => ?_) ?_)
        · rw [node,if_neg (other old),if_pos rfl,throws]
          exact handlersMem coherent member
        · rw [node,if_neg (other old),if_pos rfl]
          exact (kept k _).2.2.1
      | false =>
        have here : (g.split k last).node k = { g.detour k k { g.node k with stmts := [last], handler := false }
            with preds := [g.store.size], catchPreds := [], catchSuccs := [] } := by
          rw [node,if_neg (other old),if_pos rfl,throws]
          rfl
        have ahead : (g.split k last).node g.store.size = { g.front k with
            succs := [k], catchSuccs := g.handlersOfTest k
            catchPreds := g.catchPredsParted k last g.store.size (g.node k).catchPreds } := by
          rw [node,if_pos rfl]
        obtain ⟨kind,stmts,region,handler⟩ := kept k { g.node k with stmts := [last], handler := false }
        refine .inr ⟨g.store.size,?_,?_,?_,?_,?_,?_,?_,?_,?_,?_,front⟩
        all_goals try rw [here]
        · exact kind.symm ▸ parts.kind
        · show (g.detour k k _).stmts.length ≤ 1
          rw [stmts]
          exact Nat.le_refl 1
        · show ∀ s ∈ (g.detour k k _).stmts, s.canThrow = false
          rw [stmts]
          simpa using throws
        · rw [entrySplit]
          intro first
          obtain ⟨e,-,same⟩ := Option.map_eq_some_iff.mp first
          split at same
          · exact other old same.symm
          · contradiction
        · exact handler
        · rw [ahead]
          rfl
        · rw [ahead]
          show (g.node k).stmts.dropLast ≠ []
          have := parts.long
          intro none
          have := congrArg List.length none
          rw [List.length_dropLast,List.length_nil] at this
          omega
        · rw [ahead]
          exact region.symm
    · rcases shielded.shields k old with before | ⟨p,stripped⟩
      · exact .inl (full k old same before)
      · obtain ⟨there,leads⟩ := stripped.front coherent old
        have apart : p ≠ i := by
          rintro rfl
          rcases parts.kind with kind | kind
          all_goals
            rw [stripped.frontKind] at kind
            contradiction
        have here : (g.split i last).node k = { g.detour i k (g.node k) with
            catchPreds := g.catchPredsParted i last k (g.node k).catchPreds } := by
          rw [node,if_neg (other old),if_neg same]
        have ahead : (g.split i last).node p = { g.detour i p (g.node p) with
            catchPreds := g.catchPredsParted i last p (g.node p).catchPreds } := by
          rw [node,if_neg (other there),if_neg apart]
        obtain ⟨kind,stmts,region,handler⟩ := kept k (g.node k)
        obtain ⟨kindFront,stmtsFront,regionFront,-⟩ := kept p (g.node p)
        refine .inr ⟨p,?_,?_,?_,?_,?_,?_,?_,?_,?_,?_,full p there apart stripped.frontFull⟩
        · rw [here]
          exact kind.symm ▸ stripped.kind
        · rw [here]
          exact stmts.symm ▸ stripped.alone
        · rw [here]
          exact stmts.symm ▸ stripped.quiet
        · refine List.eq_nil_iff_forall_not_mem.mpr fun j raises => ?_
          rw [here] at raises
          have := (detourCatchMem coherent old rfl).mp raises
          simp [stripped.catchSuccs] at this
        · rw [entrySplit]
          intro first
          obtain ⟨e,entry,same⟩ := Option.map_eq_some_iff.mp first
          split at same
          · exact other old same.symm
          · exact stripped.entry (same ▸ entry)
        · rw [here]
          exact handler.trans stripped.handler
        · rw [here]
          exact (g.detourOuter i k (g.node k)).1.trans stripped.preds
        · rw [ahead]
          exact kindFront.trans stripped.frontKind
        · rw [ahead]
          exact stmtsFront.symm ▸ stripped.frontStmts
        · rw [here,ahead]
          exact regionFront.trans (stripped.frontRegion.trans region.symm)
  · exact .inl front

theorem handlersMerge : (g.merge i j).handlersOf = g.handlersOf := by
  funext r
  rw [handlersOf,region?,(g.framedMerge i j).rest]
  rfl

theorem shieldedMerge (shielded : g.Shielded) (member : i ∈ g.nodes) (fits : g.Merges i j) :
    (g.merge i j).Shielded := by
  have coherent := shielded.toCoherent
  have listed := fits.inside coherent member
  have node := fun {k} => fits.node coherent member (k := k)
  have kind : (g.node i).kind ≠ .cond ∧ (g.node i).kind ≠ .switch := by
    rw [fits.kind]
    exact ⟨nofun,nofun⟩
  -- Both nodes lead to the handlers of one region.
  have whole : (g.merge i j).Full i := by
    have upper := shielded.full member kind
    have lower := shielded.full listed ⟨fits.cond,fits.switch⟩
    refine upper.congr (fun t => ?_) ?_ handlersMerge
    · rw [node fits.other.symm]
      dsimp only
      rw [if_pos rfl,insertAllMem,upper,lower,fits.region,or_self]
    · rw [node fits.other.symm]
  have full : ∀ k ∈ g.nodes, k ≠ j → k ≠ i → g.Full k → (g.merge i j).Full k := by
    intro k old other apart full
    refine full.congr (fun t => ?_) ?_ handlersMerge
    · rw [node other]
      simp only [if_neg apart]
    · rw [node other]
  refine ⟨coherentMerge coherent member fits,fun k here => ?_⟩
  obtain ⟨old,other⟩ := nodesMerge.mp here
  by_cases same : k = i
  · rw [same]
    exact .inl whole
  · rcases shielded.shields k old with before | ⟨p,stripped⟩
    · exact .inl (full k old other same before)
    · obtain ⟨there,leads⟩ := stripped.front coherent old
      have here : (g.merge i j).node k = { g.node k with
          preds := if k ∈ (g.node j).succs then insertOnce i (without j (g.node k).preds)
            else (g.node k).preds
          catchPreds := ((g.merge i j).node k).catchPreds } := by
        rw [node other]
        simp only [if_neg same]
      have apart : p ≠ i := by
        rintro rfl
        rw [fits.succs] at leads
        exact other (List.head_eq_of_cons_eq leads).symm
      have rest : ∀ q, ((g.merge i j).node k).preds = [q] → ((g.merge i j).node q).kind = .stmt →
          ((g.merge i j).node q).stmts ≠ [] → ((g.merge i j).node q).region = (g.node k).region →
          (g.merge i j).Full q → (g.merge i j).Stripped k q := by
        intro q preds frontKind frontStmts frontRegion frontFull
        refine ⟨?_,?_,?_,?_,?_,?_,preds,frontKind,frontStmts,?_,frontFull⟩
        all_goals try rw [here]
        · exact stripped.kind
        · exact stripped.alone
        · exact stripped.quiet
        · exact stripped.catchSuccs
        · rw [entryMerge]
          exact stripped.entry
        · exact stripped.handler
        · exact frontRegion
      by_cases taken : p = j
      · subst taken
        refine .inr ⟨i,rest i ?_ ?_ ?_ ?_ whole⟩
        · rw [here]
          dsimp only
          rw [if_pos (leads ▸ List.mem_singleton_self k),stripped.preds]
          simp [without,insertOnce]
        all_goals rw [node fits.other.symm]
        · simp [stripped.frontKind]
        · simp [stripped.frontStmts]
        · exact fits.region.trans stripped.frontRegion
      · have unrelated : k ∉ (g.node j).succs := fun out => by
          have comes := (coherent.normal.forth j listed k out).2
          rw [stripped.preds] at comes
          exact taken (List.mem_singleton.mp comes).symm
        refine .inr ⟨p,rest p ?_ ?_ ?_ ?_ (full p there taken apart stripped.frontFull)⟩
        · rw [here]
          dsimp only
          rw [if_neg unrelated,stripped.preds]
        all_goals
          rw [node taken]
          simp only [if_neg apart]
        · exact stripped.frontKind
        · exact stripped.frontStmts
        · exact stripped.frontRegion

theorem handlersBypass : (g.bypass i j).handlersOf = g.handlersOf := by
  funext r
  rw [handlersOf,region?,(g.framedBypass i j).rest]
  rfl

theorem shieldedBypass (shielded : g.Shielded) (member : i ∈ g.nodes) (fits : g.Bypasses i j) :
    (g.bypass i j).Shielded := by
  have coherent := shielded.toCoherent
  have node := fun {k} => fits.node coherent member (k := k)
  have kept : ∀ k ≠ i, ((g.bypass i j).node k).kind = (g.node k).kind ∧
      ((g.bypass i j).node k).stmts = (g.node k).stmts ∧
      ((g.bypass i j).node k).region = (g.node k).region ∧
      ((g.bypass i j).node k).handler = (g.node k).handler := by
    intro k other
    rw [node other]
    dsimp only
    split <;> exact ⟨rfl,rfl,rfl,rfl⟩
  have full : ∀ k ≠ i, g.Full k → (g.bypass i j).Full k := fun k other full =>
    full.congr (fun t => by rw [catchSuccsBypass coherent member fits other]) (kept k other).2.2.1
      handlersBypass
  refine ⟨coherentBypass coherent member fits,fun k here => ?_⟩
  obtain ⟨old,other⟩ := nodesBypass.mp here
  rcases shielded.shields k old with before | ⟨p,stripped⟩
  · exact .inl (full k other before)
  · obtain ⟨there,leads⟩ := stripped.front coherent old
    have apart : p ≠ i := by
      rintro rfl
      exact stripped.frontStmts fits.stmts
    have unrelated : k ≠ j := by
      rintro rfl
      have comes := (coherent.normal.forth i member k (fits.succs ▸ List.mem_singleton_self k)).2
      rw [stripped.preds] at comes
      exact apart (List.mem_singleton.mp comes).symm
    obtain ⟨kind,stmts,region,handler⟩ := kept k other
    obtain ⟨kindFront,stmtsFront,regionFront,-⟩ := kept p apart
    refine .inr ⟨p,kind.symm ▸ stripped.kind,stmts.symm ▸ stripped.alone,stmts.symm ▸ stripped.quiet,?_,?_,
      handler.trans stripped.handler,?_,kindFront.trans stripped.frontKind,
      stmtsFront.symm ▸ stripped.frontStmts,regionFront.trans (stripped.frontRegion.trans region.symm),
      full p apart stripped.frontFull⟩
    · rw [catchSuccsBypass coherent member fits other]
      exact stripped.catchSuccs
    · rw [entryBypass]
      intro first
      obtain ⟨e,entry,same⟩ := Option.map_eq_some_iff.mp first
      split at same
      · exact unrelated same.symm
      · exact stripped.entry (same ▸ entry)
    · rw [node other]
      dsimp only
      rw [if_neg unrelated]
      exact stripped.preds

theorem shieldedRenumber (shielded : g.Shielded) : g.renumber.Shielded := by
  have coherent := shielded.toCoherent
  cases entry : g.entry with
  | none =>
    rw [renumber,if_pos (by simp [isEmpty,entry])]
    exact shielded
  | some e =>
    have numbered := coherent.numbered entry
    obtain ⟨h,same⟩ : ∃ h, g.renumber = h := ⟨_,rfl⟩
    rw [same] at numbered ⊢
    have handlers : h.handlersOf = g.handlersOf := by
      funext r
      rw [handlersOf,region?,numbered.rest]
      rfl
    have full : ∀ k ∈ h.nodes, g.Full k → h.Full k := by
      intro k here full
      obtain ⟨num,node⟩ := numbered.node k here
      refine full.congr (fun t => ?_) ?_ handlers <;> rw [node]
    refine ⟨coherentNumbered coherent entry numbered,fun k here => ?_⟩
    have old := numbered.old k here
    rcases shielded.shields k old with before | ⟨p,stripped⟩
    · exact .inl (full k here before)
    · obtain ⟨there,leads⟩ := stripped.front coherent old
      obtain ⟨num,node⟩ := numbered.node k here
      -- Nothing but the node in front leads to the test, so it is reached first.
      have stays : p ∈ h.nodes := by
        have way := (numbered.reached e entry k).mp here
        cases way with
        | stay fits => exact absurd entry stripped.entry
        | on way out fits =>
          rename_i a
          have left := (numbered.reached e entry a).mpr way
          have before := numbered.old a left
          rcases List.mem_append.mp out with out | out
          · have comes := (coherent.normal.forth a before k out).2
            rw [stripped.preds] at comes
            exact List.mem_singleton.mp comes ▸ left
          · have comes := (coherent.raised.forth a before k out).2
            rw [coherent.unraised old stripped.handler] at comes
            contradiction
      obtain ⟨num',front⟩ := numbered.node p stays
      refine .inr ⟨p,?_,?_,?_,?_,?_,?_,?_,?_,?_,?_,full p stays stripped.frontFull⟩
      all_goals try rw [node]
      · exact stripped.kind
      · exact stripped.alone
      · exact stripped.quiet
      · exact stripped.catchSuccs
      · rw [show h.entry = g.entry by rw [numbered.rest]]
        exact stripped.entry
      · exact stripped.handler
      · dsimp only
        rw [stripped.preds]
        simp [stays]
      all_goals rw [front]
      · exact stripped.frontKind
      · exact stripped.frontStmts
      · exact stripped.frontRegion

theorem shieldedSplitTests (shielded : g.Shielded) : g.splitTests.Shielded :=
  keptSplitTests (fun _ _ _ shielded member parts => shieldedSplit shielded member parts) shielded

theorem shieldedSimplify (shielded : g.Shielded) : g.simplify.Shielded :=
  keptSimplify (fun _ _ _ shielded member fits => shieldedMerge shielded member fits)
    (fun _ _ _ shielded member fits => shieldedBypass shielded member fits)
    (fun _ shielded => shieldedRenumber shielded) shielded

end RegCode.Graph
