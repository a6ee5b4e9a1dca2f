import RegCode.Proofs.Dominance.Tree
import RegCode.Proofs.Flow.Representation

/-! Locations of statements. Parting tests, simplifying and numbering move statements from node to node,
but no two of them ever come to share a location. -/
namespace RegCode.Graph

variable {g h : Graph} {i j k : NodeId}

def locsAt (g : Graph) (i : NodeId) : List Loc := (g.node i).stmts.map (·.loc)

structure Spaced (g : Graph) : Prop where
  each : ∀ i ∈ g.nodes, (g.locsAt i).Nodup
  apart : ∀ i ∈ g.nodes, ∀ j ∈ g.nodes, i ≠ j → (g.locsAt i).Disjoint (g.locsAt j)

theorem Spaced.node (spaced : g.Spaced) (left : i ∈ g.nodes) (right : j ∈ g.nodes) {l : Loc}
    (inLeft : l ∈ g.locsAt i) (inRight : l ∈ g.locsAt j) : i = j := by
  by_contra other
  exact spaced.apart i left j right other inLeft inRight

theorem Spaced.fewer (spaced : g.Spaced) (nodes : ∀ k ∈ h.nodes, k ∈ g.nodes)
    (same : ∀ k ∈ h.nodes, h.locsAt k = g.locsAt k) : h.Spaced where
  each k here := same k here ▸ spaced.each k (nodes k here)
  apart k here l there other :=
    same k here ▸ same l there ▸ spaced.apart k (nodes k here) l (nodes l there) other

theorem Spaced.parted {n : NodeId} (spaced : g.Spaced) (member : i ∈ g.nodes)
    (nodes : ∀ k ∈ h.nodes, k ∈ g.nodes ∧ k ≠ n ∨ k = n) (whole : g.locsAt i = h.locsAt n ++ h.locsAt i)
    (rest : ∀ k, k ≠ n → k ≠ i → h.locsAt k = g.locsAt k) : h.Spaced := by
  have once := spaced.each i member
  rw [whole] at once
  obtain ⟨front,back,across⟩ := List.nodup_append'.mp once
  have kept : ∀ k ∈ h.nodes, k ≠ n → k ∈ g.nodes ∧ ∀ l ∈ h.locsAt k, l ∈ g.locsAt k := by
    intro k here other
    refine ⟨((nodes k here).resolve_right other).1,fun l inside => ?_⟩
    by_cases same : k = i
    · rw [same] at inside ⊢
      rw [whole]
      exact List.mem_append_right _ inside
    · rwa [← rest k other same]
  -- The part in front was in the node, so what shares a location with it can only be the other part.
  have ahead : ∀ k ∈ h.nodes, k ≠ n → ∀ l ∈ h.locsAt n, l ∉ h.locsAt k := by
    intro k here other l inFront inside
    have within : l ∈ g.locsAt i := whole ▸ List.mem_append_left _ inFront
    have same := spaced.node member (kept k here other).1 within ((kept k here other).2 l inside)
    exact across inFront (same ▸ inside)
  refine ⟨fun k here => ?_,fun a left b right other l inLeft inRight => ?_⟩
  · by_cases first : k = n
    · rwa [first]
    · by_cases same : k = i
      · rwa [same]
      · rw [rest k first same]
        exact spaced.each k (kept k here first).1
  · by_cases first : a = n
    · rw [first] at inLeft other
      exact ahead b right other.symm l inLeft inRight
    · by_cases second : b = n
      · rw [second] at inRight
        exact ahead a left first l inRight inLeft
      · obtain ⟨old,before⟩ := kept a left first
        obtain ⟨old',before'⟩ := kept b right second
        exact other (spaced.node old old' (before l inLeft) (before' l inRight))

theorem spacedSplit {last : Stmt} (coherent : g.Coherent) (spaced : g.Spaced) (member : i ∈ g.nodes)
    (parts : g.Parts i last) : (g.split i last).Spaced := by
  have new := fresh coherent
  have differ : i ≠ g.store.size := fun same => new (same ▸ member)
  refine spaced.parted (n := g.store.size) member (fun k here => ?_) ?_ fun k first other => ?_
  · rw [nodesSplit,List.mem_append,List.mem_singleton] at here
    exact here.imp_left fun old => ⟨old,fun same => new (same ▸ old)⟩
  · obtain ⟨front,stmts⟩ := List.getLast?_eq_some_iff.mp parts.ends
    rw [locsAt,locsAt,locsAt,nodeSplit coherent member,nodeSplit coherent member,if_pos rfl,if_neg differ,
      if_pos rfl]
    dsimp only [Graph.front]
    rw [(g.detourKept i i _).2.1,stmts,List.dropLast_concat,List.map_append]
  · rw [locsAt,nodeSplit coherent member,if_neg first,if_neg other]
    exact congrArg _ (g.detourKept i k _).2.1

theorem Spaced.joined (spaced : g.Spaced) (member : i ∈ g.nodes) (inside : j ∈ g.nodes) (other : j ≠ i)
    (nodes : ∀ k ∈ h.nodes, k ∈ g.nodes ∧ k ≠ j) (both : h.locsAt i = g.locsAt i ++ g.locsAt j)
    (rest : ∀ k, k ≠ j → k ≠ i → h.locsAt k = g.locsAt k) : h.Spaced := by
  have home : ∀ k ∈ h.nodes, ∀ l ∈ h.locsAt k, l ∈ g.locsAt k ∨ k = i ∧ l ∈ g.locsAt j := by
    intro k here l within
    by_cases same : k = i
    · rw [same,both,List.mem_append] at within
      rw [same]
      exact within.imp_right fun later => ⟨rfl,later⟩
    · exact .inl (rest k (nodes k here).2 same ▸ within)
  refine ⟨fun k here => ?_,fun a left b right apart l inLeft inRight => ?_⟩
  · by_cases same : k = i
    · rw [same,both]
      exact List.nodup_append'.mpr
        ⟨spaced.each i member,spaced.each j inside,spaced.apart i member j inside other.symm⟩
    · rw [rest k (nodes k here).2 same]
      exact spaced.each k (nodes k here).1
  · obtain ⟨old,kept⟩ := nodes a left
    obtain ⟨old',kept'⟩ := nodes b right
    rcases home a left l inLeft with inLeft | ⟨here,inLeft⟩ <;>
      rcases home b right l inRight with inRight | ⟨there,inRight⟩
    · exact apart (spaced.node old old' inLeft inRight)
    · exact kept (spaced.node old inside inLeft inRight)
    · exact kept' (spaced.node old' inside inRight inLeft)
    · exact apart (here.trans there.symm)

theorem spacedMerge (coherent : g.Coherent) (spaced : g.Spaced) (member : i ∈ g.nodes)
    (fits : g.Merges i j) : (g.merge i j).Spaced := by
  refine spaced.joined member (fits.inside coherent member) fits.other
    (fun k here => nodesMerge.mp here) ?_ fun k kept other => ?_
  · rw [locsAt,fits.node coherent member fits.other.symm]
    simp [locsAt]
  · rw [locsAt,fits.node coherent member kept]
    simp [locsAt,other]

theorem spacedBypass (coherent : g.Coherent) (spaced : g.Spaced) (member : i ∈ g.nodes)
    (fits : g.Bypasses i j) : (g.bypass i j).Spaced := by
  refine spaced.fewer (fun k here => (nodesBypass.mp here).1) fun k here => ?_
  rw [locsAt,fits.node coherent member (nodesBypass.mp here).2]
  dsimp only
  split <;> rfl

theorem spacedRenumber (coherent : g.Coherent) (spaced : g.Spaced) : g.renumber.Spaced := by
  cases entry : g.entry with
  | none =>
    rw [renumber,if_pos (by simp [isEmpty,entry])]
    exact spaced
  | some e =>
    have numbered := coherent.numbered entry
    refine spaced.fewer numbered.old fun k here => ?_
    obtain ⟨num,node⟩ := numbered.node k here
    rw [locsAt,node]
    rfl

theorem spacedSplitTests (coherent : g.Coherent) (spaced : g.Spaced) : g.splitTests.Spaced :=
  (keptSplitTests (P := fun g => g.Coherent ∧ g.Spaced) (fun _ _ _ before member parts =>
    ⟨coherentSplit before.1 member,spacedSplit before.1 before.2 member parts⟩) ⟨coherent,spaced⟩).2

theorem spacedSimplify (coherent : g.Coherent) (spaced : g.Spaced) : g.simplify.Spaced :=
  (keptSimplify (P := fun g => g.Coherent ∧ g.Spaced)
    (fun _ _ _ before member fits =>
      ⟨coherentMerge before.1 member fits,spacedMerge before.1 before.2 member fits⟩)
    (fun _ _ _ before member fits =>
      ⟨coherentBypass before.1 member fits,spacedBypass before.1 before.2 member fits⟩)
    (fun _ before => ⟨coherentRenumber before.1,spacedRenumber before.1 before.2⟩)
    ⟨coherent,spaced⟩).2

theorem spacedOfMethod {m : Method} (made : ofMethod m = .ok g) : g.Spaced := by
  rcases finishedOfMethod made with ⟨-,same⟩ | ⟨first,rest,more,b,-,-,-,finished⟩
  · rw [same]
    exact ⟨fun _ member => absurd member List.not_mem_nil,fun _ member => absurd member List.not_mem_nil⟩
  · have distinct := finished.distinct
    refine ⟨fun k here => nodeLocsNodup distinct (finished.rpo ▸ here),fun a left b right other l inLeft inRight => ?_⟩
    exact other (nodeOfLoc distinct (finished.rpo ▸ left) (finished.rpo ▸ right) inLeft inRight)

/-- What structuring may rely on. -/
structure Readied (g : Graph) : Prop where
  shielded : g.Shielded
  shaped : g.Shaped
  spaced : g.Spaced
  rpo : g.rpo = g.nodes
  edged : g.Edged
  ranked : g.Ranked

theorem readiedOfMethod {m : Method} (made : ofMethod m = .ok g) :
    g.splitTests.simplify.entry = none ∨ g.splitTests.simplify.Readied := by
  have shielded := shieldedOfMethod made
  have parted := shieldedSplitTests shielded
  have spaced := spacedSimplify parted.toCoherent
    (spacedSplitTests shielded.toCoherent (spacedOfMethod made))
  cases entry : g.splitTests.simplify.entry with
  | none => exact .inl rfl
  | some e =>
    unfold simplify at entry
    split at entry
    · rename_i empty
      simp [isEmpty,entry] at empty
    · rename_i some
      have swept := coherentSweeps (g.splitTests.nodes.length + 1) parted.toCoherent
      obtain ⟨e',first⟩ : ∃ e', (sweeps (g.splitTests.nodes.length + 1) g.splitTests).entry = .some e' := by
        rw [entryRenumber] at entry
        exact ⟨e,entry⟩
      have listed := swept.entry e' first
      have same : g.splitTests.simplify = (sweeps (g.splitTests.nodes.length + 1) g.splitTests).renumber := by
        rw [simplify,if_neg some]
      refine .inr ⟨shieldedSimplify parted,shapedOfMethod made,spaced,?_,?_,?_⟩ <;> rw [same]
      · rw [(swept.numbered first).rest]
      · exact swept.toNetted.numberedEdged first listed
      · exact swept.toNetted.ranked first listed

end RegCode.Graph
