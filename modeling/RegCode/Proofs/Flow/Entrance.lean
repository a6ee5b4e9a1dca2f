import RegCode.Proofs.Chains.Restating
import RegCode.Proofs.Flow.Representation

/-! What leads to the entry of a graph. Building puts an empty node in front of an entry that control
can come back to; simplifying keeps that node where normal edges lead back, and drops it where only
exceptions do. -/
namespace RegCode
namespace Graph

variable {m : Method} {g h : Graph} {i j e : NodeId}

structure Fronted (whole : Prop) (g : Graph) : Prop extends g.Coherent where
  preds : ∀ e, g.entry = some e → (g.node e).preds = []
  catchPreds : whole → ∀ e, g.entry = some e → (g.node e).catchPreds = []

variable {whole : Prop}

theorem frontedSplit {last : Stmt} (fronted : Fronted whole g) (member : i ∈ g.nodes) :
    Fronted whole (g.split i last) := by
  have coherent := fronted.toCoherent
  have new := fresh coherent
  have node := @nodeSplit g i coherent member last
  have entries : ∀ e, (g.split i last).entry = some e →
      g.entry = some i ∧ e = g.store.size ∨ g.entry = some e ∧ e ≠ i ∧ e ≠ g.store.size := by
    intro e here
    rw [entrySplit] at here
    obtain ⟨e',entry,same⟩ := Option.map_eq_some_iff.mp here
    have old : e' ≠ g.store.size := fun same => new (same ▸ coherent.entry e' entry)
    split at same
    · rename_i here
      exact .inl ⟨here ▸ entry,same.symm⟩
    · rename_i other
      exact .inr ⟨same ▸ entry,same ▸ other,same ▸ old⟩
  -- A handler of the test that stands at the entry leads back to it.
  have unhandled : ∀ e, whole → g.entry = some e → e ∉ (g.node i).catchSuccs := by
    intro e all entry leads
    have comes := (coherent.raised.forth i member e leads).2
    rw [fronted.catchPreds all e entry] at comes
    contradiction
  refine ⟨coherentSplit coherent member,fun e here => ?_,fun all e here => ?_⟩
  · rcases entries e here with ⟨entry,rfl⟩ | ⟨entry,other,old⟩
    · rw [node,if_pos rfl]
      exact fronted.preds i entry
    · rw [node,if_neg old,if_neg other]
      exact (g.detourOuter i e (g.node e)).1.trans (fronted.preds e entry)
  · refine List.eq_nil_iff_forall_not_mem.mpr fun a => ?_
    rcases entries e here with ⟨entry,rfl⟩ | ⟨entry,other,old⟩
    · rw [node,if_pos rfl]
      show a ∉ g.catchPredsParted i last g.store.size (g.node i).catchPreds
      rw [catchPredsPartedMem coherent member,fronted.catchPreds all i entry,handlersMem coherent member]
      have := unhandled i all entry
      have := fun leads => new (coherent.raised.forth i member g.store.size leads).1
      simp_all
    · rw [node,if_neg old,if_neg other]
      show a ∉ g.catchPredsParted i last e (g.node e).catchPreds
      rw [catchPredsPartedMem coherent member,fronted.catchPreds all e entry,handlersMem coherent member]
      have := unhandled e all entry
      simp_all

theorem frontedMerge (fronted : Fronted whole g) (member : i ∈ g.nodes) (fits : g.Merges i j) :
    Fronted whole (g.merge i j) := by
  have coherent := fronted.toCoherent
  have listed := fits.inside coherent member
  have other : ∀ e, g.entry = some e → e ≠ j := fun e entry same => fits.entry (same ▸ entry)
  refine ⟨coherentMerge coherent member fits,fun e entry => ?_,fun all e entry => ?_⟩
  all_goals
    rw [entryMerge] at entry
    rw [fits.node coherent member (other e entry)]
    dsimp only
  · rw [if_neg,fronted.preds e entry]
    intro leads
    have comes := (coherent.normal.forth j listed e leads).2
    rw [fronted.preds e entry] at comes
    contradiction
  · rw [if_neg,fronted.catchPreds all e entry]
    intro leads
    have comes := (coherent.raised.forth j listed e leads).2
    rw [fronted.catchPreds all e entry] at comes
    contradiction

theorem frontedBypass (fronted : Fronted whole g) (member : i ∈ g.nodes) (fits : g.Bypasses i j) :
    Fronted (whole ∧ g.entry ≠ some i) (g.bypass i j) := by
  have coherent := fronted.toCoherent
  have comes := (coherent.normal.forth i member j (fits.succs ▸ List.mem_singleton_self j)).2
  have entries : ∀ e, (g.bypass i j).entry = some e →
      g.entry = some i ∧ e = j ∨ g.entry = some e ∧ e ≠ i ∧ e ≠ j := by
    intro e here
    rw [entryBypass] at here
    obtain ⟨e',entry,same⟩ := Option.map_eq_some_iff.mp here
    split at same
    · rename_i first
      exact .inl ⟨first ▸ entry,same.symm⟩
    · rename_i other
      subst same
      refine .inr ⟨entry,other,?_⟩
      rintro rfl
      rw [fronted.preds e' entry] at comes
      contradiction
  refine ⟨coherentBypass coherent member fits,fun e here => ?_,fun all e here => ?_⟩
  · rcases entries e here with ⟨entry,rfl⟩ | ⟨entry,other,apart⟩
    · obtain ⟨p,single⟩ := List.length_eq_one_iff.mp
        (Nat.le_antisymm (fits.entry entry) (List.length_pos_of_mem comes))
      rw [single,List.mem_singleton] at comes
      rw [fits.node coherent member fits.other]
      simp only [if_true]
      rw [fronted.preds i entry,single,comes]
      simp [insertAll,without]
    · rw [fits.node coherent member other]
      simp only [if_neg apart]
      exact fronted.preds e entry
  · obtain ⟨entry,other,apart⟩ := (entries e here).resolve_left fun first => all.2 first.1
    rw [fits.node coherent member other]
    dsimp only
    rw [fronted.catchPreds all.1 e entry]
    split <;> rfl

theorem frontedRenumber (fronted : Fronted whole g) : Fronted whole g.renumber := by
  have coherent := fronted.toCoherent
  cases entry : g.entry with
  | none =>
    rw [renumber,if_pos (by simp [isEmpty,entry])]
    exact fronted
  | some e =>
    have numbered := coherent.numbered entry
    have same := entryRenumber g
    have here := (numbered.reached e entry e).mpr (.stay trivial)
    obtain ⟨num,node⟩ := numbered.node e here
    refine ⟨coherentRenumber coherent,fun e' first => ?_,fun all e' first => ?_⟩
    all_goals
      rw [same,entry] at first
      cases Option.some.inj first
      rw [node]
      dsimp only
    · rw [fronted.preds e entry]
      rfl
    · rw [fronted.catchPreds all e entry]
      rfl

theorem frontedRestated (fronted : Fronted whole g) (restated : g.Restated h) : Fronted whole h := by
  have entry : h.entry = g.entry := by rw [restated.rest]
  refine ⟨fronted.toCoherent.restate entry (by rw [restated.rest]) restated.size restated.nodes,
    fun e here => ?_,fun all e here => ?_⟩
  all_goals
    rw [entry] at here
    rw [restated.nodes]
  · exact fronted.preds e here
  · exact fronted.catchPreds all e here

theorem Fronted.weaken {whole' : Prop} (fronted : Fronted whole g) (weaker : whole' → whole) :
    Fronted whole' g := { fronted with catchPreds := fun all => fronted.catchPreds (weaker all) }

theorem frontedSplitTests (fronted : Fronted whole g) : Fronted whole g.splitTests :=
  keptSplitTests (fun _ _ _ fronted member _ => frontedSplit fronted member) fronted

theorem frontedSimplify (fronted : Fronted whole g) :
    Fronted (whole ∧ g.simplify.entry = g.entry) g.simplify := by
  cases entry : g.entry with
  | none =>
    rw [simplify,if_pos (by simp [isEmpty,entry])]
    exact fronted.weaken And.left
  | some first =>
    -- An entry that is taken out does not come back.
    refine (keptSimplify (P := fun h => Fronted (whole ∧ h.entry = some first) h ∧
      (h.entry = some first ∨ first ∉ h.nodes)) (fun h i j before member fits => ?_)
      (fun h i j before member fits => ?_) (fun h before => ?_) ⟨fronted.weaken And.left,.inl entry⟩).1
    · refine ⟨?_,before.2.imp entryMerge.trans fun gone here => gone (nodesMerge.mp here).1⟩
      rw [entryMerge]
      exact frontedMerge before.1 member fits
    · have kept : (h.bypass i j).entry = some first → h.entry = some first ∧ h.entry ≠ some i := by
        intro here
        rw [entryBypass] at here
        obtain ⟨e,old,same⟩ := Option.map_eq_some_iff.mp here
        split at same
        · rename_i taken
          rcases before.2 with still | gone
          · exact absurd (same.trans ((Option.some.inj (still.symm.trans old)).trans taken)) fits.other
          · exact absurd (same ▸ fits.inside before.1.toCoherent member) gone
        · rename_i other
          subst same
          exact ⟨old,fun same => other (Option.some.inj (old.symm.trans same))⟩
      refine ⟨(frontedBypass before.1 member fits).weaken fun all =>
        ⟨⟨all.1,(kept all.2).1⟩,(kept all.2).2⟩,?_⟩
      rcases before.2 with still | gone
      · by_cases taken : first = i
        · exact .inr fun here => (nodesBypass.mp here).2 taken
        · refine .inl ?_
          rw [entryBypass,still,Option.map_some,if_neg taken]
      · exact .inr fun here => gone (nodesBypass.mp here).1
    · have same := entryRenumber h
      refine ⟨?_,?_⟩
      · rw [same]
        exact frontedRenumber before.1
      · rw [same]
        refine before.2.imp id fun gone here => ?_
        cases entry : h.entry with
        | none =>
          rw [renumber,if_pos (by simp [isEmpty,entry])] at here
          exact gone here
        | some e => exact gone ((before.1.toCoherent.numbered entry).old first here)

/-- A graph of the method after passes in any order and number; the mark tells whether simplifying has
always left the entry in place. -/
inductive Staged (m : Method) : Prop → Graph → Prop where
  | built {g : Graph} (made : ofMethod m = .ok g) : Staged m True g
  | analysed {whole : Prop} {a b : Analysed} (before : Staged m whole a.graph) (pass : a.Pass b) :
      Staged m whole b.graph
  | parted {whole : Prop} {g : Graph} (before : Staged m whole g) : Staged m whole g.splitTests
  | simplified {whole : Prop} {g : Graph} (before : Staged m whole g) :
      Staged m (whole ∧ g.simplify.entry = g.entry) g.simplify
  | numbered {whole : Prop} {g : Graph} (before : Staged m whole g) : Staged m whole g.renumber

theorem frontedOfMethod (made : ofMethod m = .ok g) : Fronted True g := by
  rcases finishedOfMethod made with ⟨-,same⟩ | ⟨first,rest,more,b,-,-,-,finished⟩
  · have shielded : ({ vars := g.vars, params := g.params } : Graph).Shielded := shieldedEmpty rfl rfl
    rw [same]
    exact ⟨shielded.toCoherent,nofun,fun _ => nofun⟩
  · exact ⟨finished.coherent,fun e entry => (finished.sourceless e entry).1,
      fun _ e entry => (finished.sourceless e entry).2⟩

theorem Staged.fronted (staged : Staged m whole g) : Fronted whole g := by
  induction staged with
  | built made => exact frontedOfMethod made
  | analysed before pass ih => exact frontedRestated ih pass.restated
  | parted before ih => exact frontedSplitTests ih
  | simplified before ih => exact frontedSimplify ih
  | numbered before ih => exact frontedRenumber ih

/-- No normal edge ever leads to the entry. Exceptional edges lead there only once simplifying has taken
out an entry, and then the new entry is that of a handler. -/
theorem entryUnled (staged : Staged m whole g) (entry : g.entry = some e) :
    (g.node e).preds = [] ∧ (whole → (g.node e).catchPreds = []) ∧
      ((g.node e).handler = false → (g.node e).catchPreds = []) := by
  have fronted := staged.fronted
  exact ⟨fronted.preds e entry,fun all => fronted.catchPreds all e entry,
    fronted.toCoherent.unraised (fronted.toCoherent.entry e entry)⟩

end Graph

def Method.resumed : Method where
  owner := "LTest;"
  name := "f"
  descriptor := "()V"
  access := ⟨9⟩
  registers := 1
  index := 0
  line := 0
  code := [
    { family := .invoke, width := 3, invoke := .static, type := "V", mnemonic := "invoke-static",
      method := some ⟨"LTest;","g",[],"V"⟩ },
    { family := .invoke, width := 3, invoke := .static, type := "V", mnemonic := "invoke-static",
      offset := 3, method := some ⟨"LTest;","k",[],"V"⟩ },
    { family := .returnVoid, mnemonic := "return-void", offset := 6 }]
  tries := [⟨3,6,[⟨"",0⟩]⟩]
  overlaps := []

namespace Graph

set_option maxRecDepth 100000 in
theorem resumedExposed : (match ofMethod .resumed with
    | .ok g =>
      let h := g.splitTests.simplify
      g.entry == some 3 && h.entry == some 0 && (h.node 0).catchPreds == [1]
    | .error _ => false) = true := by
  simp -zeta only [ofMethod,Block.split,Block.starts,TryTable.ascending,simplify,renumber,reversePostorder,
    Flow.exploreNested,sortByHalves]
  decide +kernel

/-- Simplifying takes out the empty node in front of `resumed`, and the handler becomes the entry. -/
theorem entryUnledResumed : ∃ g, ofMethod .resumed = .ok g ∧ g.entry = some 3 ∧ (g.node 3).catchPreds = [] ∧
    g.splitTests.simplify.entry = some 0 ∧ (g.splitTests.simplify.node 0).preds = [] ∧
    (g.splitTests.simplify.node 0).catchPreds = [1] ∧ (g.splitTests.simplify.node 0).handler = true := by
  have exposed := resumedExposed
  cases made : ofMethod .resumed with
  | error fault =>
    rw [made] at exposed
    contradiction
  | ok g =>
    simp only [made,Bool.and_eq_true,beq_iff_eq] at exposed
    obtain ⟨⟨before,after⟩,exceptional⟩ := exposed
    obtain ⟨-,whole,-⟩ := entryUnled (.built made) before
    obtain ⟨preds,-,plain⟩ := entryUnled (.simplified (.parted (.built made))) after
    refine ⟨g,rfl,before,whole trivial,after,preds,exceptional,?_⟩
    by_contra unmarked
    have := plain (by simpa using unmarked)
    rw [exceptional] at this
    contradiction

end Graph
end RegCode
