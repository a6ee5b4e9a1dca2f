import RegCode.Proofs.Flow.Finishing
import RegCode.Proofs.Flow.Shielding

/-! Graphs as they are kept. The fields of the nodes of the graph of a method tell of the same edges,
and go on to do so however often tests are parted, the graph is simplified and its nodes are
numbered. -/
namespace RegCode

namespace Flow

variable {m : Method} {blocks met : List Block} {b : Builder} {g : Graph}

theorem Drawn.full (drawn : Drawn m blocks met met.length b) (finished : b.graph.Finished g)
    {i : NodeId} (inside : i < b.graph.store.size) : g.Full i := by
  have within : i < met.length := drawn.standing.known.size ▸ inside
  obtain ⟨last,ss,region,entries,renders⟩ := drawn.built i _ within (List.getElem?_eq_getElem within)
  have own := (finished.nodes i inside).1
  rw [renders.node _ drawn.standing.sites] at own
  have regions : (g.node i).region = region := show (g.node i).own.region = region by rw [own]
  have catchSuccs : (g.node i).catchSuccs = entries := show (g.node i).own.catchSuccs = entries by rw [own]
  have sheltered := renders.sheltered
  unfold Sheltered at sheltered
  intro j
  rw [regions,catchSuccs]
  split at sheltered
  · simp [sheltered.1,sheltered.2]
  · obtain ⟨r,q,rfl,found,rfl,-⟩ := sheltered
    rw [finished.handlers]
    simp [Graph.insertAllMem,Graph.handlersOf,Graph.region?,found]

end Flow

namespace Graph

variable {m : Method} {g h : Graph} {i j : NodeId}

theorem shieldedEmpty (nodes : g.nodes = []) (entry : g.entry = none) : g.Shielded := by
  have nothing : ∀ {k}, k ∉ g.nodes := fun {k} member => by simp [nodes] at member
  have paired : ∀ out into : Node → List NodeId, g.Paired out into := fun _ _ =>
    ⟨fun _ member => (nothing member).elim,fun _ member => (nothing member).elim,
      fun _ member => (nothing member).elim,fun _ member => (nothing member).elim⟩
  refine ⟨⟨⟨fun _ member => (nothing member).elim,nodes ▸ List.nodup_nil,paired _ _,paired _ _⟩,
    fun e here => ?_,fun _ => nodes,fun _ member => (nothing member).elim,
    fun _ member => (nothing member).elim⟩,fun _ member => (nothing member).elim⟩
  rw [entry] at here
  contradiction

theorem fullOfMethod (made : ofMethod m = .ok g) : g.Coherent ∧ ∀ i ∈ g.nodes, g.Full i := by
  rcases finishedOfMethod made with ⟨-,same⟩ | ⟨first,rest,more,b,-,drawn,-,finished⟩
  · rw [same]
    exact ⟨(shieldedEmpty rfl rfl).toCoherent,fun i member => absurd member List.not_mem_nil⟩
  · refine ⟨finished.coherent,fun k member => ?_⟩
    have inside := finished.coherent.inStore k member
    by_cases old : k < b.graph.store.size
    · exact drawn.full finished old
    · rcases finished.front with ⟨-,same⟩ | ⟨-,same,own,-⟩
      · exact absurd (same ▸ inside) old
      · obtain rfl : k = b.graph.store.size := Nat.eq_of_lt_succ_of_not_lt (same ▸ inside) old
        have region : (g.node b.graph.store.size).region = none :=
          show (g.node b.graph.store.size).own.region = none by rw [own]; rfl
        have catchSuccs : (g.node b.graph.store.size).catchSuccs = [] :=
          show (g.node b.graph.store.size).own.catchSuccs = [] by rw [own]; rfl
        intro j
        rw [region,catchSuccs]
        simp

theorem shieldedOfMethod (made : ofMethod m = .ok g) : g.Shielded :=
  ⟨(fullOfMethod made).1,fun k member => .inl ((fullOfMethod made).2 k member)⟩

theorem trailSplit {last : Stmt} {e : NodeId} (coherent : g.Coherent) (member : i ∈ g.nodes)
    (start : e ∈ g.nodes) {k : NodeId} (way : g.Trail (fun _ => True) e k) :
    k ∈ g.nodes ∧ (g.split i last).Trail (fun _ => True) (if e = i then g.store.size else e)
      (if k = i then g.store.size else k) := by
  have normal : ∀ a b, _ → b ∈ ((g.split i last).node a).allSuccs := fun a b leads =>
    List.mem_append_left _ ((succsSplit coherent member).mpr leads).1
  have raised : ∀ a b, _ → b ∈ ((g.split i last).node a).allSuccs := fun a b leads =>
    List.mem_append_right _ ((catchSuccsSplit coherent member).mpr leads).1
  induction way with
  | stay fits => exact ⟨start,.stay trivial⟩
  | on way out fits ih =>
    rename_i a b
    obtain ⟨old,before⟩ := ih
    have place : ∀ is : List NodeId, b ∈ is →
        (if b = i then g.store.size else b) ∈ is ∧ (if b = i then g.store.size else b) ≠ i ∨
          (if b = i then g.store.size else b) = g.store.size ∧ i ∈ is := by
      intro is listed
      split
      · rename_i same
        exact .inr ⟨rfl,same ▸ listed⟩
      · rename_i other
        exact .inl ⟨listed,other⟩
    rcases List.mem_append.mp out with out | out
    · refine ⟨(coherent.normal.forth a old b out).1,?_⟩
      have leads := normal a _ (.inr ⟨old,place _ out⟩)
      by_cases same : a = i
      · subst same
        rw [if_pos rfl] at before
        exact .on (.on before (normal g.store.size a (.inl ⟨rfl,rfl⟩)) trivial) leads trivial
      · rw [if_neg same] at before
        exact .on before leads trivial
    · refine ⟨(coherent.raised.forth a old b out).1,?_⟩
      by_cases same : a = i
      · subst same
        rw [if_pos rfl] at before
        exact .on before (raised _ _ (.inl ⟨rfl,(handlersMem coherent member).mpr (place _ out)⟩)) trivial
      · rw [if_neg same] at before
        exact .on before (raised a _ (.inr ⟨old,fun here => absurd here same,place _ out⟩)) trivial

theorem reachableSplit {last : Stmt} (coherent : g.Coherent) (reachable : g.Reachable)
    (member : i ∈ g.nodes) : (g.split i last).Reachable := by
  have old : ∀ k ∈ g.nodes, ∃ e, (g.split i last).entry = some e ∧
      (g.split i last).Trail (fun _ => True) e (if k = i then g.store.size else k) := by
    intro k listed
    obtain ⟨e,entry,way⟩ := reachable k listed
    refine ⟨if e = i then g.store.size else e,?_,
      (trailSplit coherent member (coherent.entry e entry) way).2⟩
    rw [entrySplit,entry]
    rfl
  obtain ⟨e,entry,way⟩ := old i member
  rw [if_pos rfl] at way
  have test := ((@succsSplit g i coherent member last g.store.size i).mpr (.inl ⟨rfl,rfl⟩)).1
  intro k here
  rw [nodesSplit,List.mem_append,List.mem_singleton] at here
  by_cases same : k = i
  · rw [same]
    exact ⟨e,entry,.on way (List.mem_append_left _ test) trivial⟩
  · rcases here with listed | rfl
    · obtain ⟨e,entry,way⟩ := old k listed
      exact ⟨e,entry,by rwa [if_neg same] at way⟩
    · exact ⟨e,entry,way⟩

theorem reachableSplitTests (coherent : g.Coherent) (reachable : g.Reachable) : g.splitTests.Reachable := by
  have both : g.splitTests.Coherent ∧ g.splitTests.Reachable :=
    keptSplitTests (P := fun g => g.Coherent ∧ g.Reachable) (fun _ _ _ before member _ =>
      ⟨coherentSplit before.1 member,reachableSplit before.1 before.2 member⟩) ⟨coherent,reachable⟩
  exact both.2

theorem reachableSimplify (coherent : g.Coherent) (reachable : g.Reachable) : g.simplify.Reachable := by
  unfold simplify
  split
  · exact reachable
  · exact reachableRenumber (coherentSweeps _ coherent)

theorem reachableOfMethod (made : ofMethod m = .ok g) : g.Reachable := by
  rcases finishedOfMethod made with ⟨-,same⟩ | ⟨first,rest,more,b,-,-,-,finished⟩
  · rw [same]
    exact fun k member => absurd member List.not_mem_nil
  · exact finished.reachable

/-- A graph of the method after parting tests, simplifying and numbering, in any order and number. -/
inductive Tidied (m : Method) : Graph → Prop where
  | built {g : Graph} (made : ofMethod m = .ok g) : Tidied m g
  | parted {g : Graph} (before : Tidied m g) : Tidied m g.splitTests
  | simplified {g : Graph} (before : Tidied m g) : Tidied m g.simplify
  | numbered {g : Graph} (before : Tidied m g) : Tidied m g.renumber

theorem Tidied.kept (tidied : Tidied m g) : g.Shielded ∧ g.Reachable := by
  induction tidied with
  | built made => exact ⟨shieldedOfMethod made,reachableOfMethod made⟩
  | parted before ih =>
    exact ⟨shieldedSplitTests ih.1,reachableSplitTests ih.1.toCoherent ih.2⟩
  | simplified before ih => exact ⟨shieldedSimplify ih.1,reachableSimplify ih.1.toCoherent ih.2⟩
  | numbered before ih => exact ⟨shieldedRenumber ih.1,reachableRenumber ih.1.toCoherent⟩

theorem Shielded.handles (shielded : g.Shielded) (member : i ∈ g.nodes) {r : RegionId}
    (here : (g.node i).region = some r) {c : CatchEntry} (listed : c ∈ g.handlersOf r) :
    c.entry ∈ g.nodes ∧ (g.node c.entry).handler = true := by
  have coherent := shielded.toCoherent
  obtain ⟨p,there,leads⟩ : ∃ p ∈ g.nodes, c.entry ∈ (g.node p).catchSuccs := by
    rcases shielded.shields i member with full | ⟨p,stripped⟩
    · exact ⟨i,member,(full _).mpr ⟨r,here,c,listed,rfl⟩⟩
    · exact ⟨p,(stripped.front coherent member).1,
        (stripped.frontFull _).mpr ⟨r,stripped.frontRegion.trans here,c,listed,rfl⟩⟩
  exact ⟨(coherent.raised.forth p there _ leads).1,coherent.marked p there _ leads⟩

/-- The fields of the nodes tell of one graph: all of it can be reached, edges stand once at both of
their ends, those of a node are the ones that its kind and its region have, and the handlers of
regions in use are in the graph and marked. -/
theorem representation (tidied : Tidied m g) :
    (∀ i ∈ g.nodes, ∃ e, g.entry = some e ∧ g.Trail (fun _ => True) e i) ∧
      g.Paired (·.succs) (·.preds) ∧ g.Paired (·.catchSuccs) (·.catchPreds) ∧
      ∀ i ∈ g.nodes,
        ((g.node i).kind = .cond → ∃ t f, t ≠ f ∧ (g.node i).onTrue = some t ∧
          (g.node i).onFalse = some f ∧ ∀ j, j ∈ (g.node i).succs ↔ j = t ∨ j = f) ∧
        ((g.node i).kind = .switch → ((g.node i).cases.map (·.target)).Nodup ∧
          ∀ j, j ∈ (g.node i).succs ↔
            j ∈ (g.node i).cases.map (·.target) ∨ (g.node i).default = some j) ∧
        ((g.node i).kind = .ret ∨ (g.node i).kind = .throw → (g.node i).succs = []) ∧
        ((g.node i).kind = .stmt → (g.node i).succs.length ≤ 1) ∧
        ∀ r, (g.node i).region = some r →
          ((g.node i).kind = .stmt →
            ∀ j, j ∈ (g.node i).catchSuccs ↔ ∃ c ∈ g.handlersOf r, c.entry = j) ∧
          ∀ c ∈ g.handlersOf r, c.entry ∈ g.nodes ∧ (g.node c.entry).handler = true := by
  obtain ⟨shielded,reachable⟩ := tidied.kept
  refine ⟨reachable,shielded.normal,shielded.raised,fun i member => ?_⟩
  have formed := shielded.formed i member
  refine ⟨formed.cond,formed.switch,fun kind => formed.exits ?_,formed.stmt,fun r here =>
    ⟨fun kind j => ?_,fun c listed => shielded.handles member here listed⟩⟩
  · rcases kind with kind | kind <;> rw [kind] <;> rfl
  · rw [shielded.full member (by rw [kind]; exact ⟨nofun,nofun⟩) j,here]
    simp

end Graph

def Method.retried : Method where
  owner := "LTest;"
  name := "f"
  descriptor := "(I)V"
  access := ⟨9⟩
  registers := 1
  index := 0
  line := 0
  code := [
    { family := .invoke, width := 3, invoke := .static, type := "V", mnemonic := "invoke-static",
      method := some ⟨"LTest;","g",[],"V"⟩ },
    { family := .ifZero, width := 2, mnemonic := "if-eqz", offset := 3, regs := [0], target := 0 },
    { family := .returnVoid, mnemonic := "return-void", offset := 5 },
    { family := .returnVoid, mnemonic := "return-void", offset := 6 }]
  tries := [⟨0,5,[⟨"",6⟩]⟩]
  overlaps := []

namespace Graph

set_option maxRecDepth 100000 in
theorem retriedParted : (match ofMethod .retried with
    | .ok g =>
      let h := g.splitTests.simplify
      h.nodes.contains 0 && (h.node 0).kind == .cond && (h.node 0).region == some 0 &&
        (h.node 0).catchSuccs.isEmpty && h.handlersOf 0 == [⟨"",2⟩]
    | .error _ => false) = true := by
  simp -zeta only [ofMethod,Block.split,Block.starts,TryTable.ascending,simplify,renumber,reversePostorder,
    Flow.exploreNested,sortByHalves]
  decide +kernel

/-- The test of `retried` has lost its exceptional edges, but the handler of its region is there. -/
theorem representationRetried : ∃ g, ofMethod .retried = .ok g ∧
    (g.splitTests.simplify.node 0).kind = .cond ∧ (g.splitTests.simplify.node 0).catchSuccs = [] ∧
    2 ∈ g.splitTests.simplify.nodes ∧ (g.splitTests.simplify.node 2).handler = true ∧
    g.splitTests.simplify.Paired (·.catchSuccs) (·.catchPreds) := by
  have parted := retriedParted
  cases made : ofMethod .retried with
  | error fault =>
    rw [made] at parted
    contradiction
  | ok g =>
    simp only [made,Bool.and_eq_true,beq_iff_eq,List.isEmpty_iff,List.contains_iff_mem] at parted
    obtain ⟨⟨⟨⟨member,kind⟩,region⟩,none⟩,handlers⟩ := parted
    obtain ⟨-,-,raised,nodes⟩ := representation (.simplified (.parted (.built made)))
    obtain ⟨-,-,-,-,regions⟩ := nodes 0 member
    obtain ⟨here,marked⟩ := (regions 0 region).2 ⟨"",2⟩ (by simp [handlers])
    exact ⟨g,rfl,kind,none,here,marked,raised⟩

end Graph

end RegCode
