import RegCode.Proofs.Flow.Construction

/-! Blocks in the order in which building meets them. Every step but protection meets blocks, draws
edges and says what nodes hold, and leaves the regions alone. -/
namespace RegCode
namespace Flow

def Place (met : List Block) (i : NodeId) (o : Int) : Prop := ∃ k, met[i]? = some k ∧ k.start = o

theorem Place.more {met : List Block} {i : NodeId} {o : Int} (place : Place met i o)
    (more : List Block) : Place (met ++ more) i o := by
  obtain ⟨k,here,same⟩ := place
  refine ⟨k,?_,same⟩
  rwa [List.getElem?_append_left (List.getElem?_eq_some_iff.mp here).1]

theorem Place.unique {i : NodeId} {o o' : Int} (first : Place met i o) (second : Place met i o') :
    o = o' := by
  obtain ⟨k,here,rfl⟩ := first
  obtain ⟨k',there,rfl⟩ := second
  rw [Option.some.inj (here.symm.trans there)]

/-- Blocks in the order in which building has met them; the place of a block is the number of its
node. -/
structure Met (blocks met : List Block) (b : Builder) : Prop where
  known : ∀ o i, b.known.lookup o = some i ↔ Place met i o
  size : b.graph.store.size = met.length
  starts : ∀ i k, met[i]? = some k → (b.graph.node i).start = k.start
  inside : ∀ k ∈ met, k ∈ blocks

structure Spread (blocks met more : List Block) (b b' : Builder) : Prop where
  known : Met blocks (met ++ more) b'
  queue : b'.queue = b.queue ++ more
  table : b'.regions = b.regions
  regions : b'.graph.regions = b.graph.regions
  region : ∀ i, (b'.graph.node i).region = (b.graph.node i).region

variable {m : Method} {blocks met more : List Block} {b b' : Builder} {n : NodeId}

theorem Spread.trans {b₁ : Builder} {more' : List Block} (first : Spread blocks met more b b₁)
    (second : Spread blocks (met ++ more) more' b₁ b') : Spread blocks met (more ++ more') b b' where
  known := List.append_assoc met more more' ▸ second.known
  queue := by rw [second.queue,first.queue,List.append_assoc]
  table := second.table.trans first.table
  regions := second.regions.trans first.regions
  region i := (second.region i).trans (first.region i)

theorem Met.withGraph {h : Graph} (known : Met blocks met b)
    (size : h.store.size = b.graph.store.size) (starts : ∀ i, (h.node i).start = (b.graph.node i).start) :
    Met blocks met { b with graph := h } :=
  ⟨known.known,size.trans known.size,fun i k here => (starts i).trans (known.starts i k here),
    known.inside⟩

theorem Met.redraw {h : Graph} (known : Met blocks met b) (size : h.store.size = b.graph.store.size)
    (regions : h.regions = b.graph.regions) (starts : ∀ i, (h.node i).start = (b.graph.node i).start)
    (region : ∀ i, (h.node i).region = (b.graph.node i).region) :
    Spread blocks met [] b { b with graph := h } where
  known := (List.append_nil met).symm ▸ known.withGraph size starts
  queue := (List.append_nil _).symm
  table := rfl
  regions := regions
  region := region

theorem Met.refl (known : Met blocks met b) : Spread blocks met [] b b :=
  known.redraw rfl rfl (fun _ => rfl) fun _ => rfl

theorem Met.bounded (known : Met blocks met b) : met.length ≤ blocks.length := by
  have apart : (met.map (·.start)).Nodup := by
    rw [List.nodup_iff_getElem?_ne_getElem?]
    intro i j less inside same
    rw [List.length_map] at inside
    have here := List.getElem?_eq_getElem inside
    rw [List.getElem?_map,List.getElem?_map,here,List.getElem?_eq_getElem (Nat.lt_trans less inside)]
      at same
    have first := (known.known _ i).mpr ⟨_,List.getElem?_eq_getElem (Nat.lt_trans less inside),rfl⟩
    have second := (known.known _ j).mpr ⟨_,here,rfl⟩
    have starts : met[i].start = met[j].start := Option.some.inj same
    rw [starts,second] at first
    exact Nat.ne_of_gt less (Option.some.inj first)
  have subset : met.map (·.start) ⊆ blocks.map (·.start) := List.map_subset _ known.inside
  simpa using (List.subperm_of_subset apart subset).length_le

def Spreads (blocks : List Block) {α : Type} (w : Building α) : Prop :=
  ∀ b a b', Does w b a b' → ∀ met, Met blocks met b → ∃ more, Spread blocks met more b b'

namespace Spreads

variable {α β : Type} {w : Building α}

theorem pure (a : α) : Spreads blocks (Pure.pure a : Building α) := by
  intro b a' b' did met known
  obtain ⟨-,rfl⟩ := doesPure.mp did
  exact ⟨[],known.refl⟩

theorem bind {k : α → Building β} (first : Spreads blocks w) (second : ∀ a, Spreads blocks (k a)) :
    Spreads blocks (w >>= k) := by
  intro b c b' did met known
  obtain ⟨a,b₁,did,did'⟩ := doesBind.mp did
  obtain ⟨more,spread⟩ := first b a b₁ did met known
  obtain ⟨more',spread'⟩ := second a b₁ c b' did' _ spread.known
  exact ⟨_,spread.trans spread'⟩

theorem modify (n : NodeId) {f : Node → Node} (starts : ∀ x, (f x).start = x.start)
    (region : ∀ x, (f x).region = x.region) : Spreads blocks (modifyGraph (·.modify n f)) := by
  intro b a b' did met known
  cases doesModifyGraph.mp did
  refine ⟨[],known.redraw (b.graph.sizeModify n f) rfl (fun i => ?_) fun i => ?_⟩
  all_goals
    rw [Graph.nodeModify]
    split
  exacts [starts _,rfl,region _,rfl]

theorem addEdge (n t : NodeId) : Spreads blocks (modifyGraph (·.addEdge n t)) := by
  intro b a b' did met known
  cases doesModifyGraph.mp did
  have alike := b.graph.alikeAddEdge n t
  exact ⟨[],known.redraw alike.size alike.regions (fun i => (alike.nodes i).start) fun i =>
    (alike.nodes i).region⟩

theorem require (offset : Int) (t : Option NodeId) : Spreads blocks (Flow.require offset t) := by
  intro b a b' did met known
  obtain ⟨-,rfl⟩ := doesRequire.mp did
  exact ⟨[],known.refl⟩

end Spreads

theorem atAppended {block k : Block} {i : Nat} :
    (met ++ [block])[i]? = some k ↔ met[i]? = some k ∨ i = met.length ∧ block = k := by
  rw [List.getElem?_append]
  split
  · rename_i before
    exact ⟨.inl,fun h => h.elim id fun last => absurd last.1 (Nat.ne_of_lt before)⟩
  · rename_i beyond
    have beyond := Nat.le_of_not_lt beyond
    rw [List.getElem?_eq_none beyond,List.getElem?_singleton]
    have last : i - met.length = 0 ↔ i = met.length := by
      rw [Nat.sub_eq_zero_iff_le]
      exact ⟨fun within => Nat.le_antisymm within beyond,Nat.le_of_eq⟩
    simp [last]

theorem Met.meet {block : Block} (known : Met blocks met b)
    (fresh : b.known.lookup block.start = none) (inside : block ∈ blocks) :
    Spread blocks met [block] b
      { b with
        graph := (b.graph.addNode { start := block.start }).1
        known := (block.start,b.graph.store.size) :: b.known
        queue := b.queue ++ [block] } where
  known := by
    have absent : ∀ i, ¬Place met i block.start := fun i place => by
      rw [(known.known _ i).mpr place] at fresh
      contradiction
    refine ⟨fun o i => ?_,?_,fun i k here => ?_,fun k member => ?_⟩
    · have at_ : Place (met ++ [block]) i o ↔ Place met i o ∨ i = met.length ∧ block.start = o := by
        simp only [Place,atAppended,or_and_right,exists_or]
        simp
      rw [at_,List.lookup_cons,known.size]
      split
      · rename_i same
        obtain rfl : o = block.start := by simpa using same
        simp [absent,eq_comm]
      · rename_i other
        have other : ¬block.start = o := fun same => by simp [same] at other
        simp [known.known,other]
    · simp [Graph.addNode,known.size]
    · rw [Graph.nodeAddNode,known.size]
      rcases atAppended.mp here with old | ⟨rfl,rfl⟩
      · rw [if_neg (Nat.ne_of_lt (List.getElem?_eq_some_iff.mp old).1)]
        exact known.starts i k old
      · rw [if_pos rfl]
    · rcases List.mem_append.mp member with old | new
      · exact known.inside k old
      · exact List.mem_singleton.mp new ▸ inside
  queue := rfl
  table := rfl
  regions := rfl
  region i := by
    rw [Graph.nodeAddNode]
    split
    · rename_i last
      rw [Graph.nodeOutside (Nat.le_of_eq last.symm)]
    · rfl

theorem didVisitMet {offset : Int} {t : Option NodeId} (did : Does (visit blocks offset) b t b')
    (known : Met blocks met b) :
    ∃ more, Spread blocks met more b b' ∧ ∀ i ∈ t, Place (met ++ more) i offset := by
  simp only [visit,doesBind,doesGet] at did
  obtain ⟨_,_,⟨rfl,rfl⟩,did⟩ := did
  split at did
  · rename_i i found
    obtain ⟨rfl,rfl⟩ := doesPure.mp did
    refine ⟨[],known.refl,fun j same => ?_⟩
    cases Option.some.inj same
    exact ((known.known offset i).mp found).more []
  · rename_i fresh
    split at did
    · obtain ⟨rfl,rfl⟩ := doesPure.mp did
      exact ⟨[],known.refl,fun i member => absurd member (Option.not_mem_none i)⟩
    · rename_i block found
      simp only [doesBind,doesSet,doesPure] at did
      obtain ⟨_,_,rfl,rfl,rfl⟩ := did
      have start : block.start = offset := by simpa using List.find?_some found
      subst start
      refine ⟨[block],known.meet fresh (List.mem_of_find?_eq_some found),fun i same => ?_⟩
      obtain rfl := Option.some.inj same
      exact ⟨block,by simp [Graph.addNode,known.size],rfl⟩

namespace Spreads

theorem visit (offset : Int) : Spreads blocks (Flow.visit blocks offset) := fun _ _ _ did _ known =>
  (didVisitMet did known).imp fun _ => And.left

theorem visitNext (block : Block) : Spreads blocks (Flow.visitNext blocks block) := by
  unfold Flow.visitNext
  split
  · split
    · exact visit _
    · exact pure _
  · exact pure _

theorem link (n : NodeId) (t : Option NodeId) : Spreads blocks (Flow.link n t) := by
  cases t with
  | none => exact pure _
  | some t => exact addEdge n t

theorem linkCases (n : NodeId) (keys : List (Int × Int)) (cases : List SwitchCase) :
    Spreads blocks (Flow.linkCases blocks n keys cases) := by
  induction keys generalizing cases with
  | nil => exact pure _
  | cons key keys ih =>
    refine bind (visit _) fun t => ?_
    cases t with
    | none => exact ih _
    | some t => exact bind (addEdge n t) fun _ => ih _

theorem linkNode (n : NodeId) (block : Block) (last : Instruction) :
    Spreads blocks (Flow.linkNode blocks n block last) := by
  unfold Flow.linkNode
  split
  case h_1 | h_2 | h_3 => exact modify n (fun _ => rfl) fun _ => rfl
  case h_4 => exact bind (visit _) (link n)
  case h_5 | h_6 =>
    refine bind (visit _) fun t => bind (visit _) fun f => ?_
    split
    · exact bind (modify n (fun _ => rfl) fun _ => rfl) fun _ => link n t
    · exact bind (require _ t) fun i => bind (require _ f) fun j =>
        bind (modify n (fun _ => rfl) fun _ => rfl) fun _ => bind (addEdge n i) fun _ => addEdge n j
  case h_7 | h_8 =>
    refine bind (linkCases n _ _) fun cases => bind (modify n (fun _ => rfl) fun _ => rfl) fun _ =>
      bind (visit _) fun t => ?_
    cases t with
    | none => exact pure _
    | some t => exact bind (modify n (fun _ => rfl) fun _ => rfl) fun _ => addEdge n t
  case h_9 => exact bind (visitNext block) (link n)

theorem lowerBlock (m : Method) (block : Block) : Spreads blocks (Flow.lowerBlock m block) := by
  intro b ss b' did met known
  obtain ⟨vars,-,rfl⟩ := didLowerBlock did
  exact ⟨[],known.redraw rfl rfl (fun _ => rfl) fun _ => rfl⟩

end Spreads

theorem didEnterHandlersMet {hs : List Handler} {cs : List CatchEntry}
    (did : Does (enterHandlers blocks hs) b cs b') (known : Met blocks met b) :
    ∃ more, Spread blocks met more b b' ∧
      List.Forall₂ (fun c h => c.type = h.type ∧ Place (met ++ more) c.entry h.target) cs hs := by
  induction hs generalizing b cs met with
  | nil =>
    obtain ⟨rfl,rfl⟩ := doesPure.mp did
    exact ⟨[],known.refl,.nil⟩
  | cons h hs ih =>
    simp only [enterHandlers,doesBind,doesRequire,doesPure] at did
    obtain ⟨t,_,first,i,b₁,⟨rfl,rfl⟩,u,b₂,marked,more,_,rest,rfl,rfl⟩ := did
    obtain ⟨more₁,spread₁,at_⟩ := didVisitMet first known
    have marks : Spreads blocks (modifyGraph (·.modify i fun x => { x with handler := true })) :=
      .modify i (fun _ => rfl) fun _ => rfl
    obtain ⟨more₂,spread₂⟩ := marks _ _ _ marked _ spread₁.known
    obtain ⟨more₃,spread₃,lists⟩ := ih rest spread₂.known
    refine ⟨_,(spread₁.trans spread₂).trans (by rwa [← List.append_assoc]),.cons ⟨rfl,?_⟩ ?_⟩
    · have := ((at_ i rfl).more more₂).more more₃
      rwa [List.append_assoc,List.append_assoc,← List.append_assoc more₁] at this
    · rwa [← List.append_assoc,← List.append_assoc]

end Flow
end RegCode
