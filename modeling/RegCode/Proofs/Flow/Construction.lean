import RegCode.Flow.Build
import RegCode.Proofs.Flow.Edits
import RegCode.Proofs.Flow.Lowering
import RegCode.Proofs.Flow.Search

/-! What building keeps true. Every block that is met gets a node of its own, an edge leads to it
before the next block is lowered, and a node becomes a test only with a test of registers at its
end. -/
namespace RegCode

def Node.QuietTest (n : Node) : Prop :=
  n.kind = .cond → ∀ a, (n.stmts.map Stmt.act).getLast? = some a → a.canThrow = false

theorem Node.quietOfKind {n : Node} (other : n.kind ≠ .cond) : n.QuietTest :=
  fun kind => absurd kind other

theorem Node.Alike.quietTest {n m : Node} (alike : n.Alike m) (quiet : n.QuietTest) : m.QuietTest := by
  intro kind a last
  rw [alike.kind] at kind
  rw [alike.acts] at last
  exact quiet kind a last

theorem Graph.Trail.grow {g h : Graph} {ok : NodeId → Prop} {a b : NodeId} (way : g.Trail ok a b)
    (more : ∀ i j, j ∈ (g.node i).allSuccs → j ∈ (h.node i).allSuccs) : h.Trail ok a b := by
  induction way with
  | stay fits => exact .stay fits
  | on way out fits ih => exact .on ih (more _ _ out) fits

namespace Flow

/-- The first node leads there. -/
def Reached (g : Graph) (i : NodeId) : Prop := g.Trail (fun _ => True) 0 i

structure Laid (cur : Option NodeId) (loose : List NodeId) (b : Builder) : Prop where
  entry : b.graph.entry = some 0
  first : 0 < b.graph.store.size
  edges : b.graph.EdgesInside
  known : ∀ o i, b.known.lookup o = some i → i < b.graph.store.size
  apart : ∀ o o' i, b.known.lookup o = some i → b.known.lookup o' = some i → o = o'
  queued : ∀ k ∈ b.queue, ∃ i, b.known.lookup k.start = some i ∧ (b.graph.node i).kind = .stmt ∧
    cur ≠ some i
  starts : (b.queue.map (·.start)).Nodup
  reached : ∀ i < b.graph.store.size, i ∈ loose ∨ Reached b.graph i
  current : ∀ n, cur = some n → n < b.graph.store.size ∧ Reached b.graph n
  keyed : ∀ key r, b.regions.lookup key = some r → r < b.graph.regions.size
  inside : ∀ i r, (b.graph.node i).region = some r → r < b.graph.regions.size
  handlers : ∀ r ∈ b.graph.regions, ∀ h ∈ r.handlers, h.entry < b.graph.store.size
  tests : ∀ i, cur ≠ some i → (b.graph.node i).QuietTest

structure Grown (b b' : Builder) : Prop where
  size : b.graph.store.size ≤ b'.graph.store.size
  nodes : ∀ i < b.graph.store.size, (b.graph.node i).Alike (b'.graph.node i)

theorem Grown.refl (b : Builder) : Grown b b := ⟨Nat.le_refl _,fun _ _ => .refl _⟩

theorem Grown.trans {b b₁ b₂ : Builder} (first : Grown b b₁) (second : Grown b₁ b₂) : Grown b b₂ :=
  ⟨first.size.trans second.size,fun i inside =>
    (first.nodes i inside).trans (second.nodes i (Nat.lt_of_lt_of_le inside first.size))⟩

variable {m : Method} {blocks : List Block} {b b' : Builder} {cur : Option NodeId} {n : NodeId}
  {loose loose' : List NodeId}

@[simp] theorem doesModifyGraph {f : Graph → Graph} {u : Unit} :
    Does (modifyGraph f) b u b' ↔ b' = { b with graph := f b.graph } := by
  constructor
  · rintro ⟨⟩
    rfl
  · rintro rfl
    rfl

namespace Laid

theorem weaken (laid : Laid cur loose b) (more : ∀ i ∈ loose, i ∈ loose') : Laid cur loose' b :=
  { laid with reached := fun i inside => (laid.reached i inside).imp (more i) id }

theorem redraw {h : Graph} (laid : Laid cur loose b) (alike : b.graph.Alike h)
    (entry : h.entry = b.graph.entry) (inside : h.EdgesInside)
    (more : ∀ i j, j ∈ (b.graph.node i).allSuccs → j ∈ (h.node i).allSuccs)
    (rest : ∀ i ∈ loose, i ∈ loose' ∨ Reached h i) : Laid cur loose' { b with graph := h } where
  entry := entry.trans laid.entry
  first := alike.size ▸ laid.first
  edges := inside
  known o i found := alike.size ▸ laid.known o i found
  apart := laid.apart
  queued k member := by
    obtain ⟨i,found,kind,other⟩ := laid.queued k member
    exact ⟨i,found,(alike.nodes i).kind.trans kind,other⟩
  starts := laid.starts
  reached i inside := (laid.reached i (alike.size ▸ inside)).elim (rest i)
    fun way => .inr (way.grow more)
  current n here := ⟨alike.size ▸ (laid.current n here).1,(laid.current n here).2.grow more⟩
  keyed key r found := alike.regions ▸ laid.keyed key r found
  inside i r here := by
    rw [(alike.nodes i).region] at here
    exact alike.regions ▸ laid.inside i r here
  handlers r member h entry := by
    rw [alike.regions] at member
    exact alike.size ▸ laid.handlers r member h entry
  tests i other := (alike.nodes i).quietTest (laid.tests i other)

theorem join {h : Graph} {t : NodeId} (laid : Laid (some n) loose b) (alike : b.graph.Alike h)
    (entry : h.entry = b.graph.entry)
    (edges : ∀ i j, j ∈ (h.node i).allSuccs ↔ j ∈ (b.graph.node i).allSuccs ∨ i = n ∧ j = t)
    (inside : t < b.graph.store.size) (rest : ∀ i ∈ loose, i ∈ loose' ∨ i = t) :
    Laid (some n) loose' { b with graph := h } := by
  have more : ∀ i j, j ∈ (b.graph.node i).allSuccs → j ∈ (h.node i).allSuccs :=
    fun i j out => (edges i j).mpr (.inl out)
  refine laid.redraw alike entry (fun i j out => ?_) more fun i member => ?_
  · rw [alike.size]
    rcases (edges i j).mp out with old | ⟨-,rfl⟩
    · exact laid.edges i j old
    · exact inside
  · rcases rest i member with still | rfl
    · exact .inl still
    · exact .inr (.on ((laid.current n rfl).2.grow more) ((edges n i).mpr (.inr ⟨rfl,rfl⟩)) trivial)

theorem addEdge {t : NodeId} (laid : Laid (some n) loose b) (inside : t < b.graph.store.size)
    (rest : ∀ i ∈ loose, i ∈ loose' ∨ i = t) :
    Laid (some n) loose' { b with graph := b.graph.addEdge n t } :=
  laid.join (b.graph.alikeAddEdge n t) rfl (Graph.succsAddEdge (laid.current n rfl).1) inside rest

theorem addCatchEdge {t : NodeId} (laid : Laid (some n) loose b) (inside : t < b.graph.store.size)
    (rest : ∀ i ∈ loose, i ∈ loose' ∨ i = t) :
    Laid (some n) loose' { b with graph := b.graph.addCatchEdge n t } :=
  laid.join (b.graph.alikeAddCatchEdge n t) rfl (Graph.succsAddCatchEdge (laid.current n rfl).1) inside
    rest

theorem modify {f : Node → Node} (laid : Laid (some n) loose b)
    (edges : ∀ x, (f x).allSuccs = x.allSuccs)
    (region : ∀ x r, (f x).region = some r → x.region = some r ∨ r < b.graph.regions.size) :
    Laid (some n) loose { b with graph := b.graph.modify n f } := by
  have succs : ∀ i, ((b.graph.modify n f).node i).allSuccs = (b.graph.node i).allSuccs := by
    intro i
    rw [Graph.nodeModify]
    split
    · exact edges _
    · rfl
  have others : ∀ i, some n ≠ some i → (b.graph.modify n f).node i = b.graph.node i := by
    intro i other
    rw [Graph.nodeModify,if_neg fun here => other (congrArg some here.1)]
  have more : ∀ i j, j ∈ (b.graph.node i).allSuccs → j ∈ ((b.graph.modify n f).node i).allSuccs :=
    fun i j out => (succs i).symm ▸ out
  have size := b.graph.sizeModify n f
  exact {
    entry := laid.entry
    first := size.symm ▸ laid.first
    edges := fun i j out => size.symm ▸ laid.edges i j (succs i ▸ out)
    known := fun o i found => size.symm ▸ laid.known o i found
    apart := laid.apart
    queued := fun k member => by
      obtain ⟨i,found,kind,other⟩ := laid.queued k member
      exact ⟨i,found,(congrArg Node.kind (others i other)).trans kind,other⟩
    starts := laid.starts
    reached := fun i inside => (laid.reached i (size ▸ inside)).imp id fun way => way.grow more
    current := fun i here => ⟨size.symm ▸ (laid.current i here).1,(laid.current i here).2.grow more⟩
    keyed := laid.keyed
    inside := fun i r here => by
      rw [Graph.nodeModify] at here
      split at here
      · exact (region _ r here).elim (laid.inside i r) id
      · exact laid.inside i r here
    handlers := fun r member h entry => size.symm ▸ laid.handlers r member h entry
    tests := fun i other => by
      rw [others i other]
      exact laid.tests i other }

theorem start (block : Block) {g : Graph} (entry : g.entry = some 0)
    (store : g.store = #[{ start := block.start }]) (regions : g.regions = #[]) :
    Laid none [] { graph := g, known := [(block.start,0)], queue := [block] } := by
  have size : g.store.size = 1 := by rw [store]; rfl
  have plain : ∀ i, (g.node i).kind = .stmt ∧ (g.node i).allSuccs = [] ∧ (g.node i).region = none := by
    intro i
    rw [Graph.node,store]
    cases i <;> exact ⟨rfl,rfl,rfl⟩
  have only : ∀ o i, [(block.start,0)].lookup o = some i → o = block.start ∧ i = 0 := by
    intro o i found
    rw [List.lookup_cons] at found
    split at found
    · rename_i here
      exact ⟨by simpa using here,(Option.some.inj found).symm⟩
    · contradiction
  refine ⟨entry,size ▸ Nat.one_pos,fun i j out => ?_,fun o i found => ?_,fun o o' i left right => ?_,
    fun k member => ?_,by simp,fun i inside => ?_,by simp,by simp,fun i r here => ?_,?_,fun i _ => ?_⟩
  · rw [(plain i).2.1] at out
    contradiction
  · rw [(only o i found).2,size]
    exact Nat.one_pos
  · exact (only o i left).1.trans (only o' i right).1.symm
  · cases List.mem_singleton.mp member
    exact ⟨0,by simp,(plain 0).1,by simp⟩
  · obtain rfl : i = 0 := Nat.lt_one_iff.mp (size ▸ inside)
    exact .inr (.stay trivial)
  · rw [(plain i).2.2] at here
    contradiction
  · rw [regions]
    exact fun r member => absurd member (Array.not_mem_empty r)
  · intro kind
    rw [(plain i).1] at kind
    contradiction

theorem meet {block : Block} (laid : Laid cur loose b) (fresh : b.known.lookup block.start = none) :
    Laid cur (b.graph.store.size :: loose)
      { b with
        graph := (b.graph.addNode { start := block.start }).1
        known := (block.start,b.graph.store.size) :: b.known
        queue := b.queue ++ [block] } := by
  obtain ⟨g,same⟩ : ∃ g, (b.graph.addNode { start := block.start }).1 = g := ⟨_,rfl⟩
  have size : g.store.size = b.graph.store.size + 1 := by rw [← same]; simp [Graph.addNode]
  have regions : g.regions = b.graph.regions := by rw [← same]; rfl
  have nodes : ∀ i, g.node i = if i = b.graph.store.size then { start := block.start } else
      b.graph.node i := fun i => by rw [← same,Graph.nodeAddNode]
  have more : ∀ i j, j ∈ (b.graph.node i).allSuccs → j ∈ (g.node i).allSuccs := by
    intro i j out
    rw [nodes]
    split
    · rename_i last
      rw [Graph.nodeOutside (Nat.le_of_eq last.symm)] at out
      contradiction
    · exact out
  have fewer : ∀ o i, ((block.start,b.graph.store.size) :: b.known).lookup o = some i →
      o = block.start ∧ i = b.graph.store.size ∨
        b.known.lookup o = some i ∧ i < b.graph.store.size := by
    intro o i found
    rw [List.lookup_cons] at found
    split at found
    · rename_i here
      exact .inl ⟨by simpa using here,(Option.some.inj found).symm⟩
    · exact .inr ⟨found,laid.known o i found⟩
  rw [same]
  refine ⟨same ▸ laid.entry,size ▸ Nat.succ_pos _,fun i j out => ?_,fun o i found => ?_,fun o o' i left right => ?_,fun k member => ?_,?_,
    fun i inside => ?_,fun i here => ?_,fun key r found => ?_,fun i r here => ?_,
    fun r member h entry => ?_,fun i other => ?_⟩
  · rw [nodes] at out
    split at out
    · contradiction
    · exact size ▸ Nat.lt_succ_of_lt (laid.edges i j out)
  · rcases fewer o i found with ⟨-,rfl⟩ | ⟨-,old⟩
    · exact size ▸ Nat.lt_succ_self _
    · exact size ▸ Nat.lt_succ_of_lt old
  · rcases fewer o i left with ⟨rfl,rfl⟩ | ⟨before,old⟩ <;>
      rcases fewer o' _ right with ⟨rfl,same⟩ | ⟨before',old'⟩
    · rfl
    · exact absurd old' (Nat.lt_irrefl _)
    · exact absurd old (same ▸ Nat.lt_irrefl _)
    · exact laid.apart o o' i before before'
  · rcases List.mem_append.mp member with old | new
    · obtain ⟨i,found,kind,other⟩ := laid.queued k old
      have inside := laid.known _ i found
      refine ⟨i,?_,?_,other⟩
      · rw [List.lookup_cons]
        split
        · rename_i here
          rw [beq_iff_eq.mp here,fresh] at found
          contradiction
        · exact found
      · rw [nodes,if_neg (Nat.ne_of_lt inside)]
        exact kind
    · cases List.mem_singleton.mp new
      refine ⟨b.graph.store.size,by simp,by rw [nodes,if_pos rfl],fun here => ?_⟩
      exact Nat.lt_irrefl _ (laid.current _ here).1
  · rw [List.map_append,List.nodup_append]
    refine ⟨laid.starts,by simp,fun o old o' new same => ?_⟩
    obtain ⟨k,member,rfl⟩ := List.mem_map.mp old
    obtain ⟨i,found,-,-⟩ := laid.queued k member
    rw [same,List.mem_singleton.mp new,fresh] at found
    contradiction
  · rcases Nat.lt_succ_iff_lt_or_eq.mp (size ▸ inside) with old | rfl
    · exact (laid.reached i old).imp (List.mem_cons_of_mem _) fun way => way.grow more
    · exact .inl (List.mem_cons_self ..)
  · exact ⟨size ▸ Nat.lt_succ_of_lt (laid.current i here).1,(laid.current i here).2.grow more⟩
  · exact regions ▸ laid.keyed key r found
  · rw [nodes] at here
    split at here
    · contradiction
    · exact regions ▸ laid.inside i r here
  · exact size ▸ Nat.lt_succ_of_lt (laid.handlers r (regions ▸ member) h entry)
  · rw [nodes]
    split
    · intro kind
      contradiction
    · exact laid.tests i other

theorem addRegion {cs : List CatchEntry} {key : String} (laid : Laid cur loose b)
    (entries : ∀ c ∈ cs, c.entry < b.graph.store.size) :
    Laid cur loose
      { b with
        graph := { b.graph with regions := b.graph.regions.push ⟨cs,none⟩ }
        regions := (key,b.graph.regions.size) :: b.regions } where
  entry := laid.entry
  first := laid.first
  edges := laid.edges
  known := laid.known
  apart := laid.apart
  queued := laid.queued
  starts := laid.starts
  reached i inside := (laid.reached i inside).imp id fun way => way.grow fun _ _ => id
  current i here := ⟨(laid.current i here).1,(laid.current i here).2.grow fun _ _ => id⟩
  keyed key r found := by
    rw [List.lookup_cons] at found
    rw [Array.size_push]
    split at found
    · cases Option.some.inj found
      exact Nat.lt_succ_self _
    · exact Nat.lt_succ_of_lt (laid.keyed key r found)
  inside i r here := by
    rw [Array.size_push]
    exact Nat.lt_succ_of_lt (laid.inside i r here)
  handlers r member := by
    rcases Array.mem_push.mp member with old | rfl
    · exact laid.handlers r old
    · exact entries
  tests := laid.tests

end Laid

theorem didVisit {offset : Int} {t : Option NodeId} (did : Does (visit blocks offset) b t b')
    (laid : Laid cur loose b) :
    Laid cur (t.toList ++ loose) b' ∧ Grown b b' ∧ ∀ i ∈ t, i < b'.graph.store.size := by
  simp only [visit,doesBind,doesGet] at did
  obtain ⟨_,_,⟨rfl,rfl⟩,did⟩ := did
  split at did
  · rename_i i found
    obtain ⟨rfl,rfl⟩ := doesPure.mp did
    refine ⟨laid.weaken fun j member => List.mem_append_right _ member,.refl _,fun j same => ?_⟩
    cases Option.some.inj same
    exact laid.known offset i found
  · rename_i fresh
    split at did
    · obtain ⟨rfl,rfl⟩ := doesPure.mp did
      exact ⟨laid,.refl _,fun i member => absurd member (Option.not_mem_none i)⟩
    · rename_i block found
      simp only [doesBind,doesSet,doesPure] at did
      obtain ⟨_,_,rfl,rfl,rfl⟩ := did
      have start : block.start = offset := by simpa using List.find?_some found
      subst start
      refine ⟨laid.meet fresh,⟨?_,fun i inside => ?_⟩,fun i same => ?_⟩
      · simp [Graph.addNode]
      · rw [Graph.nodeAddNode,if_neg (Nat.ne_of_lt inside)]
        exact .refl _
      · cases Option.some.inj same
        simp [Graph.addNode]

theorem didVisitFirst {first : Block} {rest : List Block} {vars : VarTable} {params : List VarId}
    {t : Option NodeId}
    (did : Does (visit (first :: rest) first.start) { graph := { vars, params } } t b) :
    t = some 0 ∧ b =
      { graph := { vars, params, store := #[{ start := first.start }], nodes := [0] }
        known := [(first.start,0)]
        queue := [first] } := by
  simp only [visit,doesBind,doesGet] at did
  obtain ⟨_,_,⟨rfl,rfl⟩,did⟩ := did
  simp only [List.lookup_nil,List.find?_cons,beq_self_eq_true,doesBind,doesSet,doesPure] at did
  obtain ⟨_,_,rfl,rfl,rfl⟩ := did
  exact ⟨rfl,rfl⟩

@[simp] theorem doesRequire {offset : Int} {t : Option NodeId} {i : NodeId} :
    Does (require offset t) b i b' ↔ t = some i ∧ b' = b := by
  cases t with
  | none => exact ⟨fun did => absurd did doesThrow,nofun⟩
  | some j =>
    rw [require,doesPure]
    exact and_congr_left' ⟨fun h => h ▸ rfl,fun h => (Option.some.inj h).symm⟩

theorem didLink {t : Option NodeId} {u : Unit} (did : Does (link n t) b u b')
    (laid : Laid (some n) (t.toList ++ loose) b) (inside : ∀ i ∈ t, i < b.graph.store.size) :
    Laid (some n) loose b' ∧ Grown b b' := by
  cases t with
  | none =>
    obtain ⟨-,rfl⟩ := doesPure.mp did
    exact ⟨laid,.refl _⟩
  | some t =>
    simp only [link,doesModifyGraph] at did
    subst did
    have alike := b.graph.alikeAddEdge n t
    refine ⟨laid.addEdge (inside t rfl) fun i member => ?_,Nat.le_of_eq alike.size.symm,
      fun i _ => alike.nodes i⟩
    exact (List.mem_cons.mp member).symm

theorem didEnterHandlers {hs : List Handler} {cs : List CatchEntry}
    (did : Does (enterHandlers blocks hs) b cs b') (laid : Laid cur loose b) :
    Laid cur (cs.map (·.entry) ++ loose) b' ∧ Grown b b' ∧
      ∀ c ∈ cs, c.entry < b'.graph.store.size := by
  induction hs generalizing b cs loose with
  | nil =>
    obtain ⟨rfl,rfl⟩ := doesPure.mp did
    exact ⟨laid,.refl _,nofun⟩
  | cons h hs ih =>
    simp only [enterHandlers,doesBind,doesRequire,doesModifyGraph,doesPure] at did
    obtain ⟨t,_,first,i,b₁,⟨rfl,rfl⟩,_,_,rfl,more,_,rest,rfl,rfl⟩ := did
    obtain ⟨laid₁,grown₁,inside⟩ := didVisit first laid
    have alike : b₁.graph.Alike (b₁.graph.modify i fun x => { x with handler := true }) := by
      refine b₁.graph.alikeModify i ?_
      exact fun _ => ⟨rfl,rfl,rfl,rfl⟩
    have succs : ∀ j, ((b₁.graph.modify i fun x => { x with handler := true }).node j).allSuccs =
        (b₁.graph.node j).allSuccs := by
      intro j
      rw [Graph.nodeModify]
      split <;> rfl
    have laid₂ : Laid cur (i :: loose) { b₁ with graph := _ } := laid₁.redraw alike rfl
      (fun j k out => alike.size.symm ▸ laid₁.edges j k (succs j ▸ out))
      (fun j k out => (succs j).symm ▸ out) fun _ member => .inl member
    have grown₂ : Grown b₁ { b₁ with graph := _ } :=
      ⟨Nat.le_of_eq alike.size.symm,fun j _ => alike.nodes j⟩
    obtain ⟨laid₃,grown₃,entries⟩ := ih rest laid₂
    refine ⟨laid₃.weaken fun j member => ?_,(grown₁.trans grown₂).trans grown₃,fun c member => ?_⟩
    · simp only [List.map_cons,List.cons_append,List.mem_cons,List.mem_append] at member ⊢
      tauto
    · rcases List.mem_cons.mp member with rfl | member
      · exact Nat.lt_of_lt_of_le (inside i rfl) (grown₂.size.trans grown₃.size)
      · exact entries c member

theorem didRegionOf {t : TryRange} {r : RegionId} (did : Does (regionOf blocks t) b r b')
    (laid : Laid cur [] b) :
    r < b'.graph.regions.size ∧ Grown b b' ∧
      Laid cur (((b'.graph.regions[r]?.map (·.handlers)).getD []).map (·.entry)) b' := by
  simp only [regionOf,doesBind,doesGet] at did
  obtain ⟨_,_,⟨rfl,rfl⟩,did⟩ := did
  split at did
  · rename_i q found
    obtain ⟨rfl,rfl⟩ := doesPure.mp did
    exact ⟨laid.keyed _ _ found,.refl _,laid.weaken fun i member => absurd member List.not_mem_nil⟩
  · simp only [doesBind,doesSet,doesPure,doesGet] at did
    obtain ⟨cs,_,entered,_,b₁,⟨rfl,rfl⟩,_,_,rfl,rfl,rfl⟩ := did
    obtain ⟨laid₁,grown₁,entries⟩ := didEnterHandlers entered laid
    rw [List.append_nil] at laid₁
    refine ⟨by simp,⟨grown₁.size,grown₁.nodes⟩,?_⟩
    simp only [Array.getElem?_push,if_true,Option.map_some,Option.getD_some]
    exact laid₁.addRegion entries

theorem Laid.addCatchEdges {hs : List CatchEntry} (laid : Laid (some n) (hs.map (·.entry)) b)
    (inside : ∀ h ∈ hs, h.entry < b.graph.store.size) :
    ∃ g, hs.foldl (fun g h => g.addCatchEdge n h.entry) b.graph = g ∧
      Laid (some n) [] { b with graph := g } ∧ b.graph.Alike g := by
  induction hs generalizing b with
  | nil => exact ⟨b.graph,rfl,laid,.refl _⟩
  | cons h hs ih =>
    have alike := b.graph.alikeAddCatchEdge n h.entry
    have laid₁ : Laid (some n) (hs.map (·.entry)) { b with graph := _ } :=
      laid.addCatchEdge (inside h (List.mem_cons_self ..)) fun i member => (List.mem_cons.mp member).symm
    obtain ⟨g,drawn,laid₂,alike₂⟩ := ih laid₁ fun k member =>
      alike.size.symm ▸ inside k (List.mem_cons_of_mem h member)
    exact ⟨g,drawn,laid₂,alike.trans alike₂⟩

theorem didProtect {block : Block} {u : Unit} (did : Does (protect m blocks n block) b u b')
    (laid : Laid (some n) [] b) :
    Laid (some n) [] b' ∧ ((b.graph.node n).QuietTest → (b'.graph.node n).QuietTest) := by
  unfold protect at did
  split at did
  · obtain ⟨-,rfl⟩ := doesPure.mp did
    exact ⟨laid,id⟩
  · simp only [doesBind,doesModifyGraph] at did
    obtain ⟨r,b₁,region,_,_,rfl,rfl⟩ := did
    obtain ⟨inside,grown,laid₁⟩ := didRegionOf region laid
    have laid₂ := laid₁.modify (f := fun x => { x with region := some r }) (fun _ => rfl)
      fun x q here => .inr (Option.some.inj here ▸ inside)
    have entries : ∀ h ∈ (b₁.graph.regions[r]?.map (·.handlers)).getD [],
        h.entry < b₁.graph.store.size := by
      rw [Array.getElem?_eq_getElem inside]
      exact laid₁.handlers _ (Array.getElem_mem inside)
    have size := b₁.graph.sizeModify n fun x => { x with region := some r }
    obtain ⟨g,drawn,laid₃,alike⟩ := laid₂.addCatchEdges fun h member => size.symm ▸ entries h member
    have same : ∀ x : Node, x.QuietTest → { x with region := some r }.QuietTest := fun x => id
    refine ⟨drawn ▸ laid₃,fun quiet => ?_⟩
    have before := (grown.nodes n (laid.current n rfl).1).quietTest quiet
    have after : ((b₁.graph.modify n fun x => { x with region := some r }).node n).QuietTest := by
      rw [Graph.nodeModify]
      split
      · exact before
      · exact before
    rw [show (b₁.graph.modify n fun x => { x with region := some r }).regions = b₁.graph.regions from rfl]
    exact drawn ▸ (alike.nodes n).quietTest after

theorem didLinkCases {keys : List (Int × Int)} {cases cases' : List SwitchCase}
    (did : Does (linkCases blocks n keys cases) b cases' b') (laid : Laid (some n) [] b) :
    Laid (some n) [] b' ∧ Grown b b' := by
  induction keys generalizing b cases with
  | nil =>
    obtain ⟨-,rfl⟩ := doesPure.mp did
    exact ⟨laid,.refl _⟩
  | cons key keys ih =>
    simp only [linkCases,doesBind] at did
    obtain ⟨t,b₁,visited,did⟩ := did
    obtain ⟨laid₁,grown₁,inside⟩ := didVisit visited laid
    split at did
    · obtain ⟨laid₂,grown₂⟩ := ih did laid₁
      exact ⟨laid₂,grown₁.trans grown₂⟩
    · rename_i t
      simp only [doesBind,doesModifyGraph] at did
      obtain ⟨_,_,rfl,did⟩ := did
      have linked : Does (link n (some t)) b₁ () { b₁ with graph := b₁.graph.addEdge n t } := by
        simp only [link,doesModifyGraph]
      obtain ⟨laid₂,grown₂⟩ := didLink linked laid₁ inside
      obtain ⟨laid₃,grown₃⟩ := ih did laid₂
      exact ⟨laid₃,(grown₁.trans grown₂).trans grown₃⟩

theorem Grown.kind (grown : Grown b b') (laid : Laid (some n) loose b) :
    (b'.graph.node n).kind = (b.graph.node n).kind := (grown.nodes n (laid.current n rfl).1).kind

theorem Laid.nodeOfModify (laid : Laid (some n) loose b) (f : Node → Node) :
    (b.graph.modify n f).node n = f (b.graph.node n) := by
  rw [Graph.nodeModify,if_pos ⟨rfl,(laid.current n rfl).1⟩]

theorem didVisitNext {block : Block} {t : Option NodeId} (did : Does (visitNext blocks block) b t b')
    (laid : Laid cur loose b) :
    Laid cur (t.toList ++ loose) b' ∧ Grown b b' ∧ ∀ i ∈ t, i < b'.graph.store.size := by
  unfold visitNext at did
  split at did
  · split at did
    · exact didVisit did laid
    · obtain ⟨rfl,rfl⟩ := doesPure.mp did
      exact ⟨laid,.refl _,nofun⟩
  · obtain ⟨rfl,rfl⟩ := doesPure.mp did
    exact ⟨laid,.refl _,nofun⟩

theorem didLinkTest {last : Instruction} {block : Block} {u : Unit} (test : Lower.IsTest last)
    (did : Does (linkNode blocks n block last) b u b') (laid : Laid (some n) [] b)
    (kind : (b.graph.node n).kind = .stmt)
    (quiet : ∀ a, ((b.graph.node n).stmts.map Stmt.act).getLast? = some a → a.canThrow = false) :
    Laid (some n) [] b' ∧ (b'.graph.node n).QuietTest := by
  have steps : ∃ t b₁ f b₂, Does (visit blocks last.target) b t b₁ ∧
      Does (visitFall blocks block) b₁ f b₂ ∧
      ((t = f ∧ ∃ b₃, b₃ = { b₂ with
          graph := b₂.graph.modify n fun x => { x with stmts := x.stmts.dropLast } } ∧
        Does (link n t) b₃ u b') ∨
      ∃ i j, t = some i ∧ f = some j ∧ b' = { b₂ with
        graph := ((b₂.graph.modify n fun x =>
          { x with kind := .cond, onTrue := some i, onFalse := some j }).addEdge n i).addEdge n j }) := by
    unfold linkNode at did
    rcases test with family | family
    all_goals
      simp only [family,doesBind] at did
      obtain ⟨t,b₁,first,f,b₂,second,did⟩ := did
      refine ⟨t,b₁,f,b₂,first,second,?_⟩
      split at did
      · rename_i same
        simp only [doesBind,doesModifyGraph] at did
        obtain ⟨_,b₃,opened,linked⟩ := did
        exact .inl ⟨same,b₃,opened,linked⟩
      · simp only [doesBind,doesModifyGraph,doesRequire] at did
        obtain ⟨i,_,⟨here,rfl⟩,j,_,⟨there,rfl⟩,_,_,rfl,_,_,rfl,rfl⟩ := did
        exact .inr ⟨i,j,here,there,rfl⟩
  obtain ⟨t,b₁,f,b₂,first,second,rest⟩ := steps
  obtain ⟨laid₁,grown₁,insideTrue⟩ := didVisit first laid
  obtain ⟨laid₂,grown₂,insideFalse⟩ := didVisit second laid₁
  have grown := grown₁.trans grown₂
  rcases rest with ⟨rfl,b₃,rfl,linked⟩ | ⟨i,j,rfl,rfl,rfl⟩
  · have once : Laid (some n) (t.toList ++ []) b₂ := laid₂.weaken fun i member => by
      simpa using member
    have laid₃ := once.modify (f := fun x => { x with stmts := x.stmts.dropLast }) (fun _ => rfl)
      fun _ _ => .inl
    obtain ⟨laid₄,grown₄⟩ := didLink linked laid₃ fun i same => by simpa using insideFalse i same
    refine ⟨laid₄,Node.quietOfKind ?_⟩
    rw [grown₄.kind laid₃,laid₂.nodeOfModify]
    simp [grown.kind laid,kind]
  · have insideTrue := Nat.lt_of_lt_of_le (insideTrue i rfl) grown₂.size
    have laid₃ := laid₂.modify (f := fun x =>
      { x with kind := .cond, onTrue := some i, onFalse := some j }) (fun _ => rfl) fun _ _ => .inl
    have laid₄ : Laid (some n) [j] { b₂ with graph := _ } :=
      laid₃.addEdge (t := i) (by simpa using insideTrue) (by simp [or_comm])
    have laid₅ : Laid (some n) [] { b₂ with graph := _ } :=
      laid₄.addEdge (t := j) (by simpa [Graph.addEdge] using insideFalse j rfl) (by simp)
    have drawn : ∀ g : Graph, (g.node n).QuietTest → (((g.addEdge n i).addEdge n j).node n).QuietTest :=
      fun g => (((g.alikeAddEdge n i).trans (Graph.alikeAddEdge _ n j)).nodes n).quietTest
    refine ⟨laid₅,drawn _ ?_⟩
    rw [laid₂.nodeOfModify]
    intro _ a last
    exact quiet a ((grown.nodes n (laid.current n rfl).1).acts ▸ last)

theorem didLinkNode {last : Instruction} {block : Block} {u : Unit}
    (did : Does (linkNode blocks n block last) b u b') (laid : Laid (some n) [] b)
    (kind : (b.graph.node n).kind = .stmt)
    (quiet : Lower.IsTest last →
      ∀ a, ((b.graph.node n).stmts.map Stmt.act).getLast? = some a → a.canThrow = false) :
    Laid (some n) [] b' ∧ (b'.graph.node n).QuietTest := by
  by_cases test : Lower.IsTest last
  · exact didLinkTest test did laid kind (quiet test)
  · unfold linkNode at did
    split at did
    case h_1 | h_2 | h_3 =>
      simp only [doesModifyGraph] at did
      subst did
      refine ⟨laid.modify (fun _ => rfl) fun _ _ => .inl,Node.quietOfKind ?_⟩
      simp [laid.nodeOfModify]
    case h_4 =>
      simp only [doesBind] at did
      obtain ⟨t,b₁,visited,linked⟩ := did
      obtain ⟨laid₁,grown₁,inside⟩ := didVisit visited laid
      obtain ⟨laid₂,grown₂⟩ := didLink linked laid₁ inside
      refine ⟨laid₂,Node.quietOfKind ?_⟩
      simp [(grown₁.trans grown₂).kind laid,kind]
    case h_5 family | h_6 family => exact absurd (by simp [Lower.IsTest,family]) test
    case h_7 | h_8 =>
      simp only [doesBind,doesModifyGraph] at did
      obtain ⟨cases,b₁,linked,_,b₂,opened,t,b₃,visited,did⟩ := did
      subst opened
      obtain ⟨laid₁,grown₁⟩ := didLinkCases linked laid
      have laid₂ := laid₁.modify (f := fun x =>
        { x with kind := .switch, cases := cases.map sortKeys }) (fun _ => rfl) fun _ _ => .inl
      obtain ⟨laid₃,grown₃,inside⟩ := didVisit visited laid₂
      have switch : (b₃.graph.node n).kind = .switch := by
        rw [grown₃.kind laid₂,laid₁.nodeOfModify]
      split at did
      · rename_i t
        simp only [doesBind,doesModifyGraph] at did
        obtain ⟨_,_,rfl,rfl⟩ := did
        have laid₄ := laid₃.modify (f := fun x => { x with default := some t }) (fun _ => rfl)
          fun _ _ => .inl
        refine ⟨laid₄.addEdge (by simpa using inside t rfl) (by simp),Node.quietOfKind ?_⟩
        rw [((Graph.alikeAddEdge _ n t).nodes n).kind,laid₃.nodeOfModify]
        simp [switch]
      · obtain ⟨-,rfl⟩ := doesPure.mp did
        exact ⟨laid₃,Node.quietOfKind (by simp [switch])⟩
    case h_9 =>
      simp only [doesBind] at did
      obtain ⟨t,b₁,visited,linked⟩ := did
      obtain ⟨laid₁,grown₁,inside⟩ := didVisitNext visited laid
      obtain ⟨laid₂,grown₂⟩ := didLink linked laid₁ inside
      refine ⟨laid₂,Node.quietOfKind ?_⟩
      simp [(grown₁.trans grown₂).kind laid,kind]

theorem Laid.pop {block : Block} {rest : List Block} (laid : Laid none [] b)
    (next : b.queue = block :: rest) :
    ∃ n, b.known.lookup block.start = some n ∧ (b.graph.node n).kind = .stmt ∧
      Laid (some n) [] { b with queue := rest } := by
  obtain ⟨n,found,kind,-⟩ := laid.queued block (next ▸ List.mem_cons_self ..)
  refine ⟨n,found,kind,{ laid with
    queued := fun k member => ?_
    starts := ?_
    current := fun i here => ?_
    tests := fun i _ => laid.tests i nofun }⟩
  · obtain ⟨i,there,kind,-⟩ := laid.queued k (next ▸ List.mem_cons_of_mem block member)
    refine ⟨i,there,kind,fun same => ?_⟩
    cases same
    have twice := laid.apart _ _ _ found there
    have starts := laid.starts
    rw [next,List.map_cons,List.nodup_cons] at starts
    exact starts.1 (twice ▸ List.mem_map_of_mem member)
  · have starts := laid.starts
    rw [next,List.map_cons,List.nodup_cons] at starts
    exact starts.2
  · cases here
    have inside := laid.known _ _ found
    exact ⟨inside,(laid.reached n inside).resolve_left List.not_mem_nil⟩

theorem Laid.close (laid : Laid (some n) [] b) (quiet : (b.graph.node n).QuietTest) :
    Laid none [] b :=
  { laid with
    queued := fun k member => by
      obtain ⟨i,found,kind,-⟩ := laid.queued k member
      exact ⟨i,found,kind,nofun⟩
    current := nofun
    tests := fun i _ => by
      by_cases here : i = n
      · exact here ▸ quiet
      · exact laid.tests i fun same => here (Option.some.inj same).symm }

theorem didLowerBlock {block : Block} {ss : List Stmt} (did : Does (lowerBlock m block) b ss b') :
    ∃ vars, Does (Lower.block m block.insts) b.graph.vars ss vars ∧
      b' = { b with graph := { b.graph with vars } } := by
  simp only [lowerBlock,doesBind,doesGet] at did
  obtain ⟨_,_,⟨rfl,rfl⟩,did⟩ := did
  split at did
  · exact absurd did doesThrow
  · rename_i lowered
    simp only [doesBind,doesSet,doesPure] at did
    obtain ⟨_,_,rfl,rfl,rfl⟩ := did
    exact ⟨_,lowered,rfl⟩

theorem didBuildNode {block : Block} {rest : List Block} {u : Unit} (laid : Laid none [] b)
    (next : b.queue = block :: rest)
    (did : Does (buildNode m blocks block) { b with queue := rest } u b') : Laid none [] b' := by
  obtain ⟨n,found,kind,laid⟩ := laid.pop next
  unfold buildNode at did
  simp only [doesBind,doesGet] at did
  obtain ⟨_,_,⟨rfl,rfl⟩,did⟩ := did
  simp only [found,doesBind,doesModifyGraph] at did
  obtain ⟨ss,b₁,stated,_,b₂,rfl,did⟩ := did
  obtain ⟨vars,lowered,rfl⟩ := didLowerBlock stated
  have laid₁ : Laid (some n) [] { b with graph := { b.graph with vars }, queue := rest } :=
    laid.redraw ⟨rfl,rfl,fun _ => .refl _⟩ rfl laid.edges (fun _ _ => id) (by simp)
  have laid₂ := laid₁.modify (f := fun x => { x with stmts := ss }) (fun _ => rfl) fun _ _ => .inl
  split at did
  · rename_i last ends
    obtain ⟨_,b₃,linked,guards⟩ := doesBind.mp did
    obtain ⟨laid₃,quiet⟩ := didLinkNode linked laid₂ (by rw [laid₁.nodeOfModify]; exact kind)
      fun test a final => by
        obtain ⟨s,here,quiet⟩ := Lower.didBlock ends test lowered
        rw [laid₁.nodeOfModify,List.getLast?_map,here] at final
        exact Option.some.inj final ▸ quiet
    obtain ⟨laid₄,keeps⟩ := didProtect guards laid₃
    exact laid₄.close (keeps quiet)
  · obtain ⟨_,_,linked,-⟩ := doesBind.mp did
    exact absurd linked doesThrow

theorem didBuildQueue {fuel : Nat} {u : Unit} (did : Does (buildQueue m blocks fuel) b u b')
    (laid : Laid none [] b) : Laid none [] b' := by
  induction fuel generalizing b with
  | zero => exact (doesPure.mp did).2 ▸ laid
  | succ fuel ih =>
    simp only [buildQueue,doesBind,doesGet] at did
    obtain ⟨_,_,⟨rfl,rfl⟩,did⟩ := did
    split at did
    · exact (doesPure.mp did).2 ▸ laid
    · rename_i block rest next
      simp only [doesBind,doesSet] at did
      obtain ⟨_,_,rfl,_,b₁,built,did⟩ := did
      exact ih did (didBuildNode laid next built)

end Flow
end RegCode
