import RegCode.Proofs.Flow.Blocks
import RegCode.Proofs.Flow.Shape
import RegCode.Proofs.Flow.Spreading
import Mathlib

/-! Protection of the nodes of a method. Every node stands for one block, and it lies in the region
that has the handlers of the range over the start of that block. -/
namespace RegCode

def Method.handlersAt (m : Method) (o : Int) : Option (List Handler) :=
  (m.tries.find? (·.covers o)).map (·.handlers)

/-- Lists of handlers that differ are written differently. -/
def Method.ToldApart (m : Method) : Prop :=
  ∀ t ∈ m.tries, ∀ u ∈ m.tries, Flow.handlersKey t.handlers = Flow.handlersKey u.handlers →
    t.handlers = u.handlers

namespace Graph

def Handles (g : Graph) (place : NodeId → Int → Prop) (r : RegionId) (hs : List Handler) : Prop :=
  ∃ q, g.regions[r]? = some q ∧
    List.Forall₂ (fun c h => c.type = h.type ∧ place c.entry h.target) q.handlers hs

def Kept (g : Graph) (place : NodeId → Int → Prop) (n : NodeId) : Option (List Handler) → Prop
  | none => (g.node n).region = none
  | some hs => ∃ r, (g.node n).region = some r ∧ g.Handles place r hs

variable {g h : Graph} {place place' : NodeId → Int → Prop} {r q : RegionId} {hs hs' : List Handler}
  {n : NodeId}

theorem Handles.mono (handles : g.Handles place r hs)
    (regions : ∀ q, g.regions[r]? = some q → h.regions[r]? = some q)
    (more : ∀ i o, place i o → place' i o) : h.Handles place' r hs := by
  obtain ⟨q,found,lists⟩ := handles
  exact ⟨q,regions q found,lists.imp fun c h => And.imp_right (more _ _)⟩

theorem Handles.unique (only : ∀ i o o', place i o → place i o' → o = o')
    (first : g.Handles place r hs) (second : g.Handles place r hs') : hs = hs' := by
  obtain ⟨q,found,lists⟩ := first
  obtain ⟨q',found',lists'⟩ := second
  obtain rfl := Option.some.inj (found.symm.trans found')
  refine Relator.RightUnique.forall₂ (fun c k k' here there => ?_) lists lists'
  cases k
  cases k'
  cases here.1.symm.trans there.1
  cases only _ _ _ here.2 there.2
  rfl

end Graph

namespace Flow

variable {m : Method} {blocks met more : List Block} {b b' : Builder} {n : NodeId}

structure Tabled (m : Method) (met : List Block) (b : Builder) : Prop where
  keyed : ∀ key r, b.regions.lookup key = some r →
    ∃ t ∈ m.tries, handlersKey t.handlers = key ∧ b.graph.Handles (Place met) r t.handlers
  all : ∀ r < b.graph.regions.size, ∃ key, b.regions.lookup key = some r

theorem Tabled.withGraph {h : Graph} (tabled : Tabled m met b) (regions : h.regions = b.graph.regions) :
    Tabled m met { b with graph := h } := by
  refine ⟨fun key r found => ?_,fun r inside => tabled.all r (regions ▸ inside)⟩
  obtain ⟨t,member,same,handles⟩ := tabled.keyed key r found
  exact ⟨t,member,same,handles.mono (fun q there => regions ▸ there) fun _ _ => id⟩

structure Onward (m : Method) (blocks met more : List Block) (n : NodeId) (b b' : Builder) : Prop where
  known : Met blocks (met ++ more) b'
  queue : b'.queue = b.queue ++ more
  tabled : Tabled m (met ++ more) b'
  regions : ∀ (r : RegionId) (q : Region), b.graph.regions[r]? = some q → b'.graph.regions[r]? = some q
  others : ∀ i ≠ n, (b'.graph.node i).region = (b.graph.node i).region

theorem Spread.onward (spread : Spread blocks met more b b') (tabled : Tabled m met b) (n : NodeId) :
    Onward m blocks met more n b b' where
  known := spread.known
  queue := spread.queue
  tabled := by
    have regions : ∀ (r : RegionId) (q : Region), b.graph.regions[r]? = some q →
        b'.graph.regions[r]? = some q :=
      fun r q found => spread.regions ▸ found
    refine ⟨fun key r found => ?_,fun r inside => ?_⟩
    · rw [spread.table] at found
      obtain ⟨t,member,same,handles⟩ := tabled.keyed key r found
      exact ⟨t,member,same,handles.mono (regions r) fun i o place => place.more more⟩
    · rw [spread.table]
      rw [spread.regions] at inside
      exact tabled.all r inside
  regions r q found := spread.regions ▸ found
  others i _ := spread.region i

theorem Onward.trans {b₁ : Builder} {more' : List Block} (first : Onward m blocks met more n b b₁)
    (second : Onward m blocks (met ++ more) more' n b₁ b') :
    Onward m blocks met (more ++ more') n b b' where
  known := List.append_assoc met more more' ▸ second.known
  queue := by rw [second.queue,first.queue,List.append_assoc]
  tabled := List.append_assoc met more more' ▸ second.tabled
  regions r q found := second.regions r q (first.regions r q found)
  others i other := (second.others i other).trans (first.others i other)

theorem Tabled.addRegion {t : TryRange} {cs : List CatchEntry} (tabled : Tabled m met b)
    (member : t ∈ m.tries) (fresh : b.regions.lookup (handlersKey t.handlers) = none)
    (lists : List.Forall₂ (fun c h => c.type = h.type ∧ Place met c.entry h.target) cs t.handlers) :
    Tabled m met
      { b with
        graph := { b.graph with regions := b.graph.regions.push ⟨cs,none⟩ }
        regions := (handlersKey t.handlers,b.graph.regions.size) :: b.regions } where
  keyed key r found := by
    rw [List.lookup_cons] at found
    split at found
    · rename_i same
      obtain rfl := Option.some.inj found
      exact ⟨t,member,(beq_iff_eq.mp same).symm,⟨cs,none⟩,by simp,lists⟩
    · obtain ⟨u,among,same,handles⟩ := tabled.keyed key r found
      refine ⟨u,among,same,handles.mono (fun q there => ?_) fun _ _ => id⟩
      rw [Array.getElem?_push,if_neg (Nat.ne_of_lt (Array.getElem?_eq_some_iff.mp there).1)]
      exact there
  all r inside := by
    rw [Array.size_push] at inside
    rcases Nat.lt_succ_iff_lt_or_eq.mp inside with old | rfl
    · obtain ⟨key,found⟩ := tabled.all r old
      refine ⟨key,?_⟩
      rw [List.lookup_cons]
      split
      · rename_i same
        rw [beq_iff_eq.mp same,fresh] at found
        contradiction
      · exact found
    · exact ⟨_,List.lookup_cons_self⟩

theorem didRegionOfMet {t : TryRange} {r : RegionId} (did : Does (regionOf blocks t) b r b')
    (known : Met blocks met b) (tabled : Tabled m met b) (told : m.ToldApart) (member : t ∈ m.tries)
    (n : NodeId) :
    ∃ more, Onward m blocks met more n b b' ∧ b'.graph.Handles (Place (met ++ more)) r t.handlers := by
  simp only [regionOf,doesBind,doesGet] at did
  obtain ⟨_,_,⟨rfl,rfl⟩,did⟩ := did
  split at did
  · rename_i q found
    obtain ⟨rfl,rfl⟩ := doesPure.mp did
    obtain ⟨u,among,same,handles⟩ := tabled.keyed _ _ found
    rw [told u among t member same] at handles
    refine ⟨[],known.refl.onward tabled n,?_⟩
    rwa [List.append_nil]
  · rename_i fresh
    simp only [doesBind,doesSet,doesPure,doesGet] at did
    obtain ⟨cs,_,entered,_,b₁,⟨rfl,rfl⟩,_,_,rfl,rfl,rfl⟩ := did
    obtain ⟨more,spread,lists⟩ := didEnterHandlersMet entered known
    have onward := spread.onward tabled n
    refine ⟨more,?_,⟨cs,none⟩,by simp,lists⟩
    exact {
      known := ⟨spread.known.known,spread.known.size,spread.known.starts,spread.known.inside⟩
      queue := spread.queue
      tabled := onward.tabled.addRegion member (spread.table ▸ fresh) lists
      regions := fun r q found => by
        rw [Array.getElem?_push,spread.regions,
          if_neg (Nat.ne_of_lt (Array.getElem?_eq_some_iff.mp found).1)]
        exact found
      others := onward.others }

theorem didProtectMet {block : Block} {u : Unit} (did : Does (protect m blocks n block) b u b')
    (known : Met blocks met b) (tabled : Tabled m met b) (told : m.ToldApart)
    (inside : n < b.graph.store.size) (free : (b.graph.node n).region = none) :
    ∃ more, Onward m blocks met more n b b' ∧
      b'.graph.Kept (Place (met ++ more)) n (m.handlersAt block.start) := by
  unfold protect at did
  unfold Method.handlersAt
  split at did
  · rename_i nothing
    obtain ⟨-,rfl⟩ := doesPure.mp did
    rw [nothing]
    exact ⟨[],known.refl.onward tabled n,free⟩
  · rename_i t found
    simp only [doesBind,doesModifyGraph] at did
    obtain ⟨r,b₁,region,_,_,rfl,rfl⟩ := did
    obtain ⟨more,onward,handles⟩ :=
      didRegionOfMet region known tabled told (List.mem_of_find?_eq_some found) n
    obtain ⟨g,put⟩ : ∃ g, b₁.graph.modify n (fun x => { x with region := some r }) = g := ⟨_,rfl⟩
    have nodes : ∀ i, (g.node i).start = (b₁.graph.node i).start ∧
        (g.node i).region = if i = n then some r else (b₁.graph.node i).region := by
      have within : n < b₁.graph.store.size := by
        rw [onward.known.size,List.length_append]
        exact Nat.lt_add_right _ (known.size ▸ inside)
      intro i
      rw [← put,Graph.nodeModify]
      split
      · rename_i here
        exact ⟨rfl,by rw [if_pos here.1.symm]⟩
      · rename_i other
        refine ⟨rfl,?_⟩
        rw [if_neg]
        rintro rfl
        exact other ⟨rfl,within⟩
    have alike := Graph.alikeFold (fun g (h : CatchEntry) => g.alikeAddCatchEdge n h.entry)
      ((g.regions[r]?.map (·.handlers)).getD []) g
    have regions := alike.regions.trans (put ▸ rfl : g.regions = b₁.graph.regions)
    rw [put,found,Option.map_some]
    refine ⟨more,?_,r,?_,?_⟩
    · exact {
        known := onward.known.withGraph (alike.size.trans (put ▸ b₁.graph.sizeModify n _)) fun i =>
          (alike.nodes i).start.trans (nodes i).1
        queue := onward.queue
        tabled := onward.tabled.withGraph regions
        regions := fun q x there => regions ▸ onward.regions q x there
        others := fun i other => by
          rw [(alike.nodes i).region,(nodes i).2,if_neg other]
          exact onward.others i other }
    · rw [(alike.nodes n).region,(nodes n).2,if_pos rfl]
    · exact handles.mono (fun q there => regions ▸ there) fun _ _ => id

structure Worked (m : Method) (blocks met : List Block) (done : Nat) (b : Builder) : Prop where
  known : Met blocks met b
  tabled : Tabled m met b
  queue : b.queue = met.drop done
  built : ∀ i k, i < done → met[i]? = some k → b.graph.Kept (Place met) i (m.handlersAt k.start)
  waiting : ∀ i, done ≤ i → (b.graph.node i).region = none

theorem Onward.kept {i : NodeId} {hs : Option (List Handler)} (onward : Onward m blocks met more n b b')
    (other : i ≠ n) (kept : b.graph.Kept (Place met) i hs) :
    b'.graph.Kept (Place (met ++ more)) i hs := by
  cases hs with
  | none => exact (onward.others i other).trans kept
  | some hs =>
    obtain ⟨r,here,handles⟩ := kept
    exact ⟨r,(onward.others i other).trans here,
      handles.mono (onward.regions r) fun _ _ place => place.more more⟩

theorem didBuildNodeMet {block : Block} {rest : List Block} {u : Unit} {done : Nat}
    (worked : Worked m blocks met done b) (told : m.ToldApart) (next : b.queue = block :: rest)
    (did : Does (buildNode m blocks block) { b with queue := rest } u b') :
    ∃ met', Worked m blocks met' (done + 1) b' := by
  have queue := worked.queue.symm.trans next
  have here : met[done]? = some block := by
    rw [← Nat.add_zero done,← List.getElem?_drop,queue,List.getElem?_cons_zero]
  have found := (worked.known.known block.start done).mpr ⟨block,here,rfl⟩
  have known : Met blocks met { b with queue := rest } :=
    ⟨worked.known.known,worked.known.size,worked.known.starts,worked.known.inside⟩
  have tabled : Tabled m met { b with queue := rest } := ⟨worked.tabled.keyed,worked.tabled.all⟩
  unfold buildNode at did
  obtain ⟨_,_,got,did⟩ := doesBind.mp did
  obtain ⟨rfl,rfl⟩ := doesGet.mp got
  simp only [found] at did
  -- All that comes before protection spreads.
  obtain ⟨b₁,more₁,spread,guards⟩ : ∃ b₁ more₁, Spread blocks met more₁ { b with queue := rest } b₁ ∧
      Does (protect m blocks done block) b₁ u b' := by
    obtain ⟨ss,b₁,lowered,did⟩ := doesBind.mp did
    obtain ⟨u₁,b₂,stated,did⟩ := doesBind.mp did
    have stating : Spreads blocks (modifyGraph (·.modify done fun x => { x with stmts := ss })) :=
      .modify done (fun _ => rfl) fun _ => rfl
    obtain ⟨more₁,spread₁⟩ := Spreads.lowerBlock m block _ _ _ lowered _ known
    obtain ⟨more₂,spread₂⟩ := stating _ _ _ stated _ spread₁.known
    split at did
    · rename_i last _
      obtain ⟨u₂,b₃,linked,guards⟩ := doesBind.mp did
      obtain ⟨more₃,spread₃⟩ := Spreads.linkNode done block last _ _ _ linked _ spread₂.known
      exact ⟨b₃,_,(spread₁.trans spread₂).trans (by rwa [← List.append_assoc]),guards⟩
    · obtain ⟨_,_,linked,-⟩ := doesBind.mp did
      exact absurd linked doesThrow
  have inside : done < b₁.graph.store.size := by
    rw [spread.known.size,List.length_append]
    exact Nat.lt_add_right _ (List.getElem?_eq_some_iff.mp here).1
  have first := spread.onward tabled done
  obtain ⟨more₂,second,kept⟩ := didProtectMet guards spread.known first.tabled told inside
    ((spread.region done).trans (worked.waiting done (Nat.le_refl _)))
  have onward := first.trans second
  refine ⟨met ++ (more₁ ++ more₂),onward.known,onward.tabled,?_,fun i k before there => ?_,
    fun i beyond => ?_⟩
  · rw [onward.queue,List.drop_append_of_le_length (List.getElem?_eq_some_iff.mp here).1,
      ← List.tail_drop,queue,List.tail_cons]
  · rcases Nat.lt_succ_iff_lt_or_eq.mp before with old | rfl
    · have short := Nat.lt_trans old (List.getElem?_eq_some_iff.mp here).1
      rw [List.getElem?_append_left short] at there
      exact onward.kept (Nat.ne_of_lt old) (worked.built i k old there)
    · rw [List.getElem?_append_left (List.getElem?_eq_some_iff.mp here).1] at there
      obtain rfl := Option.some.inj (here.symm.trans there)
      rwa [List.append_assoc] at kept
  · exact (onward.others i (Nat.ne_of_gt beyond)).trans (worked.waiting i (Nat.le_of_lt beyond))

theorem Worked.finish {done : Nat} (worked : Worked m blocks met done b) (all : met.length ≤ done) :
    Worked m blocks met met.length b :=
  { worked with
    queue := by rw [worked.queue,List.drop_eq_nil_of_le all,List.drop_length]
    built := fun i k before => worked.built i k (Nat.lt_of_lt_of_le before all)
    waiting := fun i beyond => by rw [Graph.nodeOutside (worked.known.size ▸ beyond)] }

theorem didBuildQueueMet {fuel : Nat} {u : Unit} {done : Nat}
    (did : Does (buildQueue m blocks fuel) b u b') (worked : Worked m blocks met done b)
    (told : m.ToldApart) (enough : fuel + done = blocks.length) :
    ∃ met', Worked m blocks met' met'.length b' := by
  induction fuel generalizing b met done with
  | zero =>
    obtain ⟨-,rfl⟩ := doesPure.mp did
    exact ⟨met,worked.finish (by have := worked.known.bounded; omega)⟩
  | succ fuel ih =>
    simp only [buildQueue,doesBind,doesGet] at did
    obtain ⟨_,_,⟨rfl,rfl⟩,did⟩ := did
    split at did
    · rename_i empty
      obtain ⟨-,rfl⟩ := doesPure.mp did
      exact ⟨met,worked.finish (List.drop_eq_nil_iff.mp (worked.queue.symm.trans empty))⟩
    · rename_i block rest next
      simp only [doesBind,doesSet] at did
      obtain ⟨_,_,rfl,_,b₁,built,did⟩ := did
      obtain ⟨met',worked'⟩ := didBuildNodeMet worked told next built
      exact ih did worked' (by omega)

theorem Worked.start (m : Method) {g : Graph} {block : Block} (inside : block ∈ blocks)
    (store : g.store = #[{ start := block.start }]) (regions : g.regions = #[]) :
    Worked m blocks [block] 0 { graph := g, known := [(block.start,0)], queue := [block] } where
  known := by
    refine ⟨fun o i => ?_,by simp [store],fun i k here => ?_,by simpa using inside⟩
    · rw [List.lookup_cons,List.lookup_nil,Place]
      split
      · rename_i same
        simp [beq_iff_eq.mp same,List.getElem?_singleton,eq_comm]
      · rename_i other
        have other : block.start ≠ o := fun same => by simp [same] at other
        simp [List.getElem?_singleton,other]
    · rw [List.getElem?_singleton] at here
      split at here
      · rename_i first
        rw [first,← Option.some.inj here,Graph.node,store]
        rfl
      · contradiction
  tabled := by
    refine ⟨by simp,fun r inside => ?_⟩
    rw [regions] at inside
    exact absurd inside (Nat.not_lt_zero r)
  queue := rfl
  built i k before := absurd before (Nat.not_lt_zero i)
  waiting i _ := by
    rw [Graph.node,store]
    cases i <;> rfl

theorem Tabled.lookup {r : RegionId} {hs : List Handler} (tabled : Tabled m met b)
    (handles : b.graph.Handles (Place met) r hs) : b.regions.lookup (handlersKey hs) = some r := by
  obtain ⟨key,found⟩ := tabled.all r (Array.getElem?_eq_some_iff.mp handles.choose_spec.1).1
  obtain ⟨t,-,same,handles'⟩ := tabled.keyed key r found
  obtain rfl : hs = t.handlers := handles.unique (fun i o o' => Place.unique (i := i)) handles'
  exact same ▸ found

theorem handlesLinkRegions {g : Graph} {place : NodeId → Int → Prop} {r : RegionId}
    {hs : List Handler} : (linkRegions g).Handles place r hs ↔ g.Handles place r hs := by
  simp [Graph.Handles,linkRegions]

theorem guardEntryNodes {g : Graph} (entry : g.entry = some 0) :
    (guardEntry g).regions = g.regions ∧
      (∀ i < g.store.size, (g.node i).Alike ((guardEntry g).node i)) ∧
      ((guardEntry g).entry = some 0 ∧ (guardEntry g).store.size = g.store.size ∨
        (guardEntry g).entry = some g.store.size ∧ (guardEntry g).store.size = g.store.size + 1 ∧
          Node.Alike { start := (g.node 0).start } ((guardEntry g).node g.store.size)) := by
  unfold guardEntry
  rw [entry]
  dsimp only
  split
  · exact ⟨rfl,fun i _ => .refl _,.inl ⟨entry,rfl⟩⟩
  · have alike := (g.addNode { start := (g.node 0).start }).1.alikeAddEdge g.store.size 0
    have added := Graph.nodeAddNode g { start := (g.node 0).start }
    refine ⟨rfl,fun i inside => ?_,.inr ⟨rfl,alike.size.trans (by simp [Graph.addNode]),?_⟩⟩
    · have old := added i
      rw [if_neg (Nat.ne_of_lt inside)] at old
      exact old ▸ alike.nodes i
    · have new := added g.store.size
      rw [if_pos rfl] at new
      have last := alike.nodes g.store.size
      rw [new] at last
      exact last

end Flow

namespace Graph

/-- The empty node in front of an entry that control can come back to. -/
def Front (g : Graph) (n : NodeId) : Prop := g.entry = some n ∧ n ≠ 0

/-- The node stands for the block at an offset. -/
def At (g : Graph) (n : NodeId) (o : Int) : Prop :=
  n < g.store.size ∧ ¬g.Front n ∧ (g.node n).start = o

/-- The node lies in the one region with these handlers, or in none. -/
def Keeps (g : Graph) (n : NodeId) : Option (List Handler) → Prop
  | none => (g.node n).region = none
  | some hs => ∃ r, (g.node n).region = some r ∧ ∀ q, g.Handles g.At q hs ↔ q = r

structure Places (m : Method) (g : Graph) : Prop where
  block : ∀ n o, g.At n o → ∃ b ∈ Block.split m, b.start = o
  kept : ∀ n o, g.At n o → g.Keeps n (m.handlersAt o)
  front : ∀ n, g.Front n → (g.node n).stmts = [] ∧ (g.node n).region = none

variable {m : Method} {g : Graph} {n : NodeId}

theorem entryNumberFrom (g : Graph) (k : Nat) (is : List NodeId) :
    (g.numberFrom k is).entry = g.entry := by
  induction is generalizing g k with
  | nil => rfl
  | cons i is ih => exact ih _ _

theorem entryModifyAll (g : Graph) (is : List NodeId) (f : Node → Node) :
    (g.modifyAll is f).entry = g.entry :=
  List.foldlRecOn is _ (motive := fun h : Graph => h.entry = g.entry) rfl fun _ same _ _ => same

theorem entryRenumber (g : Graph) : g.renumber.entry = g.entry := by
  unfold renumber
  split
  · rfl
  · refine (entryNumberFrom _ _ _).trans ?_
    refine List.foldlRecOn _ _ (motive := fun h : Graph => h.entry = g.entry) rfl fun h same i _ => ?_
    unfold removeNode
    simp only [entryModifyAll]
    exact same

open RegCode.Flow in
theorem placesFinished {blocks met : List Block} {b : Builder}
    (worked : Worked m blocks met met.length b) (split : Block.split m = blocks)
    (laid : Laid none [] b) :
    (numberStatements (linkRegions (guardEntry b.graph))).renumber.Places m := by
  obtain ⟨g,finished⟩ : ∃ g, (numberStatements (linkRegions (guardEntry b.graph))).renumber = g :=
    ⟨_,rfl⟩
  obtain ⟨regions,nodes,entry⟩ := guardEntryNodes laid.entry
  have alike : (linkRegions (guardEntry b.graph)).Alike g :=
    finished ▸ (alikeNumberStatements _).trans (alikeRenumber _)
  have size : g.store.size = (guardEntry b.graph).store.size := alike.size
  have entries : g.entry = (guardEntry b.graph).entry := by
    rw [← finished,entryRenumber]
    exact List.foldlRecOn _ _ (motive := fun h : Graph => h.entry = (guardEntry b.graph).entry) rfl
      fun _ same _ _ => same
  have same : ∀ i < met.length, (b.graph.node i).Alike (g.node i) := fun i inside =>
    (nodes i (worked.known.size ▸ inside)).trans (alike.nodes i)
  have first : 0 < met.length := worked.known.size ▸ laid.first
  -- Only a guard has a number beyond those of the blocks.
  have within : ∀ n, n < g.store.size ∧ ¬g.Front n ↔ n < met.length := by
    intro n
    rw [Front,entries,size]
    rw [worked.known.size] at entry
    rcases entry with ⟨none,same⟩ | ⟨guard,same,-⟩
    · rw [none,same]
      exact ⟨And.left,fun inside => ⟨inside,fun front => front.2 (Option.some.inj front.1).symm⟩⟩
    · rw [guard,same]
      constructor
      · rintro ⟨inside,other⟩
        refine Nat.lt_of_le_of_ne (Nat.le_of_lt_succ inside) fun last => other ⟨last ▸ rfl,?_⟩
        exact Nat.ne_of_gt (last ▸ first)
      · intro inside
        exact ⟨Nat.lt_succ_of_lt inside,fun front => Nat.ne_of_gt inside (Option.some.inj front.1)⟩
  have at_ : g.At = Place met := by
    funext n o
    refine propext ?_
    rw [At,← and_assoc,within]
    constructor
    · rintro ⟨inside,here⟩
      have found := List.getElem?_eq_getElem inside
      exact ⟨_,found,(worked.known.starts n _ found).symm.trans ((same n inside).start.symm.trans here)⟩
    · rintro ⟨k,found,here⟩
      have inside := (List.getElem?_eq_some_iff.mp found).1
      exact ⟨inside,(same n inside).start.trans ((worked.known.starts n k found).trans here)⟩
  have handles : ∀ r hs, g.Handles g.At r hs ↔ b.graph.Handles (Place met) r hs := by
    intro r hs
    rw [at_,Handles,alike.regions,← Handles,handlesLinkRegions,Handles,regions,← Handles]
  refine finished ▸ ⟨fun n o place => ?_,fun n o place => ?_,fun n front => ?_⟩
  · rw [at_] at place
    obtain ⟨k,found,here⟩ := place
    exact ⟨k,split ▸ worked.known.inside k (List.mem_of_getElem? found),here⟩
  · rw [at_] at place
    obtain ⟨k,found,rfl⟩ := place
    have inside := (List.getElem?_eq_some_iff.mp found).1
    have kept := worked.built n k inside found
    cases range : m.handlersAt k.start with
    | none =>
      rw [range] at kept
      exact (same n inside).region.trans kept
    | some hs =>
      rw [range] at kept
      obtain ⟨r,here,listed⟩ := kept
      refine ⟨r,(same n inside).region.trans here,fun q => (handles q hs).trans ⟨fun there => ?_,?_⟩⟩
      · have := (worked.tabled.lookup there).symm.trans (worked.tabled.lookup listed)
        exact Option.some.inj this
      · rintro rfl
        exact listed
  · obtain ⟨here,other⟩ := front
    rw [entries] at here
    rcases entry with ⟨none,-⟩ | ⟨guard,-,blank⟩
    · exact absurd (Option.some.inj (here.symm.trans none)) other
    · obtain rfl := Option.some.inj (here.symm.trans guard)
      have blank := blank.trans (alike.nodes _)
      exact ⟨List.map_eq_nil_iff.mp blank.acts,blank.region⟩

theorem placesOfMethod (told : m.ToldApart) (made : ofMethod m = .ok g) : g.Places m := by
  have empty : g.store = #[] → g.Places m := fun store =>
    ⟨fun n o place => by simp [At,store] at place,fun n o place => by simp [At,store] at place,
      fun n _ => by simp [Graph.node,store]⟩
  unfold ofMethod at made
  split at made
  · cases Except.ok.inj made
    exact empty rfl
  · dsimp only at made
    split at made
    · cases Except.ok.inj made
      exact empty rfl
    · rename_i first rest blocks
      obtain ⟨⟨u,b⟩,run,made⟩ := okOfBind made
      obtain rfl := Except.ok.inj made
      rw [blocks] at run
      obtain ⟨entry,b₁,visited,run⟩ := doesBind.mp run
      obtain ⟨_,b₂,opened,built⟩ := doesBind.mp run
      obtain ⟨rfl,rfl⟩ := Flow.didVisitFirst visited
      cases Flow.doesModifyGraph.mp opened
      obtain ⟨met,worked⟩ := Flow.didBuildQueueMet built
        (.start m (List.mem_cons_self ..) rfl rfl) told rfl
      exact placesFinished worked blocks (Flow.didBuildQueue built (.start first rfl rfl rfl))

theorem keepsUnique {x y : Option (List Handler)} (first : g.Keeps n x) (second : g.Keeps n y) : x = y := by
  cases x with
  | none =>
    cases y with
    | none => rfl
    | some hs =>
      obtain ⟨r,here,-⟩ := second
      exact nomatch (Eq.symm first).trans here
  | some hs =>
    obtain ⟨r,here,only⟩ := first
    cases y with
    | none => exact nomatch (Eq.symm second).trans here
    | some hs' =>
      obtain ⟨r',there,only'⟩ := second
      obtain rfl := Option.some.inj (here.symm.trans there)
      refine congrArg some (Handles.unique (fun i o o' place place' => ?_) ((only r).mpr rfl)
        ((only' r).mpr rfl))
      exact place.2.2.symm.trans place'.2.2

end Graph

theorem Method.handlersAtSame {m : Method} {o p : Int} (differ : m.handlersAt o ≠ m.handlersAt p) :
    ∃ t ∈ m.tries, t.covers o ≠ t.covers p := by
  by_contra same
  refine differ (congrArg (Option.map _) (List.find?_congr fun t member => ?_))
  by_contra apart
  exact same ⟨t,member,apart⟩

namespace Graph

variable {m : Method} {g : Graph} {n : NodeId}

/-- A node of verified code is an empty one in front of the entry, or stands for one block and lies
in the region of the first range over the start of that block. This is the range over an instruction
of the block exactly if it has the same handlers; one that has others has them because a range has
a bound at a result that the block takes on the way there, the only place in a block where a bound
can be. -/
theorem keepsRange (valid : m.verify = .ok ()) (fits : m.Fits) (told : m.ToldApart)
    (made : ofMethod m = .ok g) (inside : n < g.store.size) :
    g.Front n ∧ (g.node n).stmts = [] ∧ (g.node n).region = none ∨
      ∃ b ∈ Block.split m, g.At n b.start ∧ (∀ c ∈ Block.split m, c.start = b.start → c = b) ∧
        (∀ t ∈ m.tries, ∀ o, o = t.start ∨ o = t.stop → b.start < o → o < b.stop →
          ∃ j ∈ b.insts, j.offset = o ∧ j.family = .moveResult) ∧
        ∀ i ∈ b.insts,
          (g.Keeps n (m.handlersAt i.offset) ↔ m.handlersAt i.offset = m.handlersAt b.start) ∧
          (m.handlersAt i.offset ≠ m.handlersAt b.start → ∃ t ∈ m.tries, ∃ j ∈ b.insts,
            j.family = .moveResult ∧ j.offset ≤ i.offset ∧ (t.start = j.offset ∨ t.stop = j.offset)) := by
  have places := placesOfMethod told made
  by_cases front : g.Front n
  · exact .inl ⟨front,places.front n front⟩
  · have place : g.At n (g.node n).start := ⟨inside,front,rfl⟩
    obtain ⟨b,member,start⟩ := places.block n _ place
    rw [← start] at place
    have cut := Block.splitCut (Method.ascends valid fits) member
    have kept := places.kept n _ place
    refine .inr ⟨b,member,place,fun c among same => ?_,fun t range o bound beyond before =>
      cut.bounds valid fits range bound beyond before,fun i held => ⟨⟨fun keeps =>
        keepsUnique keeps kept,fun same => same ▸ kept⟩,fun differ => ?_⟩⟩
    · exact List.inj_on_of_nodup_map (Block.splitApart m) among member same
    · obtain ⟨t,range,covers⟩ := Method.handlersAtSame differ
      exact ⟨t,range,cut.changes valid fits held range covers⟩

end Graph

/-! ### A range that ends between a call and its result -/

def Method.late : Method where
  owner := "LTest;"
  name := "f"
  descriptor := "(I)I"
  access := ⟨9⟩
  registers := 2
  index := 0
  line := 0
  code := [
    { family := .invoke, width := 3, invoke := .static, type := "I", mnemonic := "invoke-static",
      method := some ⟨"LTest;","g",[],"I"⟩ },
    { family := .moveResult, mnemonic := "move-result", offset := 3, regs := [0] },
    { family := .binary, width := 2, type := "I", arith := .div, mnemonic := "div-int", offset := 4,
      regs := [0,0,1] },
    { family := .return, mnemonic := "return", offset := 6, regs := [0] },
    { family := .moveException, mnemonic := "move-exception", offset := 7, regs := [0] },
    { family := .return, mnemonic := "return", offset := 8, regs := [1] }]
  tries := [⟨0,3,[⟨"",7⟩]⟩]
  overlaps := []

namespace Graph

def mixes (m : Method) (o : Int) : Bool := (Block.split m).all fun b => b.start != o ||
  b.insts.any fun i => i.canThrow && m.handlersAt i.offset != m.handlersAt b.start

set_option maxRecDepth 100000 in
theorem lateMixes : (mixes .late 0 &&
    match ofMethod .late with
    | .ok g => 0 < g.store.size && (g.node 0).start == 0 && !(g.node 0).stmts.isEmpty
    | .error _ => false) = true := by
  simp -zeta only [mixes,ofMethod,Block.split,Block.starts,TryTable.ascending,renumber,
    reversePostorder,Flow.exploreNested,sortByHalves]
  decide +kernel

/-- The division of `late` has no range over it, but its node lies in the region of the call. -/
theorem keepsRangeLate : Method.late.verify = .ok () ∧ Method.late.Fits ∧ Method.late.ToldApart ∧
    ∃ g, ofMethod .late = .ok g ∧ ∃ b ∈ Block.split .late, g.At 0 b.start ∧
      ∃ i ∈ b.insts, i.canThrow = true ∧ ¬g.Keeps 0 (Method.late.handlersAt i.offset) := by
  have valid : Method.late.verify = .ok () := by rfl
  have fits : Method.late.Fits := by unfold Method.Fits; decide
  have told : Method.late.ToldApart := by simp [Method.ToldApart,Method.late]
  obtain ⟨mixed,rest⟩ := Bool.and_eq_true_iff.mp lateMixes
  cases made : ofMethod .late with
  | error fault =>
    rw [made] at rest
    contradiction
  | ok g =>
    rw [made] at rest
    simp only [Bool.and_eq_true,decide_eq_true_eq,beq_iff_eq,Bool.not_eq_true',List.isEmpty_eq_false_iff]
      at rest
    obtain ⟨⟨inside,start⟩,code⟩ := rest
    refine ⟨valid,fits,told,g,rfl,?_⟩
    rcases keepsRange valid fits told made inside with ⟨-,none,-⟩ | ⟨b,member,place,-,-,exact_⟩
    · exact absurd none code
    · have mixed := List.all_eq_true.mp mixed b member
      have here : b.start = 0 := place.2.2.symm.trans start
      simp only [here,bne_self_eq_false,Bool.false_or,List.any_eq_true,Bool.and_eq_true,
        bne_iff_ne] at mixed
      obtain ⟨i,held,throws,differ⟩ := mixed
      exact ⟨b,member,place,i,held,throws,fun keeps => differ (here ▸ (exact_ i held).1.mp keeps)⟩

end Graph
end RegCode
