import RegCode.Flow.Graph
import RegCode.Proofs.Dominance.Trail
import Mathlib.Data.Finset.Card
import Mathlib.Data.Finset.Range
import Mathlib.Logic.Relation

/-! The search meets every node that ways along edges lead to, as long as it may go deeper than
there are nodes that it has not met. Last stand twins of the search and of sorting that compute. -/
namespace RegCode.Flow

variable {next : NodeId → List NodeId} {s s' : Search} {work : List NodeId} {depth size : Nat}

def Search.left (s : Search) (size : Nat) : Finset NodeId := (Finset.range size).filter (· ∉ s.seen)

structure Explored (next : NodeId → List NodeId) (work : List NodeId) (s s' : Search) : Prop where
  seen : ∀ n ∈ s.seen, n ∈ s'.seen
  order : ∀ n ∈ s.order, n ∈ s'.order
  work : ∀ n ∈ work, n ∈ s'.seen
  new : ∀ n ∈ s'.seen, n ∈ s.seen ∨ n ∈ s'.order ∧ ∀ m ∈ next n, m ∈ s'.seen

theorem Search.leftMono (more : ∀ n ∈ s.seen, n ∈ s'.seen) : s'.left size ⊆ s.left size := by
  intro n fresh
  rw [left,Finset.mem_filter] at fresh ⊢
  exact ⟨fresh.1,fun old => fresh.2 (more n old)⟩

theorem Search.leftMet {n : NodeId} (inside : n < size) (fresh : n ∉ s.seen) :
    (Search.left { s with seen := n :: s.seen } size).card < (s.left size).card := by
  refine Finset.card_lt_card ⟨leftMono fun m old => List.mem_cons_of_mem n old,fun all => ?_⟩
  have met := all (Finset.mem_filter.mpr ⟨Finset.mem_range.mpr inside,fresh⟩)
  exact (Finset.mem_filter.mp met).2 (List.mem_cons_self ..)

section
variable {ok : NodeId → Prop} (closed : ∀ n, ok n → ∀ m ∈ next n, ok m)
include closed

theorem explored (below : ∀ n, ok n → n < size) (enough : (s.left size).card < depth)
    (inside : ∀ n ∈ work, ok n) : Explored next work s (explore next depth work s) := by
  induction depth, work, s using explore.induct next with
  | case1 depth s =>
    rw [explore]
    exact ⟨fun _ h => h,fun _ h => h,by simp,fun _ h => .inl h⟩
  | case2 s n rest => omega
  | case3 s depth n rest met ih =>
    rw [explore,if_pos met]
    have tail := ih enough fun m member => inside m (List.mem_cons_of_mem n member)
    refine ⟨tail.seen,tail.order,fun m member => ?_,tail.new⟩
    rcases List.mem_cons.mp member with rfl | member
    · exact tail.seen m (by simpa using met)
    · exact tail.work m member
  | case4 s depth n rest fresh inner ihInner ihRest =>
    rw [explore,if_neg fresh]
    have fresh : n ∉ s.seen := by simpa using fresh
    have here := inside n (List.mem_cons_self ..)
    have first := ihInner (by have := Search.leftMet (below n here) fresh; omega) (closed n here)
    have less : (inner.left size).card ≤ (s.left size).card :=
      Finset.card_le_card (Search.leftMono fun m member => first.seen m (List.mem_cons_of_mem n member))
    have second := ihRest (Nat.lt_of_le_of_lt less enough)
      fun m member => inside m (List.mem_cons_of_mem n member)
    have met : n ∈ inner.seen := first.seen n (List.mem_cons_self ..)
    refine ⟨fun m member => ?_,fun m member => ?_,fun m member => ?_,fun m member => ?_⟩
    · exact second.seen m (first.seen m (List.mem_cons_of_mem n member))
    · exact second.order m (List.mem_cons_of_mem n (first.order m member))
    · rcases List.mem_cons.mp member with rfl | member
      · exact second.seen m met
      · exact second.work m member
    · rcases second.new m member with before | after
      · by_cases same : m = n
        · subst same
          exact .inr ⟨second.order m (List.mem_cons_self ..),
            fun k out => second.seen k (first.work k out)⟩
        · rcases first.new m before with old | ⟨listed,edges⟩
          · exact .inl ((List.mem_cons.mp old).resolve_left same)
          · exact .inr ⟨second.order m (List.mem_cons_of_mem n listed),
              fun k out => second.seen k (edges k out)⟩
      · exact .inr after

theorem exploreWithin (inside : ∀ n ∈ work, ok n) (before : ∀ n ∈ s.order, ok n) :
    ∀ n ∈ (explore next depth work s).order, ok n := by
  induction depth, work, s using explore.induct next with
  | case1 depth s =>
    rw [explore]
    exact before
  | case2 s n rest =>
    rw [explore]
    exact before
  | case3 s depth n rest met ih =>
    rw [explore,if_pos met]
    exact ih (fun m member => inside m (List.mem_cons_of_mem n member)) before
  | case4 s depth n rest fresh inner ihInner ihRest =>
    rw [explore,if_neg fresh]
    have here := inside n (List.mem_cons_self ..)
    exact ihRest (fun m member => inside m (List.mem_cons_of_mem n member))
      (List.forall_mem_cons.mpr ⟨here,ihInner (closed n here) before⟩)

end

structure Search.Ordered (s : Search) : Prop where
  met : ∀ n ∈ s.order, n ∈ s.seen
  once : s.order.Nodup

theorem exploreOrdered (ordered : s.Ordered) : (explore next depth work s).Ordered ∧
    (∀ n ∈ s.seen, n ∈ (explore next depth work s).seen) ∧
      ∀ n ∈ (explore next depth work s).order, n ∈ s.order ∨ n ∉ s.seen := by
  induction depth, work, s using explore.induct next with
  | case1 depth s =>
    rw [explore]
    exact ⟨ordered,fun _ h => h,fun _ h => .inl h⟩
  | case2 s n rest =>
    rw [explore]
    exact ⟨ordered,fun _ h => h,fun _ h => .inl h⟩
  | case3 s depth n rest met ih =>
    rw [explore,if_pos met]
    exact ih ordered
  | case4 s depth n rest fresh inner ihInner ihRest =>
    rw [explore,if_neg fresh]
    have fresh : n ∉ s.seen := by simpa using fresh
    obtain ⟨first,seen,new⟩ := ihInner
      ⟨fun m member => List.mem_cons_of_mem n (ordered.met m member),ordered.once⟩
    have apart : n ∉ inner.order := fun member =>
      (new n member).elim (fun old => fresh (ordered.met n old)) fun h => h (List.mem_cons_self ..)
    have finished : ∀ m ∈ n :: inner.order, m ∈ s.order ∨ m ∉ s.seen := by
      intro m member
      rcases List.mem_cons.mp member with rfl | member
      · exact .inr fresh
      · exact (new m member).imp id fun h old => h (List.mem_cons_of_mem n old)
    obtain ⟨second,more,later⟩ := ihRest ⟨List.forall_mem_cons.mpr
      ⟨seen n (List.mem_cons_self ..),first.met⟩,List.nodup_cons.mpr ⟨apart,first.once⟩⟩
    refine ⟨second,fun m old => more m (seen m (List.mem_cons_of_mem n old)),fun m member => ?_⟩
    rcases later m member with listed | unmet
    · exact finished m listed
    · exact .inr fun old => unmet (seen m (List.mem_cons_of_mem n old))

theorem exploreBehind : ∃ new, (explore next depth work s).order = new ++ s.order ∧
    ∀ n front back, new = front ++ n :: back → n ∈ work ∨ ∃ m ∈ front, n ∈ next m := by
  induction depth, work, s using explore.induct next with
  | case1 depth s =>
    rw [explore]
    exact ⟨[],rfl,by simp⟩
  | case2 s n rest =>
    rw [explore]
    exact ⟨[],rfl,by simp⟩
  | case3 s depth n rest met ih =>
    rw [explore,if_pos met]
    obtain ⟨new,order,behind⟩ := ih
    exact ⟨new,order,fun m front back here =>
      (behind m front back here).imp (List.mem_cons_of_mem n) id⟩
  | case4 s depth n rest fresh inner ihInner ihRest =>
    rw [explore,if_neg fresh]
    obtain ⟨under,first,inside⟩ := ihInner
    obtain ⟨new,second,behind⟩ := ihRest
    refine ⟨new ++ n :: under,by rw [second,first]; simp,fun m front back here => ?_⟩
    -- The node lies in what the rest of the list adds, is `n` itself, or was met below `n`.
    rcases List.append_eq_append_iff.mp here with ⟨mid,before,tail⟩ | ⟨mid,whole,tail⟩
    · cases mid with
      | nil =>
        cases tail
        exact .inl (List.mem_cons_self ..)
      | cons k mid =>
        obtain ⟨rfl,below⟩ := List.cons.inj tail
        rw [before]
        rcases inside m mid back below with direct | ⟨k,earlier,out⟩
        · exact .inr ⟨n,by simp,direct⟩
        · exact .inr ⟨k,by simp [earlier],out⟩
    · cases mid with
      | nil =>
        cases tail
        exact .inl (List.mem_cons_self ..)
      | cons k mid =>
        obtain ⟨rfl,-⟩ := List.cons.inj tail
        exact (behind m front mid whole).imp (List.mem_cons_of_mem n) id

variable {order front : List NodeId} {a b : NodeId}

def Downward (next : NodeId → List NodeId) (order : List NodeId) (a b : NodeId) : Prop :=
  b ∈ next a ∧ ∃ front back, order = front ++ a :: back ∧ b ∈ back

theorem Downward.behind (downward : Downward next order a b) (front : List NodeId) : Downward next (front ++ order) a b := by
  obtain ⟨out,before,back,rfl,member⟩ := downward
  exact ⟨out,front ++ before,back,(List.append_assoc ..).symm,member⟩

theorem downwardBehind (way : Relation.ReflTransGen (Downward next order) a b) (front : List NodeId) :
    Relation.ReflTransGen (Downward next (front ++ order)) a b :=
  way.lift id fun _ _ downward => downward.behind front

structure Descends (next : NodeId → List NodeId) (work : List NodeId) (s : Search) (new : List NodeId) : Prop where
  below : ∀ n ∈ new, ∃ r ∈ work, r ∈ new ∧ Relation.ReflTransGen (Downward next (new ++ s.order)) r n
  edges : ∀ n ∈ new, ∀ m ∈ next n, (∃ front back, new ++ s.order = front ++ n :: back ∧ m ∈ back) ∨
    Relation.ReflTransGen (Downward next (new ++ s.order)) m n ∨ m ∈ s.seen ∧ m ∉ s.order

section
variable {ok : NodeId → Prop} (closed : ∀ n, ok n → ∀ m ∈ next n, ok m)
include closed

theorem exploreDescends (below : ∀ n, ok n → n < size) (enough : (s.left size).card < depth)
    (inside : ∀ n ∈ work, ok n) :
    ∃ new, (explore next depth work s).order = new ++ s.order ∧ Descends next work s new := by
  induction depth, work, s using explore.induct next with
  | case1 depth s =>
    rw [explore]
    exact ⟨[],rfl,by simp,by simp⟩
  | case2 s n rest => omega
  | case3 s depth n rest met ih =>
    rw [explore,if_pos met]
    obtain ⟨new,order,descends⟩ := ih enough fun m member => inside m (List.mem_cons_of_mem n member)
    refine ⟨new,order,fun m member => ?_,descends.edges⟩
    obtain ⟨r,root,way⟩ := descends.below m member
    exact ⟨r,List.mem_cons_of_mem n root,way⟩
  | case4 s depth n rest fresh inner ihInner ihRest =>
    rw [explore,if_neg fresh]
    have fresh : n ∉ s.seen := by simpa using fresh
    have here := inside n (List.mem_cons_self ..)
    have less := Search.leftMet (below n here) fresh
    have first : Explored next (next n) { s with seen := n :: s.seen } inner :=
      explored closed below (by omega) (closed n here)
    obtain ⟨under,order,descends⟩ := ihInner (by omega) (closed n here)
    have left : (inner.left size).card ≤ (s.left size).card :=
      Finset.card_le_card (Search.leftMono fun m member => first.seen m (List.mem_cons_of_mem n member))
    obtain ⟨new,whole,later⟩ := ihRest (Nat.lt_of_le_of_lt left enough)
      fun m member => inside m (List.mem_cons_of_mem n member)
    dsimp only at order whole
    have all : new ++ n :: inner.order = (new ++ [n]) ++ (under ++ s.order) := by rw [order]; simp
    have parts : (new ++ n :: under) ++ s.order = new ++ n :: inner.order := by rw [order]; simp
    -- Below `n` edges go down from it.
    have down : ∀ m ∈ under, Relation.ReflTransGen (Downward next (new ++ n :: inner.order)) n m := by
      intro m member
      obtain ⟨r,root,listed,way⟩ := descends.below m member
      rw [all]
      refine .head ⟨root,new,under ++ s.order,by simp,List.mem_append_left _ listed⟩ (downwardBehind way _)
    -- What has been met by then is finished, or was met before.
    have settled : ∀ m ∈ inner.seen, m ∈ inner.order ∨ m = n ∨ m ∈ s.seen := fun m met =>
      (first.new m met).elim (fun old => .inr (List.mem_cons.mp old)) fun listed => .inl listed.1
    refine ⟨new ++ n :: under,by rw [parts,whole],fun m member => ?_,fun m member k out => ?_⟩
    · rw [parts]
      rcases List.mem_append.mp member with member | member
      · obtain ⟨r,root,listed,way⟩ := later.below m member
        exact ⟨r,List.mem_cons_of_mem n root,List.mem_append_left _ listed,way⟩
      · refine ⟨n,List.mem_cons_self ..,by simp,?_⟩
        rcases List.mem_cons.mp member with rfl | member
        · exact .refl
        · exact down m member
    · rw [parts]
      rcases List.mem_append.mp member with member | member
      · rcases later.edges m member k out with back | way | ⟨met,unfinished⟩
        · exact .inl back
        · exact .inr (.inl way)
        · dsimp only at met unfinished
          have other := List.mem_cons.not.mp unfinished
          rcases settled k met with listed | same | old
          · exact absurd (.inr listed) other
          · exact absurd (.inl same) other
          · exact .inr (.inr ⟨old,fun listed => other (.inr (order ▸ List.mem_append_right _ listed))⟩)
      · rcases List.mem_cons.mp member with rfl | member
        · by_cases listed : k ∈ inner.order
          · exact .inl ⟨new,inner.order,rfl,listed⟩
          · rcases settled k (first.work k out) with listed' | rfl | old
            · exact absurd listed' listed
            · exact .inr (.inl .refl)
            · exact .inr (.inr ⟨old,fun listed' => listed (order ▸ List.mem_append_right _ listed')⟩)
        · rcases descends.edges m member k out with ⟨front,back,split,behind⟩ | way | ⟨met,unfinished⟩
          · refine .inl ⟨new ++ n :: front,back,?_,behind⟩
            rw [order]
            dsimp only at split
            rw [split]
            simp
          · rw [all]
            exact .inr (.inl (downwardBehind way _))
          · rcases List.mem_cons.mp met with same | old
            · rw [same]
              exact .inr (.inl (down m member))
            · exact .inr (.inr ⟨old,unfinished⟩)

end
end RegCode.Flow

namespace RegCode.Graph

def EdgesInside (g : Graph) : Prop := ∀ i j, j ∈ (g.node i).allSuccs → j < g.store.size

section
variable {g : Graph} {ok : NodeId → Prop} {e n : NodeId}

theorem reversePostorderWithin (closed : ∀ i, ok i → ∀ j ∈ (g.node i).allSuccs, ok j)
    (below : ∀ i, ok i → i < g.store.size) (entry : g.entry = some e) (member : ok e) :
    g.reversePostorder.Nodup ∧
      ∀ n, n ∈ g.reversePostorder ↔ g.Trail (fun _ => True) e n := by
  have edges : ∀ i j, j ∈ g.searchOrder i ↔ j ∈ (g.node i).allSuccs := fun i j => by
    simp [searchOrder,Node.allSuccs,or_comm]
  have search : Flow.Explored g.searchOrder g.entry.toList ⟨[],[]⟩
      (Flow.explore g.searchOrder (g.store.size + 1) g.entry.toList ⟨[],[]⟩) := by
    refine @Flow.explored _ _ _ _ _ ok (fun i fits j out => closed i fits j ((edges i j).mp out)) below ?_
      (by simpa [entry] using member)
    have few := Finset.card_filter_le (Finset.range g.store.size) (· ∉ ([] : List NodeId))
    rw [Finset.card_range] at few
    exact Nat.lt_succ_of_le few
  refine ⟨(Flow.exploreOrdered ⟨fun _ member => absurd member List.not_mem_nil,List.nodup_nil⟩).1.once,fun n => ⟨?_,fun way => ?_⟩⟩
  · refine @Flow.exploreWithin _ _ _ _ (fun n => g.Trail (fun _ => True) e n)
      (fun i way j out => .on way ((edges i j).mp out) trivial) ?_
      (fun _ member => absurd member List.not_mem_nil) n
    simpa [entry] using Trail.stay trivial
  · suffices met : n ∈ (Flow.explore g.searchOrder (g.store.size + 1) g.entry.toList ⟨[],[]⟩).seen from
      ((search.new n met).resolve_left List.not_mem_nil).1
    induction way with
    | stay fits => exact search.work e (by simp [entry])
    | on way out fits ih =>
      exact ((search.new _ ih).resolve_left List.not_mem_nil).2 _ ((edges _ _).mpr out)

theorem reversePostorderReaches (inside : g.EdgesInside) (entry : g.entry = some e)
    (member : e < g.store.size) (way : g.Trail (fun _ => True) e n) : n ∈ g.reversePostorder :=
  ((@reversePostorderWithin _ (· < g.store.size) _ (fun i _ j out => inside i j out) (fun _ => id)
    entry member).2 n).mpr way

theorem reversePostorderDescends (closed : ∀ i, ok i → ∀ j ∈ (g.node i).allSuccs, ok j)
    (below : ∀ i, ok i → i < g.store.size) (entry : g.entry = some e) (member : ok e) :
    ∀ n ∈ g.reversePostorder, ∀ m ∈ (g.node n).allSuccs,
      (∃ front back, g.reversePostorder = front ++ n :: back ∧ m ∈ back) ∨
        Relation.ReflTransGen (Flow.Downward g.searchOrder g.reversePostorder) m n := by
  have edges : ∀ i j, j ∈ g.searchOrder i ↔ j ∈ (g.node i).allSuccs := fun i j => by
    simp [searchOrder,Node.allSuccs,or_comm]
  have few := Finset.card_filter_le (Finset.range g.store.size) (· ∉ ([] : List NodeId))
  rw [Finset.card_range] at few
  obtain ⟨new,order,descends⟩ : ∃ new, g.reversePostorder = new ++ [] ∧
      Flow.Descends g.searchOrder g.entry.toList ⟨[],[]⟩ new :=
    Flow.exploreDescends (fun i fits j out => closed i fits j ((edges i j).mp out)) below
      (Nat.lt_succ_of_le few) (by simpa [entry] using member)
  rw [List.append_nil] at order
  rw [order]
  intro n listed m out
  have found := descends.edges n listed m ((edges n m).mpr out)
  rw [List.append_nil] at found
  exact found.imp_right fun either => either.resolve_right fun met => List.not_mem_nil met.1

theorem reversePostorderBehind (entry : g.entry = some e) : g.reversePostorder.head? = some e ∧
    ∀ n front back, g.reversePostorder = front ++ n :: back → n ≠ e →
      ∃ m ∈ front, n ∈ (g.node m).allSuccs := by
  refine ⟨?_,fun n front back here other => ?_⟩
  · rw [reversePostorder,entry,Option.toList_some,Flow.explore,if_neg (by simp),Flow.explore]
    rfl
  · obtain ⟨new,order,behind⟩ := @Flow.exploreBehind g.searchOrder ⟨[],[]⟩ g.entry.toList (g.store.size + 1)
    rw [← reversePostorder,here,List.append_nil] at order
    rcases behind n front back order.symm with first | ⟨m,earlier,out⟩
    · rw [entry,Option.toList_some,List.mem_singleton] at first
      exact absurd first other
    · exact ⟨m,earlier,by simpa [searchOrder,Node.allSuccs,or_comm] using out⟩

end

end RegCode.Graph

/-! ### Evaluation

The search and the stable merge sort are defined by well-founded recursion, which the kernel does not
unfold. Their structural twins compute, so a run on a given program is evaluated after rewriting by
`exploreNested` and `sortByHalves`. -/

namespace RegCode.Flow

variable {next : NodeId → List NodeId}

def exploreWork (next : NodeId → List NodeId) : Nat → List NodeId → Search → Search
  | 0, _, s => s
  | depth + 1, work, s => work.foldl (fun s n =>
    if s.seen.contains n then s
    else
      let inner := exploreWork next depth (next n) { s with seen := n :: s.seen }
      { inner with order := n :: inner.order }) s

theorem exploreNested (depth : Nat) (work : List NodeId) (s : Search) :
    explore next depth work s = exploreWork next depth work s := by
  fun_induction explore next depth work s with
  | case1 depth s => cases depth <;> rfl
  | case2 s n rest => rfl
  | case3 s depth n rest seen ih =>
    rw [ih,exploreWork,exploreWork,List.foldl_cons,if_pos seen]
  | case4 s depth n rest fresh inner ihInner ih =>
    rw [ih,exploreWork,exploreWork,List.foldl_cons,if_neg fresh,← ihInner]

end RegCode.Flow

namespace RegCode

section
variable {α : Type} (le : α → α → Bool)

def weave : List α → List α → List α
  | [], ys => ys
  | x :: xs, ys => ys.takeWhile (fun y => !le x y) ++ x :: weave xs (ys.dropWhile fun y => !le x y)

theorem mergeWeaves (xs ys : List α) : xs.merge ys le = weave le xs ys := by
  induction xs generalizing ys with
  | nil => rw [List.nil_merge,weave]
  | cons x xs ih =>
    rw [weave]
    induction ys with
    | nil =>
      rw [List.merge_right,List.takeWhile_nil,List.dropWhile_nil,← ih,List.merge_right,List.nil_append]
    | cons y ys later =>
      by_cases first : le x y = true
      · rw [List.cons_merge_cons,if_pos first,ih]
        simp [first]
      · rw [List.cons_merge_cons,if_neg first,later]
        simp [first]

def sortHalves : Nat → List α → List α
  | depth + 1, x :: y :: xs =>
    let half := (xs.length + 3) / 2
    weave le (sortHalves depth ((x :: y :: xs).take half)) (sortHalves depth ((x :: y :: xs).drop half))
  | _, xs => xs

theorem sortHalvesDeep (depth : Nat) (xs : List α) (deep : xs.length ≤ depth) :
    xs.mergeSort le = sortHalves le depth xs := by
  induction depth generalizing xs with
  | zero =>
    obtain rfl : xs = [] := by simpa using deep
    simp [sortHalves]
  | succ depth ih =>
    match xs with
    | [] => simp [sortHalves]
    | [x] => simp [sortHalves]
    | x :: y :: xs =>
      simp only [List.length_cons] at deep
      rw [List.mergeSort,sortHalves,mergeWeaves]
      simp only [List.MergeSort.Internal.splitInTwo_fst,List.MergeSort.Internal.splitInTwo_snd,
        List.length_cons]
      -- Both halves of a list of two or more are shorter than it is.
      rw [ih _ (by rw [List.length_take,List.length_cons,List.length_cons]; omega),
        ih _ (by rw [List.length_drop,List.length_cons,List.length_cons]; omega)]

theorem sortByHalves (xs : List α) : xs.mergeSort le = sortHalves le xs.length xs :=
  sortHalvesDeep le xs.length xs (Nat.le_refl _)

end

end RegCode
