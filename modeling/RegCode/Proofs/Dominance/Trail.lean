import RegCode.Proofs.Flow.Path
import RegCode.Flow.Dominators
import Mathlib.Data.List.Chain
import Mathlib.Data.List.Nodup
import Mathlib.Data.List.Perm.Subperm

/-! Ways along edges, nodes that every way meets, and graphs whose nodes are numbered in reverse
postorder. -/
namespace RegCode

def Circle (next : NodeId → List NodeId) (ns : List NodeId) : Prop :=
  ns ≠ [] ∧ (ns ++ ns.take 1).IsChain fun a b => b ∈ next a

theorem Circle.rotate {next : NodeId → List NodeId} {front back : List NodeId} {n : NodeId}
    (circle : Circle next (front ++ n :: back)) : Circle next (n :: (back ++ front)) := by
  refine ⟨List.cons_ne_nil _ _,?_⟩
  cases front with
  | nil => simpa using circle.2
  | cons f front =>
    have chain : ((f :: front ++ [n]) ++ (back ++ [f])).IsChain fun a b => b ∈ next a := by
      simpa using circle.2
    have second : (n :: back ++ [f]).IsChain fun a b => b ∈ next a := by
      have := circle.2
      rw [List.append_assoc] at this
      simpa using (List.isChain_append.mp this).2.1
    have first : (f :: front ++ [n]).IsChain fun a b => b ∈ next a := (List.isChain_append.mp chain).1
    have whole : n :: (back ++ f :: front) ++ (n :: (back ++ f :: front)).take 1 =
        n :: back ++ (f :: front ++ [n]) := by simp
    rw [whole,List.isChain_append]
    refine ⟨(List.isChain_append.mp second).1,first,fun x last y head => ?_⟩
    have head : f = y := by simpa using head
    exact (List.isChain_append.mp second).2.2 x last y (by simp [head])

theorem descent (num : NodeId → Int) (ns : List NodeId) : (∃ a b, [a,b] <:+: ns ∧ num b ≤ num a) ∨
    ns.Pairwise fun a b => num a < num b := by
  induction ns with
  | nil => exact .inr .nil
  | cons a ns ih =>
    rcases ih with ⟨b,c,inside,le⟩ | ascends
    · exact .inl ⟨b,c,List.infix_cons inside,le⟩
    · cases ns with
      | nil => exact .inr (List.pairwise_singleton ..)
      | cons b ns =>
        by_cases le : num b ≤ num a
        · exact .inl ⟨a,b,⟨[],ns,rfl⟩,le⟩
        · refine .inr (List.pairwise_cons.mpr ⟨fun c member => ?_,ascends⟩)
          have up := Int.not_le.mp le
          rcases List.mem_cons.mp member with rfl | member
          · exact up
          · exact Int.lt_trans up ((List.pairwise_cons.mp ascends).1 c member)

theorem Circle.falls {next : NodeId → List NodeId} {ns : List NodeId} (circle : Circle next ns)
    (num : NodeId → Int) : ∃ a b, [a,b] <:+: ns ++ ns.take 1 ∧ num b ≤ num a := by
  obtain ⟨n,ns,rfl⟩ := List.exists_cons_of_ne_nil circle.1
  refine (descent num _).resolve_right fun ascends => ?_
  have first := (List.pairwise_append.mp ascends).2.2 n (List.mem_cons_self ..) n (by simp)
  exact Int.lt_irrefl _ first

namespace Graph

/-- A way along edges through nodes of the kind `ok`, both ends included. -/
inductive Trail (g : Graph) (ok : NodeId → Prop) (a : NodeId) : NodeId → Prop where
  | stay (fits : ok a) : Trail g ok a a
  | on {b c} (way : Trail g ok a b) (out : c ∈ (g.node b).allSuccs) (fits : ok c) : Trail g ok a c

variable {g : Graph} {a b c e n : NodeId}

/-- Every way from the entry to `b` meets `a`. -/
def Dominates (g : Graph) (a b : NodeId) : Prop := ∀ e, g.entry = some e → ¬g.Trail (· ≠ a) e b

/-- Nodes carry their places in the order. It starts with the entry, and every other node has an
edge from a node before it. -/
structure Ranked (g : Graph) : Prop where
  nums : ∀ (k : Nat) n, g.rpo[k]? = some n → (g.node n).num = k
  first : g.rpo.head? = g.entry
  earlier : ∀ n ∈ g.rpo, g.entry ≠ some n →
    ∃ m ∈ g.rpo, n ∈ (g.node m).allSuccs ∧ (g.node m).num < (g.node n).num

namespace Trail

variable {ok ok' : NodeId → Prop}

theorem fits (way : g.Trail ok a b) : ok b := by
  cases way with
  | stay fits => exact fits
  | on way out fits => exact fits

theorem start (way : g.Trail ok a b) : ok a := by
  induction way with
  | stay fits => exact fits
  | on way out fits ih => exact ih

theorem mono (way : g.Trail ok a b) (weaker : ∀ m, ok m → ok' m) : g.Trail ok' a b := by
  induction way with
  | stay fits => exact .stay (weaker _ fits)
  | on way out fits ih => exact .on ih out (weaker _ fits)

theorem trans (first : g.Trail ok a b) (second : g.Trail ok b c) : g.Trail ok a c := by
  induction second with
  | stay fits => exact first
  | on way out fits ih => exact .on ih out fits

end Trail

theorem Edged.allSuccs (edged : g.Edged) (member : a ∈ g.rpo) (out : b ∈ (g.node a).allSuccs) :
    b ∈ g.rpo ∧ a ∈ (g.node b).allPreds := by
  rcases List.mem_append.mp out with out | out
  · obtain ⟨member,into⟩ := edged.succs a member b out
    exact ⟨member,List.mem_append_left _ into⟩
  · obtain ⟨member,into⟩ := edged.catchSuccs a member b out
    exact ⟨member,List.mem_append_right _ into⟩

theorem Edged.allPreds (edged : g.Edged) (member : b ∈ g.rpo) (into : a ∈ (g.node b).allPreds) :
    a ∈ g.rpo ∧ b ∈ (g.node a).allSuccs := by
  rcases List.mem_append.mp into with into | into
  · obtain ⟨member,out⟩ := edged.preds b member a into
    exact ⟨member,List.mem_append_left _ out⟩
  · obtain ⟨member,out⟩ := edged.catchPreds b member a into
    exact ⟨member,List.mem_append_right _ out⟩

theorem Trail.inRpo {ok : NodeId → Prop} (edged : g.Edged) (member : a ∈ g.rpo)
    (way : g.Trail ok a b) : b ∈ g.rpo := by
  induction way with
  | stay fits => exact member
  | on way out fits ih => exact (edged.allSuccs ih out).1

namespace Ranked

variable (ranked : g.Ranked)
include ranked

theorem place (member : n ∈ g.rpo) : ∃ k : Nat, (g.node n).num = k ∧ g.rpo[k]? = some n := by
  obtain ⟨k,here⟩ := List.mem_iff_getElem?.mp member
  exact ⟨k,ranked.nums k n here,here⟩

theorem nonneg (member : n ∈ g.rpo) : 0 ≤ (g.node n).num := by
  obtain ⟨k,num,-⟩ := ranked.place member
  omega

theorem numInj (left : a ∈ g.rpo) (right : b ∈ g.rpo) (same : (g.node a).num = (g.node b).num) :
    a = b := by
  obtain ⟨j,num,here⟩ := ranked.place left
  obtain ⟨k,num',there⟩ := ranked.place right
  have places : j = k := by omega
  subst places
  exact Option.some.inj (here.symm.trans there)

theorem nodup : g.rpo.Nodup := by
  refine List.nodup_iff_getElem?_ne_getElem?.mpr fun i j less inside same => ?_
  have left := ranked.nums i _ (List.getElem?_eq_getElem (Nat.lt_trans less inside))
  have right := ranked.nums j _ (same.symm.trans (List.getElem?_eq_getElem (Nat.lt_trans less inside)))
  omega

theorem entryNum (entry : g.entry = some e) : (g.node e).num = 0 := by
  have first := ranked.first
  rw [entry,List.head?_eq_getElem?] at first
  exact ranked.nums 0 e first

theorem positive (edged : g.Edged) (member : n ∈ g.rpo) (entry : g.entry = some e) (other : n ≠ e) :
    0 < (g.node n).num := by
  have zero := ranked.entryNum entry
  have least := ranked.nonneg member
  have different : (g.node n).num ≠ (g.node e).num :=
    fun same => other (ranked.numInj member (edged.entry e entry) same)
  omega

theorem lessThanLength (member : n ∈ g.rpo) : (g.node n).num < g.rpo.length := by
  obtain ⟨k,num,here⟩ := ranked.place member
  have inside := (List.getElem?_eq_some_iff.mp here).1
  omega

theorem lengthLe (edged : g.Edged) : g.rpo.length ≤ g.store.size := by
  have inside : g.rpo ⊆ List.range g.store.size :=
    fun n member => List.mem_range.mpr (edged.inStore n member)
  simpa using (List.subperm_of_subset ranked.nodup inside).length_le

theorem entryOf (member : n ∈ g.rpo) : ∃ e, g.entry = some e := by
  cases entry : g.entry with
  | some e => exact ⟨e,rfl⟩
  | none =>
    have first := ranked.first
    rw [entry,List.head?_eq_none_iff] at first
    rw [first] at member
    contradiction

theorem reached (entry : g.entry = some e) (member : n ∈ g.rpo) : g.Trail (fun _ => True) e n := by
  obtain ⟨k,num,-⟩ := ranked.place member
  induction k using Nat.strongRecOn generalizing n with
  | _ k ih =>
    by_cases here : n = e
    · exact here ▸ .stay trivial
    · obtain ⟨m,member',out,less⟩ := ranked.earlier n member
        (fun same => here (Option.some.inj (same.symm.trans entry)))
      obtain ⟨j,num',-⟩ := ranked.place member'
      exact .on (ih j (by omega) member' num') out trivial

end Ranked

theorem Dominates.refl (g : Graph) (a : NodeId) : g.Dominates a a := fun _ _ way => way.fits rfl

theorem Dominates.edge (dom : g.Dominates a b) (other : b ≠ a) (out : b ∈ (g.node c).allSuccs) :
    g.Dominates a c := fun e entry way => dom e entry (.on way out other)

theorem Dominates.entry (entry : g.entry = some e) (dom : g.Dominates a e) : a = e := by
  by_contra other
  exact dom e entry (.stay (Ne.symm other))

theorem Dominates.less (ranked : g.Ranked) (dom : g.Dominates a b) (member : b ∈ g.rpo) (other : a ≠ b) : a ∈ g.rpo ∧ (g.node a).num < (g.node b).num := by
  obtain ⟨e,entry⟩ := ranked.entryOf member
  obtain ⟨k,num,-⟩ := ranked.place member
  induction k using Nat.strongRecOn generalizing b with
  | _ k ih =>
    have start : g.entry ≠ some b := fun start => other (dom.entry start)
    obtain ⟨m,inside,out,less⟩ := ranked.earlier b member start
    obtain ⟨j,num',-⟩ := ranked.place inside
    by_cases same : a = m
    · exact same ▸ ⟨inside,less⟩
    · obtain ⟨here,lower⟩ := ih j (by omega) (dom.edge other.symm out) inside same num'
      exact ⟨here,Int.lt_trans lower less⟩

theorem Trail.avoids {ok : NodeId → Prop} (way : g.Trail ok e n) (other : a ≠ b) :
    g.Trail (fun m => m ≠ a ∧ m ≠ b) e n ∨ g.Trail (· ≠ a) e b ∨ g.Trail (· ≠ b) e a := by
  induction way with
  | stay fits =>
    by_cases left : e = a
    · exact .inr (.inr (left ▸ .stay (left ▸ other)))
    · by_cases right : e = b
      · exact .inr (.inl (right ▸ .stay (right ▸ other.symm)))
      · exact .inl (.stay ⟨left,right⟩)
  | @on m n way out fits ih =>
    rcases ih with way | way
    · by_cases left : n = a
      · exact .inr (.inr (left ▸ .on (way.mono fun _ h => h.2) out (left ▸ other)))
      · by_cases right : n = b
        · exact .inr (.inl (right ▸ .on (way.mono fun _ h => h.1) out (right ▸ other.symm)))
        · exact .inl (.on way out ⟨left,right⟩)
    · exact .inr way

theorem Dominates.antisymm (ranked : g.Ranked) (member : b ∈ g.rpo) (left : g.Dominates a b)
    (right : g.Dominates b a) : a = b := by
  by_contra other
  obtain ⟨e,entry⟩ := ranked.entryOf member
  rcases (ranked.reached entry member).avoids other with way | way | way
  · exact way.fits.2 rfl
  · exact left e entry way
  · exact right e entry way

theorem Dominates.trans (left : g.Dominates a b)
    (right : g.Dominates b c) : g.Dominates a c := by
  intro e entry way
  by_cases same : a = b
  · exact right e entry (same ▸ way)
  · -- A way to `c` that avoids `a` meets `b` and so has reached `b` without `a`.
    have meets : ∀ n, g.Trail (· ≠ a) e n → g.Trail (· ≠ b) e n ∨ g.Trail (· ≠ a) e b := by
      intro n way
      induction way with
      | stay fits =>
        by_cases here : e = b
        · exact .inr (here ▸ .stay fits)
        · exact .inl (.stay here)
      | @on m n way out fits ih =>
        by_cases here : n = b
        · exact .inr (here ▸ .on way out fits)
        · exact ih.imp (fun way' => .on way' out here) id
    exact (meets c way).elim (right e entry) (left e entry)

theorem Dominates.total (ranked : g.Ranked) (member : c ∈ g.rpo) (left : g.Dominates a c)
    (right : g.Dominates b c) : g.Dominates a b ∨ g.Dominates b a := by
  by_contra neither
  simp only [not_or,Dominates,not_forall,not_not] at neither
  obtain ⟨⟨e,entry,toB⟩,⟨e',entry',toA⟩⟩ := neither
  cases Option.some.inj (entry.symm.trans entry')
  have one : ∀ n, g.Trail (fun _ => True) e n → g.Trail (· ≠ a) e n ∨ g.Trail (· ≠ b) e n := by
    intro n way
    induction way with
    | stay fits => exact .inl (.stay toB.start)
    | @on m n way out fits ih =>
      rcases ih with way | way
      · by_cases here : n = a
        · exact .inr (here ▸ toA)
        · exact .inl (.on way out here)
      · by_cases here : n = b
        · exact .inl (here ▸ toB)
        · exact .inr (.on way out here)
  rcases one c (ranked.reached entry member) with way | way
  · exact left e entry way
  · exact right e entry way

end Graph

end RegCode
