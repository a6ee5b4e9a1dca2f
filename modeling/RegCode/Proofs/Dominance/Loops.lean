import RegCode.Proofs.Flow.Search
import RegCode.Proofs.Dominance.Exact
import RegCode.Flow.Dominators
import Mathlib

/-! The loops that are found. The body of a loop lies under its header; except at the header it is
entered from itself only, and from everywhere in it the header is reached without leaving it. -/
namespace RegCode

structure Loop.Natural (g : Graph) (l : Loop) : Prop where
  inside : ∀ n ∈ l.body, n ∈ g.rpo ∧ g.Dominates l.header n
  header : l.header ∈ l.body
  closed : ∀ n ∈ l.body, n ≠ l.header → ∀ u ∈ (g.node n).allPreds, u ∈ l.body
  back : ∀ n ∈ l.body, g.Trail (· ∈ l.body) n l.header
  latches : ∀ n ∈ l.latches, n ∈ l.body ∧ l.header ∈ (g.node n).succs
  latched : l.latches ≠ []

namespace LoopForest

variable {g : Graph} {h n : NodeId}

structure Gathering (g : Graph) (h : NodeId) (work body : List NodeId) : Prop where
  inside : ∀ n ∈ body, n ∈ g.rpo ∧ g.Dominates h n
  header : h ∈ body
  closed : ∀ n ∈ body, n ≠ h → ∀ u ∈ (g.node n).allPreds, u ∈ body ∨ u ∈ work
  back : ∀ n ∈ body, g.Trail (· ∈ body) n h
  waiting : ∀ n ∈ work, n ∈ g.rpo ∧ g.Dominates h n ∧ ∃ m ∈ body, m ∈ (g.node n).allSuccs

def missing (g : Graph) (body : List NodeId) : Nat :=
  sumOf (fun i => if i ∈ body then 0 else (g.node i).allPreds.length + 1) g.rpo

theorem sumOfLe {f f' : NodeId → Nat} (le : ∀ i, f' i ≤ f i) (xs : List NodeId) :
    sumOf f' xs ≤ sumOf f xs := by
  induction xs with
  | nil => exact Nat.le_refl _
  | cons x xs ih => exact Nat.add_le_add (le x) ih

theorem sumOfLess {f f' : NodeId → Nat} {c : Nat} {xs : List NodeId} (le : ∀ i, f' i ≤ f i)
    (less : f' n + c ≤ f n) (member : n ∈ xs) : sumOf f' xs + c ≤ sumOf f xs := by
  induction xs with
  | nil => contradiction
  | cons x xs ih =>
    rw [sumOf,sumOf]
    rcases List.mem_cons.mp member with rfl | member
    · have rest := sumOfLe le xs
      omega
    · have rest := ih member
      have here := le x
      omega

theorem missingTaken {body : List NodeId} (member : n ∈ g.rpo) (other : n ∉ body) :
    missing g (n :: body) + ((g.node n).allPreds.length + 1) ≤ missing g body := by
  refine sumOfLess (fun i => ?_) ?_ member
  · by_cases inside : i ∈ body
    · simp [inside]
    · by_cases here : i = n <;> simp [inside,here]
  · simp [other]

theorem Gathering.take {work body : List NodeId} (edged : g.Edged)
    (gathering : Gathering g h (n :: work) body) (other : n ∉ body) :
    Gathering g h ((g.node n).allPreds.reverse ++ work) (n :: body) := by
  obtain ⟨member,dom,m,inside,out⟩ := gathering.waiting n (List.mem_cons_self ..)
  have apart : n ≠ h := fun same => other (same ▸ gathering.header)
  have more : ∀ u, u ∈ body → u ∈ n :: body := fun u => List.mem_cons_of_mem n
  refine ⟨fun u there => ?_,more h gathering.header,fun u there out u' into => ?_,fun u there => ?_,
    fun u waits => ?_⟩
  · rcases List.mem_cons.mp there with rfl | there
    · exact ⟨member,dom⟩
    · exact gathering.inside u there
  · rcases List.mem_cons.mp there with rfl | there
    · exact .inr (List.mem_append_left _ (List.mem_reverse.mpr into))
    · rcases gathering.closed u there out u' into with taken | waits
      · exact .inl (more u' taken)
      · rcases List.mem_cons.mp waits with rfl | waits
        · exact .inl (List.mem_cons_self ..)
        · exact .inr (List.mem_append_right _ waits)
  · rcases List.mem_cons.mp there with rfl | there
    · have rest := (gathering.back m inside).mono more
      exact .trans (.on (.stay (List.mem_cons_self ..)) out (more m inside)) rest
    · exact (gathering.back u there).mono more
  · rcases List.mem_append.mp waits with into | waits
    · obtain ⟨member',out'⟩ := edged.allPreds member (List.mem_reverse.mp into)
      exact ⟨member',dom.edge apart out',n,List.mem_cons_self ..,out'⟩
    · obtain ⟨member',dom',m',inside',out'⟩ := gathering.waiting u (List.mem_cons_of_mem n waits)
      exact ⟨member',dom',m',more m' inside',out'⟩

theorem Gathering.gather (ranked : g.Ranked) (edged : g.Edged) {fuel : Nat} {work body : List NodeId}
    (gathering : Gathering g h work body) (enough : missing g body + work.length ≤ fuel) :
    Gathering g h [] (gather g (Dominators.ofGraph g) h fuel work body) ∧
      ∀ u, u ∈ body ∨ u ∈ work → u ∈ LoopForest.gather g (Dominators.ofGraph g) h fuel work body := by
  induction fuel generalizing work body with
  | zero =>
    obtain rfl : work = [] := List.eq_nil_of_length_eq_zero (by omega)
    exact ⟨gathering,fun u either => either.elim id nofun⟩
  | succ fuel ih =>
    cases work with
    | nil => exact ⟨gathering,fun u either => either.elim id nofun⟩
    | cons n work =>
      obtain ⟨member,dom,-⟩ := gathering.waiting n (List.mem_cons_self ..)
      have under := (Dominators.dominatesIff ranked edged member).mpr dom
      rw [List.length_cons] at enough
      rw [LoopForest.gather]
      by_cases inside : n ∈ body
      · rw [if_pos (by simp [inside])]
        have rest : Gathering g h work body := ⟨gathering.inside,gathering.header,
          fun u there out u' into => (gathering.closed u there out u' into).elim .inl fun waits =>
            (List.mem_cons.mp waits).elim (fun same => .inl (same ▸ inside)) .inr,
          gathering.back,fun u waits => gathering.waiting u (List.mem_cons_of_mem n waits)⟩
        obtain ⟨done,all⟩ := ih rest (by omega)
        refine ⟨done,fun u either => all u ?_⟩
        rcases either with there | waits
        · exact .inl there
        · rcases List.mem_cons.mp waits with rfl | waits
          · exact .inl inside
          · exact .inr waits
      · rw [if_neg (by simp [inside,under])]
        have less := missingTaken member inside
        obtain ⟨done,all⟩ := ih (gathering.take edged inside)
          (by rw [List.length_append,List.length_reverse]; omega)
        refine ⟨done,fun u either => all u ?_⟩
        rcases either with there | waits
        · exact .inl (List.mem_cons_of_mem n there)
        · rcases List.mem_cons.mp waits with rfl | waits
          · exact .inl (List.mem_cons_self ..)
          · exact .inr (List.mem_append_right _ waits)

theorem missingLe (g : Graph) (body : List NodeId) : missing g body + 1 ≤ edgeCount g := by
  refine Nat.succ_le_succ (sumOfLe (fun i => ?_) g.rpo)
  split <;> omega

theorem Gathering.natural {l : Loop} (gathering : Gathering g l.header [] l.body)
    (latches : ∀ n ∈ l.latches, n ∈ l.body ∧ l.header ∈ (g.node n).succs) (latched : l.latches ≠ []) :
    l.Natural g :=
  ⟨gathering.inside,gathering.header,
    fun n inside out u into => (gathering.closed n inside out u into).resolve_right List.not_mem_nil,
    gathering.back,latches,latched⟩

theorem naturalAddLatch (ranked : g.Ranked) (edged : g.Edged) {s : NodeId} (member : n ∈ g.rpo)
    (out : s ∈ (g.node n).succs) (dom : g.Dominates s n) {loops : List Loop}
    (natural : ∀ l ∈ loops, l.Natural g) :
    ∀ l ∈ addLatch g (Dominators.ofGraph g) s n loops, l.Natural g := by
  have out' := List.mem_append_left (g.node n).catchSuccs out
  have latch : ∀ {body : List NodeId}, s ∈ body → ∀ u ∈ [n], u ∈ g.rpo ∧ g.Dominates s u ∧
      ∃ m ∈ body, m ∈ (g.node u).allSuccs := fun inside u same => by
    rw [List.mem_singleton.mp same]
    exact ⟨member,dom,s,inside,out'⟩
  induction loops with
  | nil =>
    intro l here
    rw [List.mem_singleton.mp here]
    have start : Gathering g s [n] [s] := by
      refine ⟨fun u same => ?_,List.mem_singleton_self s,fun u same other => ?_,fun u same => ?_,
        latch (List.mem_singleton_self s)⟩
      · rw [List.mem_singleton.mp same]
        exact ⟨(edged.succs n member s out).1,.refl g s⟩
      · exact absurd (List.mem_singleton.mp same) other
      · rw [List.mem_singleton.mp same]
        exact .stay (List.mem_singleton_self s)
    obtain ⟨done,all⟩ := start.gather ranked edged (missingLe g [s])
    refine done.natural (fun u same => ?_) nofun
    rw [List.mem_singleton.mp same]
    exact ⟨all n (.inr (List.mem_singleton_self n)),out⟩
  | cons l loops ih =>
    obtain ⟨here,rest⟩ := List.forall_mem_cons.mp natural
    rw [addLatch]
    split
    · rename_i same
      subst same
      refine List.forall_mem_cons.mpr ⟨?_,rest⟩
      have start : Gathering g l.header [n] l.body :=
        ⟨here.inside,here.header,fun u inside other u' into => .inl (here.closed u inside other u' into),
          here.back,latch here.header⟩
      obtain ⟨done,all⟩ := start.gather ranked edged (missingLe g l.body)
      refine done.natural (fun u latch => ?_) (by simp)
      rcases List.mem_append.mp latch with old | new
      · exact ⟨all u (.inl (here.latches u old).1),(here.latches u old).2⟩
      · rw [List.mem_singleton.mp new]
        exact ⟨all n (.inr (List.mem_singleton_self n)),out⟩
    · exact List.forall_mem_cons.mpr ⟨here,ih rest⟩

theorem headersAddLatch (d : Dominators) (s n : NodeId) {loops : List Loop}
    (distinct : (loops.map (·.header)).Nodup) :
    ((addLatch g d s n loops).map (·.header)).Nodup ∧
      ∀ h, h ∈ (addLatch g d s n loops).map (·.header) → h = s ∨ h ∈ loops.map (·.header) := by
  induction loops with
  | nil => exact ⟨by simp [addLatch],by simp [addLatch]⟩
  | cons l loops ih =>
    obtain ⟨new,rest⟩ := List.nodup_cons.mp distinct
    rw [addLatch]
    split
    · exact ⟨distinct,fun h member => .inr member⟩
    · rename_i other
      obtain ⟨distinct',old⟩ := ih rest
      refine ⟨List.nodup_cons.mpr ⟨fun member => ?_,distinct'⟩,fun h member => ?_⟩
      · exact (old _ member).elim other new
      · rcases List.mem_cons.mp member with rfl | member
        · exact .inr (List.mem_cons_self ..)
        · exact (old h member).imp id (List.mem_cons_of_mem _)

theorem naturalOfGraph (ranked : g.Ranked) (edged : g.Edged) :
    (∀ l ∈ (ofGraph g (Dominators.ofGraph g)).loops, l.Natural g) ∧
      ((ofGraph g (Dominators.ofGraph g)).loops.map (·.header)).Nodup := by
  let Good (f : LoopForest) : Prop := (∀ l ∈ f.loops, l.Natural g) ∧ (f.loops.map (·.header)).Nodup
  suffices all : Good (g.rpo.foldl (fun f n => (g.node n).succs.foldl
      (fun f s => addEdge g (Dominators.ofGraph g) f n s) f) ⟨[],[]⟩) by
    have same := List.mergeSort_perm (g.rpo.foldl (fun f n => (g.node n).succs.foldl
      (fun f s => addEdge g (Dominators.ofGraph g) f n s) f) ⟨[],[]⟩).loops
        fun a b => decide (b.body.length ≤ a.body.length)
    exact ⟨fun l member => all.1 l (same.mem_iff.mp member),(same.map _).nodup_iff.mpr all.2⟩
  refine List.foldlRecOn g.rpo _ (motive := Good) ⟨nofun,List.nodup_nil⟩ fun f good n member => ?_
  refine List.foldlRecOn (g.node n).succs _ (motive := Good) good fun f good s out => ?_
  unfold addEdge
  split
  · exact good
  · split
    · exact good
    · rename_i dom
      have dom := (Dominators.dominatesIff ranked edged member).mp (by simpa using dom)
      exact ⟨naturalAddLatch ranked edged member out dom good.1,(headersAddLatch _ s n good.2).1⟩

end LoopForest

theorem Graph.Trail.leaves {g : Graph} {ok : NodeId → Prop} {a b : NodeId} (way : g.Trail ok a b) (other : a ≠ b) :
    ∃ c ∈ (g.node a).allSuccs, ok c := by
  induction way with
  | stay fits => exact absurd rfl other
  | @on u n way out fits ih =>
    by_cases here : a = u
    · exact ⟨n,here ▸ out,fits⟩
    · exact ih here

namespace Loop.Natural

variable {g : Graph} {l m : Loop} {a e n : NodeId} {ok : NodeId → Prop}

theorem enters (natural : l.Natural g) (edged : g.Edged) (entry : g.entry = some e)
    (way : g.Trail ok e n) (inside : n ∈ l.body) :
    g.Trail ok e l.header ∧ g.Trail (fun m => ok m ∧ m ∈ l.body) l.header n := by
  induction way with
  | stay fits =>
    obtain rfl : e = l.header := by
      by_contra other
      exact (natural.inside e inside).2 e entry (.stay other)
    exact ⟨.stay fits,.stay ⟨fits,inside⟩⟩
  | @on u n way out fits ih =>
    by_cases here : n = l.header
    · subst here
      exact ⟨.on way out fits,.stay ⟨fits,inside⟩⟩
    · have member : g.Trail (fun _ => True) e u := way.mono fun _ _ => trivial
      have into := (edged.allSuccs (member.inRpo edged (edged.entry e entry)) out).2
      obtain ⟨first,rest⟩ := ih (natural.closed n inside here u into)
      exact ⟨first,.on rest out ⟨fits,inside⟩⟩

theorem dominator (natural : l.Natural g) (ranked : g.Ranked) (edged : g.Edged) (inside : n ∈ l.body)
    (dom : g.Dominates a n) : a ∈ l.body ∨ g.Dominates a l.header := by
  by_cases member : a ∈ l.body
  · exact .inl member
  · refine .inr fun e entry way => ?_
    have reached := ranked.reached entry (natural.inside n inside).1
    obtain ⟨-,rest⟩ := natural.enters edged entry reached inside
    exact dom e entry (way.trans (rest.mono fun m both same => member (same ▸ both.2)))

theorem nested (inner : l.Natural g) (outer : m.Natural g) (ranked : g.Ranked) (edged : g.Edged)
    (inside : l.header ∈ m.body) (other : l.header ≠ m.header) : ∀ n ∈ l.body, n ∈ m.body := by
  intro n member
  have outside : m.header ∉ l.body := fun there => other
    ((inner.inside _ there).2.antisymm ranked (outer.inside _ outer.header).1 (outer.inside _ inside).2)
  have way := inner.back n member
  suffices all : ∀ b, g.Trail (· ∈ l.body) n b → b ∈ m.body → n ∈ m.body from all _ way inside
  intro b way there
  induction way with
  | stay fits => exact there
  | @on u b way out fits ih =>
    refine ih (outer.closed b there (fun same => outside (same ▸ fits)) u ?_)
    exact (edged.allSuccs (inner.inside u way.fits).1 out).2

theorem onward (natural : l.Natural g) (ranked : g.Ranked) (edged : g.Edged) (inside : n ∈ l.body) :
    ∃ c ∈ (g.node n).allSuccs, c ∈ l.body := by
  by_cases here : n = l.header
  · obtain ⟨t,latch⟩ := List.exists_mem_of_ne_nil _ natural.latched
    obtain ⟨there,out⟩ := natural.latches t latch
    by_cases same : n = t
    · exact ⟨l.header,List.mem_append_left _ (same ▸ out),natural.header⟩
    · obtain ⟨e,entry⟩ := ranked.entryOf (natural.inside n inside).1
      obtain ⟨-,way⟩ := natural.enters edged entry
        (ranked.reached entry (natural.inside t there).1) there
      obtain ⟨c,out,fits⟩ := way.leaves (here ▸ same)
      exact ⟨c,here ▸ out,fits.2⟩
  · exact (natural.back n inside).leaves here

end Loop.Natural

/-! The loops are all there are. Each body is what leads to a latch without passing the header, so that two
loops are apart or one lies in the other, and the order by size puts every loop behind those around it. -/

namespace LoopForest

variable {g : Graph} {h n : NodeId}

theorem gatherLeads (edged : g.Edged) {d : Dominators} {ts : List NodeId} (fuel : Nat) {work body : List NodeId}
    (header : h ∈ body)
    (gathered : ∀ n ∈ body, n = h ∨ ∃ t ∈ ts, g.Trail (· ≠ h) n t)
    (waiting : ∀ n ∈ work, n ∈ g.rpo ∧ (n = h ∨ ∃ t ∈ ts, g.Trail (· ≠ h) n t)) :
    ∀ n ∈ gather g d h fuel work body, n = h ∨ ∃ t ∈ ts, g.Trail (· ≠ h) n t := by
  induction fuel generalizing work body with
  | zero => exact gathered
  | succ fuel ih =>
    cases work with
    | nil => exact gathered
    | cons n work =>
      obtain ⟨⟨member,leads⟩,waiting⟩ := List.forall_mem_cons.mp waiting
      rw [gather]
      split
      · exact ih header gathered waiting
      · rename_i taken
        have other : n ≠ h := by
          rintro rfl
          simp [header] at taken
        obtain ⟨t,latch,way⟩ := leads.resolve_left other
        refine ih (List.mem_cons_of_mem n header) (List.forall_mem_cons.mpr ⟨.inr ⟨t,latch,way⟩,gathered⟩) ?_
        intro u waits
        rcases List.mem_append.mp waits with into | waits
        · obtain ⟨member',out⟩ := edged.allPreds member (List.mem_reverse.mp into)
          refine ⟨member',or_iff_not_imp_left.mpr fun apart => ⟨t,latch,?_⟩⟩
          exact .trans (.on (.stay apart) out other) way
        · exact waiting u waits

def edges (g : Graph) : List (NodeId × NodeId) := g.rpo.flatMap fun n => (g.node n).succs.map fun s => (n,s)

structure Found (g : Graph) (done : List (NodeId × NodeId)) (f : LoopForest) : Prop where
  headers : ∀ h, h ∈ f.loops.map (·.header) ↔ ∃ t, (t,h) ∈ done ∧ g.Dominates h t
  latches : ∀ l ∈ f.loops, ∀ t, t ∈ l.latches ↔ (t,l.header) ∈ done ∧ g.Dominates l.header t
  headed : ∀ l ∈ f.loops, l.header ∈ l.body
  bodies : ∀ l ∈ f.loops, ∀ n ∈ l.body, n = l.header ∨ ∃ t ∈ l.latches, g.Trail (· ≠ l.header) n t
  once : ∀ l ∈ f.loops, l.body.Nodup
  irreducible : ∀ n s, (n,s) ∈ f.irreducible ↔
    (n,s) ∈ done ∧ (g.node s).num ≤ (g.node n).num ∧ ¬g.Dominates s n

variable {d : Dominators} {s : NodeId} {loops : List Loop} {l m : Loop}

theorem addLatchOrigin (distinct : (loops.map (·.header)).Nodup) (member : l ∈ addLatch g d s n loops) :
    (l ∈ loops ∧ l.header ≠ s) ∨
    (∃ k ∈ loops, k.header = s ∧
      l = { k with latches := k.latches ++ [n], body := gather g d s (edgeCount g) [n] k.body }) ∨
    l = ⟨s,[n],gather g d s (edgeCount g) [n] [s]⟩ ∧ s ∉ loops.map (·.header) := by
  induction loops with
  | nil => exact .inr (.inr ⟨List.mem_singleton.mp member,List.not_mem_nil⟩)
  | cons k loops ih =>
    obtain ⟨new,distinct⟩ := List.nodup_cons.mp distinct
    rw [addLatch] at member
    split at member
    · rename_i same
      rcases List.mem_cons.mp member with rfl | member
      · exact .inr (.inl ⟨k,List.mem_cons_self ..,same,by rw [same]⟩)
      · refine .inl ⟨List.mem_cons_of_mem k member,fun here => new ?_⟩
        exact List.mem_map.mpr ⟨l,member,here.trans same.symm⟩
    · rename_i other
      rcases List.mem_cons.mp member with rfl | member
      · exact .inl ⟨List.mem_cons_self ..,other⟩
      · rcases ih distinct member with ⟨old,apart⟩ | ⟨k',old,same,rfl⟩ | ⟨rfl,none⟩
        · exact .inl ⟨List.mem_cons_of_mem k old,apart⟩
        · exact .inr (.inl ⟨k',List.mem_cons_of_mem k old,same,rfl⟩)
        · exact .inr (.inr ⟨rfl,by simpa [Ne.symm other] using none⟩)

theorem headerAdded (d : Dominators) (s n : NodeId) (loops : List Loop) :
    s ∈ (addLatch g d s n loops).map (·.header) ∧
      ∀ h ∈ loops.map (·.header), h ∈ (addLatch g d s n loops).map (·.header) := by
  induction loops with
  | nil => exact ⟨by simp [addLatch],nofun⟩
  | cons k loops ih =>
    rw [addLatch]
    split
    · rename_i same
      exact ⟨by simp [same],fun h member => member⟩
    · refine ⟨List.mem_cons_of_mem _ ih.1,fun h member => ?_⟩
      rcases List.mem_cons.mp member with rfl | member
      · exact List.mem_cons_self ..
      · exact List.mem_cons_of_mem _ (ih.2 h member)

theorem gatherMore (fuel : Nat) {work body : List NodeId} (member : n ∈ body) : n ∈ gather g d h fuel work body := by
  induction fuel generalizing work body with
  | zero => exact member
  | succ fuel ih =>
    cases work with
    | nil => exact member
    | cons m work =>
      rw [gather]
      split
      · exact ih member
      · exact ih (List.mem_cons_of_mem m member)

theorem gatherOnce (fuel : Nat) {work body : List NodeId} (once : body.Nodup) :
    (gather g d h fuel work body).Nodup := by
  induction fuel generalizing work body with
  | zero => exact once
  | succ fuel ih =>
    cases work with
    | nil => exact once
    | cons n work =>
      rw [gather]
      split
      · exact ih once
      · rename_i new
        refine ih (List.nodup_cons.mpr ⟨fun member => new ?_,once⟩)
        simp [member]

theorem Found.latch {done : List (NodeId × NodeId)} {f : LoopForest} (found : Found g done f)
    (distinct : (f.loops.map (·.header)).Nodup) (edged : g.Edged) (member : n ∈ g.rpo)
    (dom : g.Dominates s n) :
    Found g (done ++ [(n,s)]) { f with loops := addLatch g d s n f.loops } := by
  have leads : ∀ {ts : List NodeId}, n ∈ ts → ∀ u ∈ [n], u ∈ g.rpo ∧ (u = s ∨ ∃ t ∈ ts, g.Trail (· ≠ s) u t) := by
    intro ts latch u same
    rw [List.mem_singleton.mp same]
    exact ⟨member,or_iff_not_imp_left.mpr fun other => ⟨n,latch,.stay other⟩⟩
  have more : ∀ {t h : NodeId}, (t,h) ∈ done ++ [(n,s)] ∧ g.Dominates h t ↔
      (t,h) ∈ done ∧ g.Dominates h t ∨ t = n ∧ h = s := by
    intro t h
    rw [List.mem_append,List.mem_singleton,Prod.mk.injEq]
    constructor
    · rintro ⟨old | new,under⟩
      · exact .inl ⟨old,under⟩
      · exact .inr new
    · rintro (⟨old,under⟩ | ⟨rfl,rfl⟩)
      · exact ⟨.inl old,under⟩
      · exact ⟨.inr ⟨rfl,rfl⟩,dom⟩
  refine ⟨fun h => ?_,fun l listed t => ?_,fun l listed => ?_,fun l listed u inside => ?_,fun l listed => ?_,
    fun u v => ?_⟩
  · simp only [more]
    constructor
    · intro here
      rcases (headersAddLatch d s n distinct).2 h here with rfl | old
      · exact ⟨n,.inr ⟨rfl,rfl⟩⟩
      · obtain ⟨t,there⟩ := (found.headers h).mp old
        exact ⟨t,.inl there⟩
    · rintro ⟨t,there | ⟨rfl,rfl⟩⟩
      · exact (headerAdded d s n f.loops).2 h ((found.headers h).mpr ⟨t,there⟩)
      · exact (headerAdded d h t f.loops).1
  · rw [more]
    rcases addLatchOrigin distinct listed with ⟨old,apart⟩ | ⟨k,old,rfl,rfl⟩ | ⟨rfl,none⟩
    · rw [found.latches l old t,or_iff_left fun both => apart both.2]
    · rw [List.mem_append,List.mem_singleton,found.latches k old t]
      simp
    · have empty : ¬((t,s) ∈ done ∧ g.Dominates s t) := fun there => none ((found.headers s).mpr ⟨t,there⟩)
      simp [empty]
  · rcases addLatchOrigin distinct listed with ⟨old,apart⟩ | ⟨k,old,rfl,rfl⟩ | ⟨rfl,none⟩
    · exact found.headed l old
    · exact gatherMore _ (found.headed k old)
    · exact gatherMore _ (List.mem_singleton_self s)
  · rcases addLatchOrigin distinct listed with ⟨old,apart⟩ | ⟨k,old,rfl,rfl⟩ | ⟨rfl,none⟩
    · exact found.bodies l old u inside
    · refine gatherLeads edged _ (found.headed k old) (fun v there => ?_) (leads (by simp)) u inside
      refine (found.bodies k old v there).imp_right fun ends => ?_
      obtain ⟨t,latch,way⟩ := ends
      exact ⟨t,List.mem_append_left _ latch,way⟩
    · exact gatherLeads edged _ (List.mem_singleton_self s) (fun u same => .inl (List.mem_singleton.mp same))
        (leads (List.mem_singleton_self n)) u inside
  · rcases addLatchOrigin distinct listed with ⟨old,apart⟩ | ⟨k,old,rfl,rfl⟩ | ⟨rfl,none⟩
    · exact found.once l old
    · exact gatherOnce _ (found.once k old)
    · exact gatherOnce _ (List.nodup_singleton s)
  · rw [found.irreducible,List.mem_append,List.mem_singleton,Prod.mk.injEq]
    constructor
    · rintro ⟨old,rest⟩
      exact ⟨.inl old,rest⟩
    · rintro ⟨old | ⟨rfl,rfl⟩,le,under⟩
      · exact ⟨old,le,under⟩
      · exact absurd dom under

theorem memEdges {t h : NodeId} : (t,h) ∈ edges g ↔ t ∈ g.rpo ∧ h ∈ (g.node t).succs := by
  simp [edges]

theorem foundEdges (ranked : g.Ranked) (edged : g.Edged) (done : List (NodeId × NodeId))
    (inside : ∀ e ∈ done, e.1 ∈ g.rpo) :
    Found g done (done.foldl (fun f e => addEdge g (Dominators.ofGraph g) f e.1 e.2) ⟨[],[]⟩) ∧
      ((done.foldl (fun f e => addEdge g (Dominators.ofGraph g) f e.1 e.2) ⟨[],[]⟩).loops.map (·.header)).Nodup := by
  induction done using List.reverseRecOn with
  | nil => exact ⟨⟨by simp,nofun,nofun,nofun,nofun,by simp⟩,List.nodup_nil⟩
  | append_singleton done e ih =>
    obtain ⟨n,s⟩ := e
    obtain ⟨found,distinct⟩ := ih fun e member => inside e (List.mem_append_left _ member)
    have member : n ∈ g.rpo := inside (n,s) (by simp)
    rw [List.foldl_append,List.foldl_cons,List.foldl_nil]
    obtain ⟨f,fold⟩ : ∃ f, done.foldl (fun f e => addEdge g (Dominators.ofGraph g) f e.1 e.2) ⟨[],[]⟩ = f := ⟨_,rfl⟩
    rw [fold] at found distinct ⊢
    dsimp only
    unfold addEdge
    -- An edge that goes forward, or back to a node that does not dominate its source, makes no latch.
    have more : ¬g.Dominates s n → ∀ {t h : NodeId}, (t,h) ∈ done ++ [(n,s)] ∧ g.Dominates h t ↔
        (t,h) ∈ done ∧ g.Dominates h t := by
      intro apart t h
      rw [List.mem_append,List.mem_singleton,Prod.mk.injEq,or_and_right]
      refine or_iff_left fun both => apart ?_
      obtain ⟨⟨rfl,rfl⟩,under⟩ := both
      exact under
    split
    · rename_i forward
      have apart : ¬g.Dominates s n := by
        intro dom
        by_cases same : s = n
        · rw [same] at forward
          exact Int.lt_irrefl _ forward
        · have less := (dom.less ranked member same).2
          omega
      refine ⟨⟨?_,?_,found.headed,found.bodies,found.once,fun u v => ?_⟩,distinct⟩
      · simpa only [more apart] using found.headers
      · simpa only [more apart] using found.latches
      · rw [found.irreducible,List.mem_append,List.mem_singleton,Prod.mk.injEq]
        constructor
        · rintro ⟨old,rest⟩
          exact ⟨.inl old,rest⟩
        · rintro ⟨old | ⟨rfl,rfl⟩,le,under⟩
          · exact ⟨old,le,under⟩
          · omega
    · rename_i back
      split
      · rename_i apart
        have apart : ¬g.Dominates s n := fun dom => by
          rw [(Dominators.dominatesIff ranked edged member).mpr dom] at apart
          contradiction
        refine ⟨⟨?_,?_,found.headed,found.bodies,found.once,fun u v => ?_⟩,distinct⟩
        · simpa only [more apart] using found.headers
        · simpa only [more apart] using found.latches
        · rw [List.mem_append,List.mem_singleton,List.mem_append,List.mem_singleton,found.irreducible,Prod.mk.injEq]
          constructor
          · rintro (⟨old,rest⟩ | ⟨rfl,rfl⟩)
            · exact ⟨.inl old,rest⟩
            · exact ⟨.inr ⟨rfl,rfl⟩,by omega,apart⟩
          · rintro ⟨old | new,rest⟩
            · exact .inl ⟨old,rest⟩
            · exact .inr new
      · rename_i dom
        have dom := (Dominators.dominatesIff ranked edged member).mp (by simpa using dom)
        exact ⟨found.latch distinct edged member dom,(headersAddLatch _ s n distinct).1⟩

theorem foundOfGraph (ranked : g.Ranked) (edged : g.Edged) : ∃ loops,
    Found g (edges g) ⟨loops,(ofGraph g (Dominators.ofGraph g)).irreducible⟩ ∧
      (ofGraph g (Dominators.ofGraph g)).loops = loops.mergeSort fun a b => decide (b.body.length ≤ a.body.length) := by
  have found := (foundEdges ranked edged (edges g) fun e member => (memEdges.mp member).1).1
  rw [edges,List.foldl_flatMap] at found
  simp only [List.foldl_map] at found
  exact ⟨_,found,rfl⟩

end LoopForest

def Loop.Within (l m : Loop) : Prop := (∀ n ∈ l.body, n ∈ m.body) ∧ ∃ n ∈ m.body, n ∉ l.body

variable {g : Graph} {l m : Loop} {n t : NodeId}

theorem Loop.Within.shorter (within : l.Within m) (once : l.body.Nodup) : l.body.length < m.body.length := by
  obtain ⟨all,n,inside,outside⟩ := within
  have more : (n :: l.body) ⊆ m.body := List.cons_subset.mpr ⟨inside,all⟩
  exact (List.subperm_of_subset (List.nodup_cons.mpr ⟨outside,once⟩) more).length_le

namespace Loop.Natural

theorem within (inner : l.Natural g) (outer : m.Natural g) (ranked : g.Ranked) (edged : g.Edged)
    (inside : l.header ∈ m.body) (other : l.header ≠ m.header) : l.Within m :=
  ⟨inner.nested outer ranked edged inside other,m.header,outer.header,fun there => other
    ((inner.inside _ there).2.antisymm ranked (outer.inside _ outer.header).1 (outer.inside _ inside).2)⟩

theorem nest (left : l.Natural g) (right : m.Natural g) (ranked : g.Ranked) (edged : g.Edged)
    (other : l.header ≠ m.header) : (∀ n ∈ l.body, n ∉ m.body) ∨ l.Within m ∨ m.Within l := by
  by_cases first : l.header ∈ m.body
  · exact .inr (.inl (left.within right ranked edged first other))
  by_cases second : m.header ∈ l.body
  · exact .inr (.inr (right.within left ranked edged second other.symm))
  refine .inl fun n inside there => other ?_
  have down := (left.dominator ranked edged inside (right.inside n there).2).resolve_left second
  have up := (right.dominator ranked edged there (left.inside n inside).2).resolve_left first
  exact up.antisymm ranked (right.inside _ right.header).1 down

theorem reaches (natural : l.Natural g) (edged : g.Edged) (member : n ∈ g.rpo)
    (way : g.Trail (· ≠ l.header) n t) (inside : t ∈ l.body) : n ∈ l.body := by
  induction way with
  | stay fits => exact inside
  | on way out fits ih =>
    exact ih (natural.closed _ inside fits _ (edged.allSuccs (way.inRpo edged member) out).2)

end Loop.Natural

theorem findSmallest {ls : List Loop} {p : Loop → Bool}
    (sorted : ls.Pairwise fun a b => a.body.length ≤ b.body.length)
    (once : ∀ a ∈ ls, a.body.Nodup)
    (nests : ∀ a ∈ ls, ∀ b ∈ ls, p a = true → p b = true → a = b ∨ a.Within b ∨ b.Within a) :
    ls.find? p = some l ↔ l ∈ ls ∧ p l = true ∧ ∀ m ∈ ls, p m = true → m = l ∨ l.Within m := by
  have first : ∀ {l}, ls.find? p = some l → l ∈ ls ∧ p l = true ∧ ∀ m ∈ ls, p m = true → m = l ∨ l.Within m := by
    intro l found
    obtain ⟨fits,front,back,parts,before⟩ := List.find?_eq_some_iff_append.mp found
    have here : l ∈ ls := by simp [parts]
    refine ⟨here,fits,fun m member fits' => ?_⟩
    rcases nests m member l here fits' fits with same | within | within
    · exact .inl same
    · have less := within.shorter (once m member)
      rw [parts] at member sorted
      rcases List.mem_append.mp member with earlier | later
      · have no := before m earlier
        rw [fits'] at no
        contradiction
      · rcases List.mem_cons.mp later with same | later
        · exact .inl same
        · have le := (List.pairwise_cons.mp (List.pairwise_append.mp sorted).2.1).1 m later
          omega
    · exact .inr within
  refine ⟨first,fun given => ?_⟩
  obtain ⟨here,fits,least⟩ := given
  obtain ⟨k,found⟩ := Option.isSome_iff_exists.mp (List.find?_isSome.mpr ⟨l,here,fits⟩)
  obtain ⟨there,fits',least'⟩ := first found
  rw [found]
  rcases least k there fits' with same | within
  · rw [same]
  · rcases least' l here fits with same | within'
    · rw [same]
    · have less := within.shorter (once l here)
      have more := within'.shorter (once k there)
      omega

namespace LoopForest

theorem lookupParents (before front back : List Loop) (distinct : ((front ++ l :: back).map (·.header)).Nodup) :
    (((front ++ l :: back).map (·.header)).zip (parentsFrom before (front ++ l :: back))).lookup l.header =
      some ((parentIn l.header (front.reverse ++ before)).map (·.header)) := by
  induction front generalizing before with
  | nil => simp [parentsFrom]
  | cons k front ih =>
    obtain ⟨new,distinct⟩ := List.nodup_cons.mp distinct
    have other : l.header ≠ k.header := by
      intro same
      exact new (List.mem_map.mpr ⟨l,by simp,same⟩)
    rw [List.cons_append,List.map_cons,parentsFrom,List.zip_cons_cons,List.lookup_cons,beq_false_of_ne other,
      ih (k :: before) distinct,List.reverse_cons,List.append_assoc]
    rfl

theorem parentFound {f : LoopForest} (distinct : (f.loops.map (·.header)).Nodup)
    (sorted : f.loops.Pairwise fun a b => b.body.length ≤ a.body.length) (once : ∀ l ∈ f.loops, l.body.Nodup)
    (member : l ∈ f.loops) : ∃ front : List Loop, f.parent? l.header = (parentIn l.header front).map (·.header) ∧
      front.Pairwise (fun a b => a.body.length ≤ b.body.length) ∧
      (∀ m ∈ front, m ∈ f.loops ∧ m ≠ l) ∧ ∀ m ∈ f.loops, l.Within m → m ∈ front := by
  obtain ⟨front,back,parts⟩ := List.append_of_mem member
  have apart := List.Nodup.of_map _ distinct
  rw [parts] at sorted apart
  obtain ⟨earlier,later,-⟩ := List.pairwise_append.mp sorted
  refine ⟨front.reverse,?_,List.pairwise_reverse.mpr earlier,fun m inside => ?_,fun m inside within => ?_⟩
  · rw [parent?,LoopForest.parents,parts,lookupParents [] front back (parts ▸ distinct),List.append_nil]
    rfl
  · have inside := List.mem_reverse.mp inside
    refine ⟨by simp [parts,inside],?_⟩
    rintro rfl
    exact (List.nodup_append.mp apart).2.2 m inside m (List.mem_cons_self ..) rfl
  · have less := within.shorter (once l member)
    rw [parts] at inside
    rcases List.mem_append.mp inside with inside | inside
    · exact List.mem_reverse.mpr inside
    · rcases List.mem_cons.mp inside with rfl | inside
      · omega
      · have le := (List.pairwise_cons.mp later).1 m inside
        omega

/-- What the loops of a graph are. -/
structure Exact (g : Graph) (f : LoopForest) : Prop where
  distinct : (f.loops.map (·.header)).Nodup
  headers : ∀ h, (∃ l ∈ f.loops, l.header = h) ↔ ∃ t ∈ g.rpo, h ∈ (g.node t).succs ∧ g.Dominates h t
  latches : ∀ l ∈ f.loops, ∀ t, t ∈ l.latches ↔
    t ∈ g.rpo ∧ l.header ∈ (g.node t).succs ∧ g.Dominates l.header t
  bodies : ∀ l ∈ f.loops, l.body.Nodup ∧ ∀ n, n ∈ l.body ↔
    n = l.header ∨ n ∈ g.rpo ∧ ∃ t ∈ l.latches, g.Trail (· ≠ l.header) n t
  nests : ∀ l ∈ f.loops, ∀ m ∈ f.loops, l = m ∨ (∀ n ∈ l.body, n ∉ m.body) ∨ l.Within m ∨ m.Within l
  parent : ∀ l ∈ f.loops, ∀ h, f.parent? l.header = some h ↔
    ∃ m ∈ f.loops, m.header = h ∧ l.Within m ∧ ∀ k ∈ f.loops, l.Within k → k = m ∨ m.Within k
  outermost : ∀ l ∈ f.loops, f.parent? l.header = none ↔ ∀ m ∈ f.loops, ¬l.Within m
  innermost : ∀ n l, f.innermost? n = some l ↔
    l ∈ f.loops ∧ n ∈ l.body ∧ ∀ m ∈ f.loops, n ∈ m.body → m = l ∨ l.Within m
  outside : ∀ n, f.innermost? n = none ↔ ∀ l ∈ f.loops, n ∉ l.body
  irreducible : ∀ n s, (n,s) ∈ f.irreducible ↔
    n ∈ g.rpo ∧ s ∈ (g.node n).succs ∧ (g.node s).num ≤ (g.node n).num ∧ ¬g.Dominates s n
  circles : f.irreducible = [] → ∀ ns, Circle (fun n => (g.node n).succs) ns → (∀ n ∈ ns, n ∈ g.rpo) →
    ∃ l ∈ f.loops, l.header ∈ ns ∧ ∀ n ∈ ns, n ∈ l.body

theorem circleLatch {next : NodeId → List NodeId} {h : NodeId} {ns : List NodeId}
    (edges : ∀ a, ∀ b ∈ next a, b ∈ (g.node a).allSuccs) (other : n ≠ h)
    (chain : (n :: ns).IsChain fun a b => b ∈ next a) (member : h ∈ ns) :
    ∃ q ∈ n :: ns, h ∈ next q ∧ g.Trail (· ≠ h) n q := by
  induction ns generalizing n with
  | nil => contradiction
  | cons m ns ih =>
    obtain ⟨out,chain⟩ := List.isChain_cons_cons.mp chain
    by_cases here : m = h
    · exact ⟨n,List.mem_cons_self ..,here ▸ out,.stay other⟩
    · obtain ⟨q,inside,back,way⟩ := ih here chain ((List.mem_cons.mp member).resolve_left (Ne.symm here))
      exact ⟨q,List.mem_cons_of_mem n inside,back,.trans (.on (.stay other) (edges n m out) here) way⟩

theorem circleInside {f : LoopForest}
    (headers : ∀ h, (∃ l ∈ f.loops, l.header = h) ↔ ∃ t ∈ g.rpo, h ∈ (g.node t).succs ∧ g.Dominates h t)
    (latches : ∀ l ∈ f.loops, ∀ t, t ∈ l.latches ↔
      t ∈ g.rpo ∧ l.header ∈ (g.node t).succs ∧ g.Dominates l.header t)
    (bodies : ∀ l ∈ f.loops, ∀ n, n ∈ l.body ↔
      n = l.header ∨ n ∈ g.rpo ∧ ∃ t ∈ l.latches, g.Trail (· ≠ l.header) n t)
    (irreducible : ∀ n s, n ∈ g.rpo → s ∈ (g.node n).succs → (g.node s).num ≤ (g.node n).num → g.Dominates s n)
    {ns : List NodeId} (circle : Circle (fun n => (g.node n).succs) ns) (inside : ∀ n ∈ ns, n ∈ g.rpo) :
    ∃ l ∈ f.loops, l.header ∈ ns ∧ ∀ n ∈ ns, n ∈ l.body := by
  obtain ⟨h,here,least⟩ : ∃ h ∈ ns, ∀ n ∈ ns, (g.node h).num ≤ (g.node n).num := by
    obtain ⟨h,here,least⟩ := ns.toFinset.exists_min_image (fun n => (g.node n).num)
      ⟨_,List.mem_toFinset.mpr (List.head_mem circle.1)⟩
    exact ⟨h,List.mem_toFinset.mp here,fun n member => least n (List.mem_toFinset.mpr member)⟩
  have back : ∀ q ∈ ns, h ∈ (g.node q).succs → g.Dominates h q := fun q member out =>
    irreducible q h (inside q member) out (least q member)
  obtain ⟨q,member,out⟩ : ∃ q ∈ ns, h ∈ (g.node q).succs := by
    obtain ⟨front,rest,rfl⟩ := List.append_of_mem here
    obtain ⟨-,chain⟩ := circle.rotate
    have last := (List.isChain_append.mp chain).2.2 _ (List.getLast?_eq_some_getLast (List.cons_ne_nil _ _)) h
      (by simp)
    refine ⟨_,?_,last⟩
    have member := List.getLast_mem (List.cons_ne_nil h (rest ++ front))
    simp only [List.mem_cons,List.mem_append] at member ⊢
    tauto
  obtain ⟨l,listed,rfl⟩ := (headers h).mpr ⟨q,inside q member,out,back q member out⟩
  refine ⟨l,listed,here,fun n around => (bodies l listed n).mpr ?_⟩
  refine or_iff_not_imp_left.mpr fun other => ⟨inside n around,?_⟩
  obtain ⟨front,rest,rfl⟩ := List.append_of_mem around
  obtain ⟨-,chain⟩ := circle.rotate
  obtain ⟨t,there,edge,way⟩ := circleLatch (fun a b out => List.mem_append_left _ out) other
    (List.isChain_append.mp chain).1 (by
      simp only [List.mem_append,List.mem_cons] at here ⊢
      tauto)
  have there : t ∈ front ++ n :: rest := by
    simp only [List.mem_append,List.mem_cons] at there ⊢
    tauto
  exact ⟨t,(latches l listed t).mpr ⟨inside t there,edge,back t there edge⟩,way⟩

theorem exactOfGraph (ranked : g.Ranked) (edged : g.Edged) : Exact g (ofGraph g (Dominators.ofGraph g)) := by
  obtain ⟨natural,distinct⟩ := naturalOfGraph ranked edged
  obtain ⟨found₀,found,sort⟩ := foundOfGraph ranked edged
  obtain ⟨f,forest⟩ : ∃ f, ofGraph g (Dominators.ofGraph g) = f := ⟨_,rfl⟩
  rw [forest] at natural distinct found sort ⊢
  have listed : ∀ l, l ∈ f.loops ↔ l ∈ found₀ := fun l => by
    rw [sort]
    exact (List.mergeSort_perm ..).mem_iff
  have sorted : f.loops.Pairwise fun a b => b.body.length ≤ a.body.length := by
    have sorts := @List.pairwise_mergeSort _ (fun a b : Loop => decide (b.body.length ≤ a.body.length))
      (fun a b c first second => by
        simp only [decide_eq_true_eq] at *
        exact Nat.le_trans second first) (fun a b => by simpa using Nat.le_total _ _) found₀
    rw [sort]
    exact sorts.imp fun le => by simpa using le
  have headers : ∀ h, (∃ l ∈ f.loops, l.header = h) ↔ ∃ t ∈ g.rpo, h ∈ (g.node t).succs ∧ g.Dominates h t := by
    intro h
    have same := found.headers h
    simp only [List.mem_map,memEdges] at same
    simpa only [listed,and_assoc] using same
  have latches : ∀ l ∈ f.loops, ∀ t, t ∈ l.latches ↔
      t ∈ g.rpo ∧ l.header ∈ (g.node t).succs ∧ g.Dominates l.header t := fun l member t => by
    rw [found.latches l ((listed l).mp member),memEdges,and_assoc]
  have once : ∀ l ∈ f.loops, l.body.Nodup := fun l member => found.once l ((listed l).mp member)
  have bodies : ∀ l ∈ f.loops, ∀ n, n ∈ l.body ↔
      n = l.header ∨ n ∈ g.rpo ∧ ∃ t ∈ l.latches, g.Trail (· ≠ l.header) n t := by
    intro l member n
    constructor
    · intro inside
      exact (found.bodies l ((listed l).mp member) n inside).imp_right
        fun ends => ⟨((natural l member).inside n inside).1,ends⟩
    · rintro (rfl | ⟨there,t,latch,way⟩)
      · exact (natural l member).header
      · exact (natural l member).reaches edged there way ((natural l member).latches t latch).1
  have same : ∀ l ∈ f.loops, ∀ m ∈ f.loops, l.header = m.header → l = m := fun l left m right heads =>
    List.inj_on_of_nodup_map distinct left right heads
  have nests : ∀ l ∈ f.loops, ∀ m ∈ f.loops, l = m ∨ (∀ n ∈ l.body, n ∉ m.body) ∨ l.Within m ∨ m.Within l := by
    intro l left m right
    refine or_iff_not_imp_left.mpr fun other => ?_
    exact (natural l left).nest (natural m right) ranked edged fun heads => other (same l left m right heads)
  have meets : ∀ n, ∀ l ∈ f.loops, ∀ m ∈ f.loops, l.contains n = true → m.contains n = true →
      l = m ∨ l.Within m ∨ m.Within l := by
    intro n l left m right inside there
    refine (nests l left m right).imp_right fun either => either.resolve_left fun apart => ?_
    exact apart n (List.contains_iff_mem.mp inside) (List.contains_iff_mem.mp there)
  have irreducible : ∀ n s, (n,s) ∈ f.irreducible ↔
      n ∈ g.rpo ∧ s ∈ (g.node n).succs ∧ (g.node s).num ≤ (g.node n).num ∧ ¬g.Dominates s n := fun n s => by
    rw [found.irreducible,memEdges,and_assoc]
  have parents := fun l (member : l ∈ f.loops) => parentFound distinct sorted once member
  -- In front of a loop, those around its header are the loops that it lies in.
  have around : ∀ l ∈ f.loops, ∀ m ∈ f.loops, m ≠ l → (m.contains l.header = true ↔ l.Within m) := by
    intro l left m right other
    rw [Loop.contains,List.contains_iff_mem]
    exact ⟨fun inside => (natural l left).within (natural m right) ranked edged inside
      fun heads => other (same l left m right heads).symm,fun within => within.1 _ (natural l left).header⟩
  refine ⟨distinct,headers,latches,fun l member => ⟨once l member,bodies l member⟩,nests,fun l member h => ?_,
    fun l member => ?_,fun n l => ?_,fun n => ?_,irreducible,fun none ns circle inside => ?_⟩
  · obtain ⟨front,parent,ascending,before,all⟩ := parents l member
    have found := fun m => @findSmallest m front (·.contains l.header) ascending
      (fun a inside => once a (before a inside).1)
      fun a left b right => meets l.header a (before a left).1 b (before b right).1
    rw [parent,parentIn,Option.map_eq_some_iff]
    constructor
    · rintro ⟨m,here,rfl⟩
      obtain ⟨inside,holds,least⟩ := (found m).mp here
      refine ⟨m,(before m inside).1,rfl,(around l member m (before m inside).1 (before m inside).2).mp holds,
        fun k there within => least k (all k there within) ?_⟩
      have there := before k (all k there within)
      exact (around l member k there.1 there.2).mpr within
    · rintro ⟨m,here,rfl,within,least⟩
      have inside := all m here within
      refine ⟨m,(found m).mpr ⟨inside,(around l member m here (before m inside).2).mpr within,
        fun k there holds => ?_⟩,rfl⟩
      exact least k (before k there).1 ((around l member k (before k there).1 (before k there).2).mp holds)
  · obtain ⟨front,parent,-,before,all⟩ := parents l member
    rw [parent,parentIn,Option.map_eq_none_iff,List.find?_eq_none]
    constructor
    · intro none m here within
      have inside := all m here within
      exact none m inside ((around l member m here (before m inside).2).mpr within)
    · intro none m inside holds
      exact none m (before m inside).1 ((around l member m (before m inside).1 (before m inside).2).mp holds)
  · have found := @findSmallest l f.loops.reverse (·.contains n) (List.pairwise_reverse.mpr sorted)
      (fun a inside => once a (List.mem_reverse.mp inside))
      fun a left b right => meets n a (List.mem_reverse.mp left) b (List.mem_reverse.mp right)
    rw [innermost?,found]
    simp only [List.mem_reverse,Loop.contains,List.contains_iff_mem]
  · rw [innermost?,List.find?_eq_none]
    simp only [List.mem_reverse,Loop.contains,List.contains_iff_mem]
  · refine circleInside headers latches bodies (fun n s member out le => ?_) circle inside
    by_contra apart
    have listed := (irreducible n s).mpr ⟨member,out,le,apart⟩
    rw [none] at listed
    exact List.not_mem_nil listed

def nested : Graph where
  entry := some 0
  store := #[
    { num := 0, succs := [1] },
    { num := 1, kind := .cond, succs := [2,4], onTrue := some 2, onFalse := some 4, preds := [0,3] },
    { num := 2, succs := [3], preds := [1,3], catchSuccs := [4] },
    { num := 3, kind := .cond, succs := [2,1], onTrue := some 2, onFalse := some 1, preds := [2] },
    { num := 4, kind := .ret, preds := [1], catchPreds := [2], handler := true }]
  nodes := [0,1,2,3,4]
  rpo := [0,1,2,3,4]

theorem nestedRanked : nested.Ranked where
  nums := by
    have all : ∀ k : Nat, k < 5 → ∀ n ∈ nested.rpo[k]?, (nested.node n).num = k := by decide
    intro k n listed
    exact all k (List.getElem?_eq_some_iff.mp listed).1 n listed
  first := rfl
  earlier := by decide

theorem nestedEdged : nested.Edged where
  inStore := by decide
  entry := by intro e h; cases h; decide
  empty := by intro h; cases h
  succs := by decide
  preds := by decide
  catchSuccs := by decide
  catchPreds := by decide

theorem nestedParent : ((Dominators.ofGraph nested).dominates 2 3 &&
    (ofGraph nested (Dominators.ofGraph nested)).parent? 2 == some 1 &&
    (ofGraph nested (Dominators.ofGraph nested)).irreducible.isEmpty) = true := by
  simp -zeta only [LoopForest.ofGraph,sortByHalves]
  decide +kernel

theorem exactOfNested : nested.Ranked ∧ nested.Edged ∧
    let f := ofGraph nested (Dominators.ofGraph nested)
    (∃ l ∈ f.loops, ∃ m ∈ f.loops, l.header = 2 ∧ m.header = 1 ∧ l.Within m ∧ 3 ∈ l.body) ∧
      ∃ l ∈ f.loops, l.header ∈ [3,1,2] ∧ ∀ n ∈ [3,1,2], n ∈ l.body := by
  have exact := exactOfGraph nestedRanked nestedEdged
  have found := nestedParent
  simp only [Bool.and_eq_true,beq_iff_eq,List.isEmpty_iff] at found
  obtain ⟨⟨above,parent⟩,none⟩ := found
  have dom := (Dominators.dominatesIff nestedRanked nestedEdged (by decide : 3 ∈ nested.rpo)).mp above
  refine ⟨nestedRanked,nestedEdged,?_,exact.circles none [3,1,2] ⟨by decide,by decide⟩ (by decide)⟩
  obtain ⟨l,listed,header⟩ := (exact.headers 2).mpr ⟨3,by decide,by decide,dom⟩
  obtain ⟨m,there,outer,within,-⟩ := (exact.parent l listed 1).mp (header ▸ parent)
  have latch := (exact.latches l listed 3).mpr ⟨by decide,by rw [header]; decide,header ▸ dom⟩
  refine ⟨l,listed,m,there,header,outer,within,((exact.bodies l listed).2 3).mpr
    (.inr ⟨by decide,3,latch,.stay ?_⟩)⟩
  rw [header]
  decide

end LoopForest

end RegCode
