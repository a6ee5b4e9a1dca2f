import RegCode.Proofs.Dominance.Stage
import Mathlib.Algebra.Order.BigOperators.Group.List
import Mathlib.Algebra.Order.Ring.Nat

/-! The iteration comes to an end, and then the chain of a node holds exactly what dominates the
node. -/
namespace RegCode.Dominators

variable {g : Graph} {d : Dominators} {a b c e m n p q : NodeId}

theorem relinkSame (link : d.link b = some p) : d.relink b p = d := by
  obtain ⟨entry,idoms,nums⟩ := d
  have here : idoms[b]? = some (some p) := by
    rw [Dominators.link] at link
    exact Option.join_eq_some_iff.mp link
  have same : idoms.setIfInBounds b (some p) = idoms := by
    refine Array.ext_getElem? fun i => ?_
    rw [Array.getElem?_setIfInBounds]
    split
    · rename_i same
      subst same
      rw [here,if_pos (Array.getElem?_eq_some_iff.mp here).1]
    · rfl
  rw [relink,same]

def cost (g : Graph) : Option NodeId → Nat
  | none => g.rpo.length
  | some p => (g.node p).num.toNat

def weight (g : Graph) (d : Dominators) : Nat := (g.rpo.map fun b => cost g (d.link b)).sum

structure Updated (g : Graph) (d : Dominators) (r : Dominators × Bool) : Prop where
  stage : r.1.Stage g
  same : r.2 = false → r.1 = d
  le : r.1.weight g ≤ d.weight g
  less : r.2 = true → r.1.weight g < d.weight g

theorem Stage.cheaper (stage : d.Stage g) (ranked : g.Ranked) (edged : g.Edged) (member : b ∈ g.rpo)
    (other : g.entry ≠ some b)
    (joins : d.Joins (g.node b).allPreds (some p)) (change : d.link b ≠ some p) :
    (d.relink b p).weight g < d.weight g := by
  have link := fun n => d.relinkLink (p := p) (n := n) (stage.climbing.inside edged member)
  have numbered := stage.climbing.numbered joins.1
  have least := ranked.nonneg numbered
  have less : cost g (some p) < cost g (d.link b) := by
    cases before : d.link b with
    | none =>
      have short := ranked.lessThanLength numbered
      rw [cost,cost]
      omega
    | some old =>
      have le := stage.bound b old p before other ((joins.2.2 p).mp .here)
      have oldNumbered := stage.climbing.numbered (stage.climbing.linked b old before).2
      have different : (g.node p).num ≠ (g.node old).num :=
        fun same => change (by rw [before,ranked.numInj numbered oldNumbered same])
      rw [cost,cost]
      omega
  refine List.sum_lt_sum _ _ (fun n _ => ?_) ⟨b,member,?_⟩
  · rw [link]
    split
    · rename_i here
      exact here ▸ less.le
    · exact Nat.le_refl _
  · rwa [link,if_pos rfl]

theorem Stage.update (stage : d.Stage g) (ranked : g.Ranked) (edged : g.Edged) (member : b ∈ g.rpo)
    (settled : d.Settled g (g.node b).num) :
    Updated g d (updateNode g d b) ∧ (updateNode g d b).1.Settled g ((g.node b).num + 1) ∧
      (g.entry ≠ some b → (updateNode g d b).2 = false →
        ∃ p, d.link b = some p ∧ d.Joins (g.node b).allPreds (some p)) := by
  rw [updateNode]
  split
  · rename_i entry
    have entry : g.entry = some b := by simpa using entry
    have zero := ranked.entryNum entry
    refine ⟨⟨stage,fun _ => rfl,Nat.le_refl _,fun changed => nomatch changed⟩,⟨?_,?_⟩,?_⟩
    · intro n inside less
      by_cases here : n = b
      · rw [here,stage.climbing.entry b entry]
        rfl
      · have more := ranked.positive edged inside entry here
        omega
    · intro m n inside out up less
      have least := ranked.nonneg inside
      omega
    · exact fun other => absurd entry other
  · rename_i other
    have other : g.entry ≠ some b := by simpa using other
    have joins := stage.climbing.joinPreds ranked edged (g.node b).allPreds
    split
    · rename_i none
      rw [none] at joins
      obtain ⟨m,inside,out,less⟩ := ranked.earlier b member other
      have linked := settled.linked m inside less
      rw [joins m (edged.allSuccs inside out).2] at linked
      contradiction
    · rename_i p join
      rw [join] at joins
      have settled' := stage.settledRelink ranked edged member other settled joins
      split
      · rename_i same
        have same : d.link b = some p := by simpa using same
        rw [relinkSame same] at settled'
        exact ⟨⟨stage,fun _ => rfl,Nat.le_refl _,fun changed => nomatch changed⟩,settled',
          fun _ _ => ⟨p,same,joins⟩⟩
      · rename_i change
        have change : d.link b ≠ some p := by simpa using change
        have less := stage.cheaper ranked edged member other joins change
        exact ⟨⟨stage.relink ranked edged member other settled joins,(nomatch ·),less.le,
          fun _ => less⟩,settled',fun _ same => nomatch same⟩

structure Fixed (g : Graph) (d : Dominators) : Prop where
  stage : d.Stage g
  linked : ∀ n ∈ g.rpo, (d.link n).isSome
  joins : ∀ n ∈ g.rpo, g.entry ≠ some n →
    ∃ p, d.link n = some p ∧ d.Joins (g.node n).allPreds (some p)

def also (g : Graph) (r : Dominators × Bool) (b : NodeId) : Dominators × Bool :=
  ((updateNode g r.1 b).1,r.2 || (updateNode g r.1 b).2)

theorem Stage.pass (stage : d.Stage g) (ranked : g.Ranked) (edged : g.Edged) (done : List NodeId)
    (start : done <+: g.rpo) :
    Updated g d (done.foldl (also g) (d,false)) ∧
      (done.foldl (also g) (d,false)).1.Settled g done.length ∧
      ((done.foldl (also g) (d,false)).2 = false → ∀ b ∈ done, g.entry ≠ some b →
        ∃ p, d.link b = some p ∧ d.Joins (g.node b).allPreds (some p)) := by
  induction done using List.reverseRecOn with
  | nil =>
    refine ⟨⟨stage,fun _ => rfl,Nat.le_refl _,fun changed => nomatch changed⟩,⟨?_,?_⟩,?_⟩
    · intro n inside less
      have least := ranked.nonneg inside
      simp only [List.length_nil] at less
      omega
    · intro m n inside out up less
      have least := ranked.nonneg inside
      simp only [List.length_nil] at less
      omega
    · exact fun _ b member => absurd member List.not_mem_nil
  | append_singleton done b ih =>
    have place : g.rpo[done.length]? = some b := by
      obtain ⟨rest,all⟩ := start
      rw [← all]
      simp
    have member := List.mem_of_getElem? place
    have num := ranked.nums _ _ place
    obtain ⟨updated,settled,fixed⟩ := ih ((List.prefix_append done [b]).trans start)
    obtain ⟨updated',settled',fixed'⟩ := updated.stage.update ranked edged member (num ▸ settled)
    rw [List.foldl_append,List.foldl_cons,List.foldl_nil,also]
    refine ⟨⟨updated'.stage,fun same => ?_,updated'.le.trans updated.le,fun changed => ?_⟩,?_,?_⟩
    · obtain ⟨first,second⟩ := Bool.or_eq_false_iff.mp same
      exact (updated'.same second).trans (updated.same first)
    · rcases Bool.or_eq_true_iff.mp changed with first | second
      · exact Nat.lt_of_le_of_lt updated'.le (updated.less first)
      · exact Nat.lt_of_lt_of_le (updated'.less second) updated.le
    · rw [num] at settled'
      simpa using settled'
    · intro same m inside other
      obtain ⟨first,second⟩ := Bool.or_eq_false_iff.mp same
      rcases List.mem_append.mp inside with inside | inside
      · exact fixed first m inside other
      · cases List.mem_singleton.mp inside
        have found := fixed' other second
        rwa [updated.same first] at found

theorem roundPass (g : Graph) (d : Dominators) : round g d = g.rpo.foldl (also g) (d,false) := rfl

theorem Stage.rounds (stage : d.Stage g) (ranked : g.Ranked) (edged : g.Edged) (fuel : Nat)
    (enough : d.weight g < fuel) : (rounds g fuel d).Fixed g := by
  induction fuel generalizing d with
  | zero => omega
  | succ fuel ih =>
    obtain ⟨updated,settled,fixed⟩ := stage.pass ranked edged g.rpo List.prefix_rfl
    rw [← roundPass] at updated settled fixed
    rw [Dominators.rounds]
    obtain ⟨⟨d',changed⟩,pass⟩ : ∃ r, round g d = r := ⟨_,rfl⟩
    rw [pass] at updated settled fixed
    simp only [pass]
    cases changed with
    | true =>
      have less : d'.weight g < d.weight g := updated.less rfl
      exact ih updated.stage (by omega)
    | false =>
      cases updated.same rfl
      exact ⟨stage,fun n member => settled.linked n member (ranked.lessThanLength member),fixed rfl⟩

def seed (g : Graph) (e : NodeId) : Dominators :=
  { entry := g.entry
    idoms := (Array.replicate g.store.size none).setIfInBounds e (some e)
    nums := g.store.map (·.num) }

theorem seedStage (edged : g.Edged) (entry : g.entry = some e) : (seed g e).Stage g := by
  have inside := edged.inStore e (edged.entry e entry)
  have link : ∀ n, (seed g e).link n = if n = e then some e else none := by
    intro n
    simp only [Dominators.link,seed,Array.getElem?_setIfInBounds,Array.size_replicate,
      Array.getElem?_replicate]
    by_cases here : n = e
    · subst here
      simp [inside]
    · rw [if_neg (Ne.symm here),if_neg here]
      split <;> rfl
  have only : ∀ b p, (seed g e).link b = some p → b = e ∧ p = e := by
    intro b p up
    rw [link] at up
    split at up
    · rename_i here
      exact ⟨here,(Option.some.inj up).symm⟩
    · contradiction
  refine ⟨⟨rfl,by simp [seed],fun n => ?_,fun e' entry' => ?_,fun b p up => ?_,fun b p up other => ?_⟩,
    fun b p up => ?_,fun a b linked dom => ?_,fun b p c up other => ?_⟩
  · simp only [num,seed,Array.getElem?_map,Graph.node]
    cases g.store[n]? <;> rfl
  · cases Option.some.inj (entry'.symm.trans entry)
    rw [link,if_pos rfl]
  · obtain ⟨rfl,rfl⟩ := only b p up
    exact ⟨edged.entry p entry,by rw [up]; rfl⟩
  · obtain ⟨rfl,rfl⟩ := only b p up
    exact absurd entry other
  · obtain ⟨rfl,rfl⟩ := only b p up
    exact .refl
  · obtain ⟨p,up⟩ := Option.isSome_iff_exists.mp linked
    obtain ⟨rfl,rfl⟩ := only b p up
    by_contra above
    exact dom p entry (.stay fun same => above (same ▸ .here))
  · obtain ⟨rfl,rfl⟩ := only b p up
    exact absurd entry other

theorem ofGraphFixed (ranked : g.Ranked) (edged : g.Edged) (entry : g.entry = some e) :
    (ofGraph g).Fixed g := by
  have stage := seedStage edged entry
  have small : (seed g e).weight g ≤ g.store.size * g.store.size := by
    have each : ∀ c ∈ g.rpo.map fun b => cost g ((seed g e).link b), c ≤ g.rpo.length := by
      intro c member
      obtain ⟨b,-,rfl⟩ := List.mem_map.mp member
      cases link : (seed g e).link b with
      | none => exact Nat.le_refl _
      | some p =>
        have short := ranked.lessThanLength
          (stage.climbing.numbered (stage.climbing.linked b p link).2)
        rw [cost]
        omega
    have most := List.sum_le_card_nsmul _ _ each
    rw [List.length_map,nsmul_eq_mul,Nat.cast_id] at most
    have length := ranked.lengthLe edged
    exact most.trans (Nat.mul_le_mul length length)
  have all : ofGraph g = rounds g (g.store.size * g.store.size + 2) (seed g e) := by
    rw [ofGraph]
    simp only [entry]
    rw [seed,entry]
  rw [all]
  exact stage.rounds ranked edged _ (by omega)

namespace Fixed

variable (fixed : d.Fixed g)
include fixed

theorem dominatesOfOver (edged : g.Edged) (entry : g.entry = some e) (higher : d.Over a b) :
    g.Dominates a b := by
  have top : ∀ n, n = e → d.Over a n → a = e := by
    intro n here higher
    induction higher with
    | here => exact here
    | @up n p link higher ih =>
      subst here
      exact ih (Option.some.inj (link.symm.trans (fixed.stage.climbing.entry n entry)))
  intro e' entry' way
  cases Option.some.inj (entry'.symm.trans entry)
  induction way with
  | stay fits => exact fits (top _ rfl higher).symm
  | @on m n way out fits ih =>
    by_cases here : n = e
    · exact way.start (top n here higher).symm
    · have inside := way.inRpo edged (edged.entry e entry)
      have member := (edged.allSuccs inside out).1
      obtain ⟨p,link,joins⟩ := fixed.joins n member fun same =>
        here (Option.some.inj (same.symm.trans entry))
      exact ih ((joins.2.2 a).mp (higher.past link (Ne.symm fits)) m (edged.allSuccs inside out).2
        (fixed.linked m inside))

theorem overIff (ranked : g.Ranked) (edged : g.Edged) (member : b ∈ g.rpo) :
    d.Over a b ↔ g.Dominates a b := by
  obtain ⟨e,entry⟩ := ranked.entryOf member
  exact ⟨fixed.dominatesOfOver edged entry,fixed.stage.keeps a b (fixed.linked b member)⟩

theorem memChain (ranked : g.Ranked) (edged : g.Edged) (fuel : Nat) (member : b ∈ g.rpo)
    (enough : (g.node b).num ≤ fuel) : a ∈ d.chain fuel b ↔ d.Over a b := by
  have only : ∀ e, g.entry = some e → (a ∈ [e] ↔ d.Over a e) := by
    intro e entry
    rw [List.mem_singleton,fixed.overIff ranked edged (edged.entry e entry)]
    constructor
    · rintro rfl
      exact .refl g a
    · intro dom
      by_contra other
      exact dom e entry (.stay (Ne.symm other))
  induction fuel generalizing b with
  | zero =>
    obtain ⟨e,entry⟩ := ranked.entryOf member
    by_cases here : b = e
    · exact only b (here ▸ entry)
    · have more := ranked.positive edged member entry here
      omega
  | succ fuel ih =>
    rw [chain,idom?,fixed.stage.climbing.start]
    by_cases entry : g.entry = some b
    · rw [if_pos (by rw [entry]; exact beq_self_eq_true _)]
      exact only b entry
    · rw [if_neg (by simpa using entry)]
      obtain ⟨p,link,joins⟩ := fixed.joins b member entry
      have less := fixed.stage.climbing.less b p link entry
      have rest := ih (fixed.stage.climbing.numbered joins.1) (by omega)
      simp only [link,List.mem_cons,rest]
      refine ⟨fun found => ?_,fun higher => ?_⟩
      · rcases found with rfl | found
        · exact .here
        · exact .up link found
      · by_cases same : a = b
        · exact .inl same
        · exact .inr (higher.past link same)

end Fixed

section
variable (ranked : g.Ranked) (edged : g.Edged)
include ranked edged

theorem dominatesIff (member : b ∈ g.rpo) : (ofGraph g).dominates a b = true ↔ g.Dominates a b := by
  obtain ⟨e,entry⟩ := ranked.entryOf member
  have fixed := ofGraphFixed ranked edged entry
  have short := ranked.lessThanLength member
  have length := ranked.lengthLe edged
  have size := fixed.stage.climbing.size
  rw [dominates,List.contains_iff_mem,above,fixed.memChain ranked edged _ member (by omega),
    fixed.overIff ranked edged member]

theorem idomDominates (member : b ∈ g.rpo) (idom : (ofGraph g).idom? b = some p) :
    p ∈ g.rpo ∧ p ≠ b ∧ g.Dominates p b ∧ ∀ a, a ≠ b → g.Dominates a b → g.Dominates a p := by
  obtain ⟨e,entry⟩ := ranked.entryOf member
  have fixed := ofGraphFixed ranked edged entry
  rw [idom?,fixed.stage.climbing.start] at idom
  split at idom
  · contradiction
  · rename_i other
    have other : g.entry ≠ some b := by simpa using other
    have numbered := fixed.stage.climbing.numbered (fixed.stage.climbing.linked b p idom).2
    have less := fixed.stage.climbing.less b p idom other
    refine ⟨numbered,?_,(fixed.overIff ranked edged member).mp (.up idom .here),fun a apart dom => ?_⟩
    · rintro rfl
      omega
    · exact (fixed.overIff ranked edged numbered).mp
        (((fixed.overIff ranked edged member).mpr dom).past idom apart)

end

end RegCode.Dominators
