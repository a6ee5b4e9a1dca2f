import RegCode.Proofs.Dominance.Trail
import Mathlib.Data.List.Induction
import Mathlib.Logic.Relation

/-! Chains of links. Links climb to nodes with smaller numbers, so that every chain ends at the
entry, and two chains meet at a node below every other node that is on both. -/
namespace RegCode.Dominators

open Graph

inductive Over (d : Dominators) (a : NodeId) : NodeId → Prop where
  | here : Over d a a
  | up {b p} (link : d.link b = some p) (higher : Over d a p) : Over d a b

structure Climbing (g : Graph) (d : Dominators) : Prop where
  start : d.entry = g.entry
  size : d.idoms.size = g.store.size
  nums : ∀ n, d.num n = (g.node n).num
  entry : ∀ e, g.entry = some e → d.link e = some e
  linked : ∀ b p, d.link b = some p → b ∈ g.rpo ∧ (d.link p).isSome
  less : ∀ b p, d.link b = some p → g.entry ≠ some b → (g.node p).num < (g.node b).num

variable {g : Graph} {d : Dominators} {a b c m n p q : NodeId}

theorem Over.trans (first : d.Over a b) (second : d.Over b c) : d.Over a c := by
  induction second with
  | here => exact first
  | up link higher ih => exact .up link ih

theorem Over.past (higher : d.Over a b) (link : d.link b = some p) (other : a ≠ b) : d.Over a p := by
  cases higher with
  | here => exact absurd rfl other
  | up link' higher => exact Option.some.inj (link.symm.trans link') ▸ higher

namespace Climbing

variable (climbing : d.Climbing g)
include climbing

theorem numbered (link : (d.link n).isSome) : n ∈ g.rpo := by
  obtain ⟨p,link⟩ := Option.isSome_iff_exists.mp link
  exact (climbing.linked n p link).1

theorem le (higher : d.Over a b) : (g.node a).num ≤ (g.node b).num := by
  induction higher with
  | here => exact Int.le_refl _
  | @up b p link higher ih =>
    by_cases entry : g.entry = some b
    · cases Option.some.inj (link.symm.trans (climbing.entry b entry))
      exact ih
    · have less := climbing.less b p link entry
      omega

theorem overLinked (higher : d.Over a b) (some : (d.link b).isSome) : (d.link a).isSome := by
  induction higher with
  | here => exact some
  | up link higher ih => exact ih (climbing.linked _ _ link).2

theorem lt (ranked : g.Ranked) (higher : d.Over a b) (link : (d.link b).isSome) (other : a ≠ b) :
    (g.node a).num < (g.node b).num := by
  have le := climbing.le higher
  have different : (g.node a).num ≠ (g.node b).num := fun same =>
    other (ranked.numInj (climbing.numbered (climbing.overLinked higher link)) (climbing.numbered link)
      same)
  omega

theorem total (ranked : g.Ranked) (link : (d.link c).isSome) (left : d.Over a c) (right : d.Over b c)
    (le : (g.node a).num ≤ (g.node b).num) : d.Over a b := by
  induction right with
  | here => exact left
  | @up c p link' higher ih =>
    by_cases same : a = c
    · subst same
      have low := climbing.le (.up link' higher)
      have linked := climbing.overLinked (.up link' higher) link
      cases ranked.numInj (climbing.numbered linked) (climbing.numbered link) (by omega)
      exact .here
    · exact ih (climbing.linked c p link').2 (left.past link' same)

theorem linkOf (ranked : g.Ranked) (link : (d.link a).isSome)
    (more : 0 < (g.node a).num) :
    ∃ p, d.link a = some p ∧ (d.link p).isSome ∧ (g.node p).num < (g.node a).num := by
  obtain ⟨p,link⟩ := Option.isSome_iff_exists.mp link
  have other : g.entry ≠ some a := fun entry => by
    have zero := ranked.entryNum entry
    omega
  exact ⟨p,link,(climbing.linked a p link).2,climbing.less a p link other⟩

theorem meet (ranked : g.Ranked) (fuel : Nat) (left : (d.link a).isSome)
    (right : (d.link b).isSome) (enough : (g.node a).num + (g.node b).num < fuel) (c : NodeId) :
    d.Over c (d.meet fuel a b) ↔ d.Over c a ∧ d.Over c b := by
  have least := ranked.nonneg (climbing.numbered left)
  have least' := ranked.nonneg (climbing.numbered right)
  induction fuel generalizing a b with
  | zero => omega
  | succ fuel ih =>
    rw [Dominators.meet]
    split
    · rename_i same
      rw [same]
      exact (and_self_iff).symm
    · rename_i other
      rw [climbing.nums,climbing.nums]
      split
      · rename_i more
        obtain ⟨p,link,linked,less⟩ := climbing.linkOf ranked left (by omega)
        have bound := ranked.nonneg (climbing.numbered linked)
        rw [link,Option.getD_some]
        refine (ih linked right (by omega) bound least').trans ⟨fun both => ⟨.up link both.1,both.2⟩,fun both => ⟨both.1.past link ?_,both.2⟩⟩
        rintro rfl
        have le := climbing.le both.2
        omega
      · have different : (g.node a).num ≠ (g.node b).num := fun same =>
          other (ranked.numInj (climbing.numbered left) (climbing.numbered right) same)
        obtain ⟨p,link,linked,less⟩ := climbing.linkOf ranked right (by omega)
        have bound := ranked.nonneg (climbing.numbered linked)
        rw [link,Option.getD_some]
        refine (ih left linked (by omega) least bound).trans ⟨fun both => ⟨both.1,.up link both.2⟩,fun both => ⟨both.1,both.2.past link ?_⟩⟩
        rintro rfl
        have le := climbing.le both.1
        omega

theorem reachEnough (ranked : g.Ranked) (edged : g.Edged) (left : (d.link a).isSome)
    (right : (d.link b).isSome) : (g.node a).num + (g.node b).num < d.reach := by
  have first := ranked.lessThanLength (climbing.numbered left)
  have second := ranked.lessThanLength (climbing.numbered right)
  have length := ranked.lengthLe edged
  have size := climbing.size
  rw [reach]
  push_cast
  omega

end Climbing

/-- What the predecessors with a link have in common. -/
def Joins (d : Dominators) (preds : List NodeId) : Option NodeId → Prop
  | none => ∀ q ∈ preds, d.link q = none
  | some p => (d.link p).isSome ∧ (∃ q ∈ preds, (d.link q).isSome) ∧
    ∀ c, d.Over c p ↔ ∀ q ∈ preds, (d.link q).isSome → d.Over c q

theorem Climbing.joinPreds (climbing : d.Climbing g) (ranked : g.Ranked) (edged : g.Edged)
    (preds : List NodeId) : d.Joins preds (d.joinPreds preds) := by
  induction preds using List.reverseRecOn with
  | nil => exact fun q member => absurd member List.not_mem_nil
  | append_singleton preds q ih =>
    rw [Dominators.joinPreds,List.foldl_append,List.foldl_cons,List.foldl_nil,← Dominators.joinPreds]
    cases link : d.link q with
    | none =>
      rw [if_pos (by simp)]
      cases join : d.joinPreds preds with
      | none =>
        rw [join] at ih
        intro r member
        rcases List.mem_append.mp member with member | member
        · exact ih r member
        · exact List.mem_singleton.mp member ▸ link
      | some p =>
        rw [join] at ih
        obtain ⟨linked,⟨r,member,some⟩,common⟩ := ih
        refine ⟨linked,⟨r,List.mem_append_left _ member,some⟩,fun c => ?_⟩
        rw [common]
        refine ⟨fun all r member some => ?_,fun all r member => all r (List.mem_append_left _ member)⟩
        rcases List.mem_append.mp member with member | member
        · exact all r member some
        · rw [List.mem_singleton.mp member,link] at some
          contradiction
    | some up =>
      have linked : (d.link q).isSome := by rw [link]; rfl
      have least := ranked.nonneg (climbing.numbered linked)
      rw [if_neg (by rw [climbing.nums]; simp; omega)]
      cases join : d.joinPreds preds with
      | none =>
        rw [join] at ih
        refine ⟨linked,⟨q,by simp,linked⟩,fun c => ⟨fun higher r member some => ?_,fun all =>
          all q (by simp) linked⟩⟩
        rcases List.mem_append.mp member with member | member
        · rw [ih r member] at some
          contradiction
        · exact List.mem_singleton.mp member ▸ higher
      | some p =>
        rw [join] at ih
        obtain ⟨linked',-,common⟩ := ih
        have meet := climbing.meet ranked d.reach linked linked'
          (climbing.reachEnough ranked edged linked linked')
        refine ⟨climbing.overLinked ((meet _).mp .here).1 linked,⟨q,by simp,linked⟩,fun c => ?_⟩
        rw [meet,common]
        refine ⟨fun both r member some => ?_,fun all => ⟨all q (by simp) linked,fun r member =>
          all r (List.mem_append_left _ member)⟩⟩
        rcases List.mem_append.mp member with member | member
        · exact both.2 r member some
        · exact List.mem_singleton.mp member ▸ both.1

end RegCode.Dominators

/-! One update of a link. Chains only ever lose nodes, never one that dominates, and a link that
changes comes to a smaller number. -/
namespace RegCode

namespace Graph

def Ascends (g : Graph) : NodeId → NodeId → Prop :=
  Relation.ReflTransGen fun m n => n ∈ (g.node m).allSuccs ∧ (g.node m).num < (g.node n).num

variable {g : Graph} {a b c e n : NodeId}

theorem Ascends.le (ascends : g.Ascends a b) : (g.node a).num ≤ (g.node b).num := by
  induction ascends with
  | refl => exact Int.le_refl _
  | tail way up ih => exact Int.le_trans ih (Int.le_of_lt up.2)

theorem Ascends.inRpo (edged : g.Edged) (member : a ∈ g.rpo) (ascends : g.Ascends a b) :
    b ∈ g.rpo := by
  induction ascends with
  | refl => exact member
  | tail way up ih => exact (edged.allSuccs ih up.1).1

theorem Ascends.avoid (ascends : g.Ascends b c) (less : (g.node a).num < (g.node b).num)
    (way : g.Trail (· ≠ a) e b) : g.Trail (· ≠ a) e c := by
  induction ascends with
  | refl => exact way
  | @tail m n up edge ih =>
    refine .on ih edge.1 fun same => ?_
    have le := Ascends.le up
    rw [same] at edge
    omega

end Graph

namespace Dominators

variable {g : Graph} {d : Dominators} {a b c e m n p q : NodeId}

structure Stage (g : Graph) (d : Dominators) : Prop where
  climbing : d.Climbing g
  ascends : ∀ b p, d.link b = some p → g.Ascends p b
  keeps : ∀ a b, (d.link b).isSome → g.Dominates a b → d.Over a b
  bound : ∀ b p c, d.link b = some p → g.entry ≠ some b →
    (∀ q ∈ (g.node b).allPreds, (d.link q).isSome → d.Over c q) → (g.node c).num ≤ (g.node p).num

structure Settled (g : Graph) (d : Dominators) (k : Int) : Prop where
  linked : ∀ n ∈ g.rpo, (g.node n).num < k → (d.link n).isSome
  edges : ∀ m n, m ∈ g.rpo → n ∈ (g.node m).allSuccs → (g.node m).num < (g.node n).num →
    (g.node n).num < k → ∀ c, c ≠ n → d.Over c n → d.Over c m

def relink (d : Dominators) (b p : NodeId) : Dominators :=
  { d with idoms := d.idoms.setIfInBounds b (some p) }

theorem relinkLink (inside : b < d.idoms.size) :
    (d.relink b p).link n = if n = b then some p else d.link n := by
  simp only [link,relink,Array.getElem?_setIfInBounds]
  by_cases here : n = b
  · subst here
    simp [inside]
  · rw [if_neg (Ne.symm here),if_neg here]

namespace Climbing

variable (climbing : d.Climbing g)
include climbing

theorem inside (edged : g.Edged) (member : b ∈ g.rpo) : b < d.idoms.size :=
  climbing.size ▸ edged.inStore b member

theorem relink (edged : g.Edged) (member : b ∈ g.rpo) (other : g.entry ≠ some b)
    (linked : (d.link p).isSome) (less : (g.node p).num < (g.node b).num) :
    (d.relink b p).Climbing g := by
  have link := fun n => d.relinkLink (p := p) (n := n) (climbing.inside edged member)
  have apart : p ≠ b := fun same => by rw [same] at less; omega
  refine ⟨climbing.start,?_,climbing.nums,fun e entry => ?_,fun n q => ?_,fun n q => ?_⟩
  · simp [Dominators.relink,climbing.size]
  · rw [link,if_neg (by rintro rfl; exact other entry)]
    exact climbing.entry e entry
  · rw [link,link]
    split
    · rename_i here
      rintro ⟨⟩
      rw [if_neg apart]
      exact ⟨here ▸ member,linked⟩
    · intro old
      refine ⟨(climbing.linked n q old).1,?_⟩
      split
      · rfl
      · exact (climbing.linked n q old).2
  · rw [link]
    split
    · rename_i here
      rintro ⟨⟩ -
      exact here ▸ less
    · exact climbing.less n q

theorem overBefore (edged : g.Edged) (member : b ∈ g.rpo) (less : (g.node n).num < (g.node b).num) :
    (d.relink b p).Over c n ↔ d.Over c n := by
  have link := fun n => d.relinkLink (p := p) (n := n) (climbing.inside edged member)
  constructor
  · intro higher
    induction higher with
    | here => exact .here
    | @up n q up higher ih =>
      have apart : n ≠ b := fun same => by rw [same] at less; omega
      rw [link,if_neg apart] at up
      have le := climbing.le (.up up .here)
      exact .up up (ih (Int.lt_of_le_of_lt le less))
  · intro higher
    induction higher with
    | here => exact .here
    | @up n q up higher ih =>
      have apart : n ≠ b := fun same => by rw [same] at less; omega
      have le := climbing.le (.up up .here)
      exact .up (by rw [link,if_neg apart]; exact up) (ih (Int.lt_of_le_of_lt le less))

end Climbing

namespace Stage

variable (stage : d.Stage g)
include stage

theorem overAscends (higher : d.Over a b) : g.Ascends a b := by
  induction higher with
  | here => exact .refl
  | up link higher ih => exact Relation.ReflTransGen.trans ih (stage.ascends _ _ link)

theorem overOld (edged : g.Edged)
    (other : g.entry ≠ some b) (settled : d.Settled g (g.node b).num) {old : NodeId}
    (link : d.link b = some old)
    (common : ∀ q ∈ (g.node b).allPreds, (d.link q).isSome → d.Over c q) : d.Over c old := by
  have le := stage.bound b old c link other common
  have less := stage.climbing.less b old link other
  have linked := (stage.climbing.linked b old link).2
  have numbered := stage.climbing.numbered linked
  have walk : ∀ n, g.Ascends old n → (g.node n).num < (g.node b).num → d.Over c n →
      d.Over c old := by
    intro n ascends
    induction ascends with
    | refl => exact fun _ higher => higher
    | @tail m n way up ih =>
      intro before higher
      have low := Graph.Ascends.le way
      have apart : c ≠ n := by rintro rfl; omega
      exact ih (by omega) (settled.edges m n (Graph.Ascends.inRpo edged numbered way) up.1 up.2 before
        c apart higher)
  obtain same | ⟨m,way,up⟩ := (Relation.ReflTransGen.cases_tail_iff ..).mp (stage.ascends b old link)
  · rw [same] at less
    omega
  · have inside := Graph.Ascends.inRpo edged numbered way
    exact walk m way up.2 (common m (edged.allSuccs inside up.1).2 (settled.linked m inside up.2))

section
variable (ranked : g.Ranked) (edged : g.Edged) (member : b ∈ g.rpo) (other : g.entry ≠ some b)
  (settled : d.Settled g (g.node b).num) (joins : d.Joins (g.node b).allPreds (some p))
include ranked edged member other settled joins

omit stage in
theorem earlier : ∃ m ∈ g.rpo, b ∈ (g.node m).allSuccs ∧ (g.node m).num < (g.node b).num ∧
    d.Over p m := by
  obtain ⟨m,inside,out,less⟩ := ranked.earlier b member other
  exact ⟨m,inside,out,less,(joins.2.2 p).mp .here m (edged.allSuccs inside out).2
    (settled.linked m inside less)⟩

theorem linkLess : (g.node p).num < (g.node b).num := by
  obtain ⟨m,-,-,less,higher⟩ := earlier ranked edged member other settled joins
  exact Int.lt_of_le_of_lt (stage.climbing.le higher) less

theorem climbingRelink : (d.relink b p).Climbing g :=
  stage.climbing.relink edged member other joins.1
    (stage.linkLess ranked edged member other settled joins)

omit ranked in
theorem overShrinks {x : NodeId} (linked : (d.link x).isSome) (higher : (d.relink b p).Over a x) :
    d.Over a x := by
  have link := fun n => d.relinkLink (p := p) (n := n) (stage.climbing.inside edged member)
  induction higher with
  | here => exact .here
  | @up x q up higher ih =>
    obtain ⟨old,before⟩ := Option.isSome_iff_exists.mp linked
    rw [link] at up
    split at up
    · rename_i here
      subst here
      cases up
      have high := stage.overOld edged other settled before ((joins.2.2 p).mp .here)
      exact .up before ((ih joins.1).trans high)
    · exact .up up (ih (stage.climbing.linked x q up).2)

theorem keepsNew (dom : g.Dominates a b) : (d.relink b p).Over a b := by
  have link := d.relinkLink (p := p) (n := b) (stage.climbing.inside edged member)
  by_cases same : a = b
  · exact same ▸ .here
  · refine .up (link.trans (if_pos rfl)) ((stage.climbing.overBefore edged member
      (stage.linkLess ranked edged member other settled joins)).mpr ((joins.2.2 a).mpr ?_))
    intro q into linked
    exact stage.keeps a q linked (dom.edge (Ne.symm same) (edged.allPreds member into).2)

theorem keepsOld {x : NodeId} (linked : (d.link x).isSome) (dom : g.Dominates a x) :
    (d.relink b p).Over a x := by
  have link := fun n => d.relinkLink (p := p) (n := n) (stage.climbing.inside edged member)
  have chain : ∀ y, d.Over a y → (d.link y).isSome → g.Ascends y x → (d.relink b p).Over a y := by
    intro y higher
    induction higher with
    | here => exact fun _ _ => .here
    | @up y q up higher ih =>
      intro linked ascends
      by_cases here : y = b
      · subst here
        refine stage.keepsNew ranked edged member other settled joins fun e entry way => ?_
        by_cases same : a = y
        · exact way.fits same.symm
        · have less := stage.climbing.lt ranked (.up up higher) linked same
          exact dom e entry (ascends.avoid less way)
      · refine .up (by rw [link,if_neg here]; exact up) (ih (stage.climbing.linked y q up).2 ?_)
        exact Relation.ReflTransGen.trans (stage.ascends y q up) ascends
  exact chain x (stage.keeps a x linked dom) linked .refl

theorem relink : (d.relink b p).Stage g := by
  have link := fun n => d.relinkLink (p := p) (n := n) (stage.climbing.inside edged member)
  have still : ∀ n, (d.link n).isSome → ((d.relink b p).link n).isSome := by
    intro n linked
    rw [link]
    split
    · rfl
    · exact linked
  have shrinks := fun c n linked =>
    stage.overShrinks edged member other settled joins (a := c) (x := n) linked
  refine ⟨stage.climbingRelink ranked edged member other settled joins,?_,?_,?_⟩
  · intro n q up
    rw [link] at up
    split at up
    · rename_i here
      subst here
      cases up
      obtain ⟨m,-,out,less,higher⟩ := earlier ranked edged member other settled joins
      exact .tail (stage.overAscends higher) ⟨out,less⟩
    · exact stage.ascends n q up
  · intro a n linked dom
    by_cases here : n = b
    · subst here
      exact stage.keepsNew ranked edged member other settled joins dom
    · rw [link,if_neg here] at linked
      exact stage.keepsOld ranked edged member other settled joins linked dom
  · intro n q c up notEntry common
    rw [link] at up
    split at up
    · rename_i here
      subst here
      cases up
      exact stage.climbing.le ((joins.2.2 c).mpr fun r into linked =>
        shrinks c r linked (common r into (still r linked)))
    · exact stage.bound n q c up notEntry fun r into linked =>
        shrinks c r linked (common r into (still r linked))

theorem settledRelink : (d.relink b p).Settled g ((g.node b).num + 1) := by
  have link := fun n => d.relinkLink (p := p) (n := n) (stage.climbing.inside edged member)
  refine ⟨fun n inside less => ?_,fun m n inside out up less c apart higher => ?_⟩
  · rw [link]
    split
    · rfl
    · rename_i apart
      refine settled.linked n inside ?_
      have different : (g.node n).num ≠ (g.node b).num :=
        fun same => apart (ranked.numInj inside member same)
      omega
  · have numbered := (edged.allSuccs inside out).1
    rw [stage.climbing.overBefore edged member (by omega)]
    by_cases here : n = b
    · subst here
      have high := higher.past (by rw [link,if_pos rfl]) apart
      rw [stage.climbing.overBefore edged member
        (stage.linkLess ranked edged member other settled joins)] at high
      exact (joins.2.2 c).mp high m (edged.allSuccs inside out).2 (settled.linked m inside up)
    · have different : (g.node n).num ≠ (g.node b).num :=
        fun same => here (ranked.numInj numbered member same)
      rw [stage.climbing.overBefore edged member (by omega)] at higher
      exact settled.edges m n inside out up (by omega) c apart higher

end

end Stage

end Dominators

end RegCode
