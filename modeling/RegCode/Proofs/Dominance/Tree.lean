import RegCode.Proofs.Dominance.Exact
import RegCode.Proofs.Flow.Numbering
import Mathlib

/-! The tree of immediate dominators of a numbered graph. Numbering puts the entry first and every
other node behind one with an edge to it; that is all that the iteration needs to come to rest with
exact links. -/
namespace RegCode

namespace Graph

variable {g : Graph} {a b c e p : NodeId}

/-- The closest strict dominator: another node, dominated by every other one that dominates `b`. -/
structure Immediate (g : Graph) (p b : NodeId) : Prop where
  other : p ≠ b
  dominates : g.Dominates p b
  closest : ∀ a, a ≠ b → g.Dominates a b → g.Dominates a p

theorem Mirrored.numberedEdged (mirrored : g.Mirrored) (entry : g.entry = some e) (member : e ∈ g.nodes) :
    g.renumber.Edged := by
  have numbered := mirrored.numbered entry member
  have still := numbered.mirrored entry mirrored
  have rpo : g.renumber.rpo = g.renumber.nodes := by rw [numbered.rest]
  have first : g.renumber.entry = some e := by rw [numbered.rest,entry]
  refine ⟨?_,?_,?_,?_,?_,?_,?_⟩ <;> rw [rpo]
  · exact still.inStore
  · intro e' entry'
    cases Option.some.inj (first.symm.trans entry')
    exact (numbered.reached e entry e).mpr (.stay trivial)
  · intro none
    rw [first] at none
    contradiction
  · exact still.succs
  · exact still.preds
  · exact still.catchSuccs
  · exact still.catchPreds

theorem Mirrored.ranked (mirrored : g.Mirrored) (entry : g.entry = some e) (member : e ∈ g.nodes) :
    g.renumber.Ranked := by
  have numbered := mirrored.numbered entry member
  have shape := renumberNumbered entry
  have rpo : g.renumber.rpo = g.reversePostorder := by rw [shape]
  have nodes : g.renumber.nodes = g.reversePostorder := by rw [shape]
  have first : g.renumber.entry = some e := by rw [numbered.rest,entry]
  obtain ⟨head,behind⟩ := reversePostorderBehind entry
  obtain ⟨-,size,-,-⟩ := removedAll mirrored
    fun i (listed : i ∈ g.nodes.filter fun i => !g.reversePostorder.contains i) => (List.mem_filter.mp listed).1
  have nums : ∀ (k : Nat) n, g.renumber.rpo[k]? = some n → (g.renumber.node n).num = k := by
    intro k n here
    rw [rpo] at here
    have placed := (numNumberFrom _ 0 g.reversePostorder (fun i listed => by
      rw [size]
      exact mirrored.inStore i (numbered.old i (nodes ▸ listed))) (nodes ▸ numbered.once)).2 k n here
    rw [shape]
    exact placed.trans (by simp)
  refine ⟨nums,by rw [rpo,head,first],fun n listed other => ?_⟩
  obtain ⟨k,here⟩ := List.mem_iff_getElem?.mp listed
  have cut : g.reversePostorder = g.reversePostorder.take k ++ n :: g.reversePostorder.drop (k + 1) := by
    rw [← rpo]
    obtain ⟨short,rfl⟩ := List.getElem?_eq_some_iff.mp here
    rw [List.getElem_cons_drop,List.take_append_drop]
  obtain ⟨m,earlier,out⟩ := behind n _ _ cut fun same => other (by rw [first,same])
  obtain ⟨j,there⟩ := List.mem_iff_getElem?.mp earlier
  have less : j < k := by
    have short := (List.getElem?_eq_some_iff.mp there).1
    rw [List.length_take] at short
    omega
  rw [List.getElem?_take_of_lt less,← rpo] at there
  have inside := List.mem_of_getElem? there
  refine ⟨m,inside,?_,by rw [nums j m there,nums k n here]; omega⟩
  have succs := numbered.succs (rpo.trans nodes.symm ▸ inside)
  rw [Node.allSuccs,succs.1,succs.2]
  exact out

theorem Netted.numberedEdged (netted : g.Netted) (entry : g.entry = some e) (member : e ∈ g.nodes) :
    g.renumber.Edged := netted.mirrored.numberedEdged entry member

theorem Netted.ranked (netted : g.Netted) (entry : g.entry = some e) (member : e ∈ g.nodes) :
    g.renumber.Ranked := netted.mirrored.ranked entry member

theorem Immediate.unique (ranked : g.Ranked) (inside : a ∈ g.rpo) (left : g.Immediate a c)
    (right : g.Immediate b c) : b = a :=
  Dominates.antisymm ranked inside (left.closest b right.other right.dominates)
    (right.closest a left.other left.dominates)

end Graph

namespace Dominators

variable {g : Graph} {d : Dominators} {a b c e m n p q : NodeId}

theorem Climbing.overAntisymm (climbing : d.Climbing g) (ranked : g.Ranked) (left : d.Over a b)
    (right : d.Over b a) (linked : (d.link b).isSome) : a = b := by
  by_contra other
  have less := climbing.lt ranked left linked other
  have more := climbing.le right
  omega

theorem Fixed.updateNode (fixed : d.Fixed g) (ranked : g.Ranked) (edged : g.Edged)
    (member : b ∈ g.rpo) : updateNode g d b = (d,false) := by
  rw [Dominators.updateNode]
  split
  · rfl
  · rename_i other
    obtain ⟨p,link,joins⟩ := fixed.joins b member (by simpa using other)
    have again := fixed.stage.climbing.joinPreds ranked edged (g.node b).allPreds
    split
    · rfl
    · rename_i q join
      rw [join] at again
      -- Both are below exactly what the predecessors have in common.
      have same := fun c => (joins.2.2 c).trans (again.2.2 c).symm
      cases fixed.stage.climbing.overAntisymm ranked ((same p).mp .here) ((same q).mpr .here)
        again.1
      rw [if_pos (by rw [link]; exact beq_self_eq_true _)]

theorem Fixed.rests (fixed : d.Fixed g) (ranked : g.Ranked) (edged : g.Edged) :
    round g d = (d,false) := by
  rw [roundPass]
  have all : ∀ is : List NodeId, (∀ b ∈ is, b ∈ g.rpo) → is.foldl (also g) (d,false) = (d,false) := by
    intro is
    induction is with
    | nil => exact fun _ => rfl
    | cons b is ih =>
      intro inside
      have still := fixed.updateNode ranked edged (inside b (List.mem_cons_self ..))
      rw [List.foldl_cons,also,still]
      exact ih fun c listed => inside c (List.mem_cons_of_mem b listed)
  exact all g.rpo fun _ => id

section
variable (ranked : g.Ranked) (edged : g.Edged)
include ranked edged

theorem idomIff (member : b ∈ g.rpo) : (ofGraph g).idom? b = some p ↔ g.Immediate p b := by
  obtain ⟨e,entry⟩ := ranked.entryOf member
  have fixed := ofGraphFixed ranked edged entry
  have forth : ∀ q, (ofGraph g).idom? b = some q → q ∈ g.rpo ∧ g.Immediate q b := fun q idom => by
    obtain ⟨inside,other,dom,closest⟩ := idomDominates ranked edged member idom
    exact ⟨inside,other,dom,closest⟩
  refine ⟨fun idom => (forth p idom).2,fun immediate => ?_⟩
  have other : g.entry ≠ some b := fun start => immediate.other (immediate.dominates.entry start)
  obtain ⟨q,link,-⟩ := fixed.joins b member other
  have idom : (ofGraph g).idom? b = some q := by
    rw [idom?,fixed.stage.climbing.start,if_neg (by simpa using other),link]
  obtain ⟨inside,here⟩ := forth q idom
  rw [idom,here.unique ranked inside immediate]

theorem idomNone (member : b ∈ g.rpo) (entry : g.entry = some e) :
    (ofGraph g).idom? b = none ↔ b = e := by
  have fixed := ofGraphFixed ranked edged entry
  rw [idom?,fixed.stage.climbing.start,entry]
  constructor
  · intro idom
    by_contra other
    rw [if_neg (by simpa using Ne.symm other)] at idom
    have linked := fixed.linked b member
    rw [idom] at linked
    contradiction
  · rintro rfl
    rw [if_pos (by exact beq_self_eq_true _)]

theorem commonIff (left : a ∈ g.rpo) (right : b ∈ g.rpo) : (ofGraph g).common a b ∈ g.rpo ∧
    (∀ c, g.Dominates c ((ofGraph g).common a b) ↔ g.Dominates c a ∧ g.Dominates c b) ∧
    ∀ fuel, (ofGraph g).reach ≤ fuel → (ofGraph g).meet fuel a b = (ofGraph g).common a b := by
  obtain ⟨e,entry⟩ := ranked.entryOf left
  have fixed := ofGraphFixed ranked edged entry
  have climbing := fixed.stage.climbing
  have linked := fixed.linked a left
  have linked' := fixed.linked b right
  have enough := climbing.reachEnough ranked edged linked linked'
  have meet : ∀ c, (ofGraph g).Over c ((ofGraph g).common a b) ↔ _ :=
    climbing.meet ranked (ofGraph g).reach linked linked' enough
  have inside := climbing.numbered (climbing.overLinked ((meet _).mp .here).1 linked)
  refine ⟨inside,fun c => ?_,fun fuel more => ?_⟩
  · rw [← fixed.overIff ranked edged inside,← fixed.overIff ranked edged left,
      ← fixed.overIff ranked edged right]
    exact meet c
  · have meet' := climbing.meet ranked fuel linked linked' (by omega)
    have same := fun c => (meet' c).trans (meet c).symm
    exact climbing.overAntisymm ranked ((same _).mp .here) ((same _).mpr .here)
      (fixed.linked _ inside)

end

/-- Numbering a graph makes its dominators exact. The rounds come to rest; a node is found to
dominate another just when every way from the entry meets it; the immediate dominator is the one
closest strict dominator, which only the entry lacks; the children of a node are those that it is
the immediate dominator of, in order; and the common dominator of two nodes, which more moves do not
change, is the one that everything that dominates both dominates. -/
theorem exactOfNumbered (netted : g.Netted) (entry : g.entry = some e) (member : e ∈ g.nodes) :
    round g.renumber (ofGraph g.renumber) = (ofGraph g.renumber,false) ∧
    (∀ a, ∀ b ∈ g.renumber.rpo,
      (ofGraph g.renumber).dominates a b = true ↔ g.renumber.Dominates a b) ∧
    (∀ b ∈ g.renumber.rpo, ((ofGraph g.renumber).idom? b = none ↔ b = e) ∧
      ∀ p, (ofGraph g.renumber).idom? b = some p ↔ g.renumber.Immediate p b) ∧
    (∀ a, ((ofGraph g.renumber).children g.renumber.rpo a).Sublist g.renumber.rpo ∧
      ∀ b, b ∈ (ofGraph g.renumber).children g.renumber.rpo a ↔
        b ∈ g.renumber.rpo ∧ g.renumber.Immediate a b) ∧
    ∀ a ∈ g.renumber.rpo, ∀ b ∈ g.renumber.rpo, (ofGraph g.renumber).common a b ∈ g.renumber.rpo ∧
      (∀ c, g.renumber.Dominates c ((ofGraph g.renumber).common a b) ↔
        g.renumber.Dominates c a ∧ g.renumber.Dominates c b) ∧
      ∀ fuel, (ofGraph g.renumber).reach ≤ fuel →
        (ofGraph g.renumber).meet fuel a b = (ofGraph g.renumber).common a b := by
  have edged := netted.numberedEdged entry member
  have ranked := netted.ranked entry member
  have first : g.renumber.entry = some e := by rw [(netted.numbered entry member).rest,entry]
  refine ⟨(ofGraphFixed ranked edged first).rests ranked edged,
    fun a b inside => dominatesIff ranked edged inside,fun b inside =>
      ⟨idomNone ranked edged inside first,fun p => idomIff ranked edged inside⟩,fun a =>
      ⟨List.filter_sublist,fun b => ?_⟩,fun a left b right => commonIff ranked edged left right⟩
  rw [children,List.mem_filter,beq_iff_eq]
  exact and_congr_right fun inside => idomIff ranked edged inside

def tangled : Graph where
  entry := some 0
  store := #[
    { kind := .cond, succs := [1,2], onTrue := some 1, onFalse := some 2 },
    { kind := .cond, succs := [2,3], preds := [0,2], onTrue := some 2, onFalse := some 3 },
    { succs := [1], preds := [0,1], catchSuccs := [3] },
    { kind := .ret, preds := [1,4], catchPreds := [2], handler := true },
    { succs := [3] }]
  nodes := [0,1,2,3,4]

theorem tangledNetted : tangled.Netted where
  inStore := by decide
  once := by decide
  normal := ⟨by decide,by decide,by decide,by decide⟩
  raised := ⟨by decide,by decide,by decide,by decide⟩

theorem tangledFound : (tangled.renumber.rpo.contains 3 &&
    (ofGraph tangled.renumber).idom? 3 == some 0 && !(ofGraph tangled.renumber).dominates 1 3) = true := by
  simp -zeta only [Graph.renumber,Graph.reversePostorder,Flow.exploreNested]
  decide +kernel

theorem exactOfNumberedTangled : tangled.Netted ∧ tangled.entry = some 0 ∧ 0 ∈ tangled.nodes ∧
    tangled.renumber.Immediate 0 3 ∧ ¬tangled.renumber.Dominates 1 3 := by
  obtain ⟨-,dominates,idom,-,-⟩ := exactOfNumbered tangledNetted rfl (by decide : 0 ∈ tangled.nodes)
  have found := tangledFound
  simp only [Bool.and_eq_true,List.contains_iff_mem,beq_iff_eq,Bool.not_eq_true'] at found
  obtain ⟨⟨inside,first⟩,apart⟩ := found
  refine ⟨tangledNetted,rfl,by decide,((idom 3 inside).2 0).mp first,fun dom => ?_⟩
  rw [(dominates 1 3 inside).mpr dom] at apart
  contradiction

theorem Fixed.memRunners (fixed : d.Fixed g) (ranked : g.Ranked) (edged : g.Edged) (fuel : Nat)
    (member : p ∈ g.rpo) (enough : (g.node p).num ≤ fuel) (higher : d.Over i p) :
    a ∈ (d.chain fuel p).takeWhile (fun r => some i != some r) ↔ d.Over a p ∧ ¬d.Over a i := by
  have stops : ∀ is, a ∈ (i :: is).takeWhile (fun r => some i != some r) ↔ d.Over a i ∧ ¬d.Over a i := by
    intro is
    rw [List.takeWhile_cons_of_neg (by simp)]
    exact ⟨nofun,fun both => absurd both.1 both.2⟩
  have top : ∀ e, g.entry = some e → d.Over i e → i = e := fun e entry higher =>
    ((fixed.overIff ranked edged (edged.entry e entry)).mp higher).entry entry
  induction fuel generalizing p with
  | zero =>
    obtain ⟨e,entry⟩ := ranked.entryOf member
    by_cases here : p = e
    · subst here
      cases top p entry higher
      exact stops []
    · have more := ranked.positive edged member entry here
      omega
  | succ fuel ih =>
    rw [chain,idom?,fixed.stage.climbing.start]
    by_cases here : g.entry = some p
    · rw [if_pos (by rw [here]; exact beq_self_eq_true _)]
      cases top p here higher
      exact stops []
    · rw [if_neg (by simpa using here)]
      obtain ⟨q,link,joins⟩ := fixed.joins p member here
      have less := fixed.stage.climbing.less p q link here
      simp only [link]
      by_cases same : i = p
      · subst same
        exact stops _
      · have linked := fixed.linked p member
        have apart : ¬d.Over p i := fun lower =>
          same (fixed.stage.climbing.overAntisymm ranked higher lower linked)
        have rest := ih (fixed.stage.climbing.numbered joins.1) (by omega) (higher.past link same)
        rw [List.takeWhile_cons_of_pos (by simpa using same),List.mem_cons]
        refine (or_congr_right rest).trans ⟨?_,?_⟩
        · rintro (rfl | ⟨upper,out⟩)
          · exact ⟨.here,apart⟩
          · exact ⟨.up link upper,out⟩
        · rintro ⟨upper,out⟩
          by_cases first : a = p
          · exact .inl first
          · exact .inr ⟨upper.past link first,out⟩

theorem dominatesOfPreds (edged : g.Edged) (other : g.entry ≠ some b)
    (all : ∀ p ∈ (g.node b).allPreds, g.Dominates a p) : g.Dominates a b := by
  intro e entry way
  cases way with
  | stay fits => exact other entry
  | @on m _ way out fits =>
    have inside := way.inRpo edged (edged.entry e entry)
    exact all m (edged.allSuccs inside out).2 e entry way

/-- The frontier of a node is where its dominance ends. A node is in it just when a node that leads there
is dominated, and the node itself is not strictly dominated. -/
theorem frontierIff (ranked : g.Ranked) (edged : g.Edged)
    (sourceless : ∀ e, g.entry = some e → (g.node e).allPreds = []) (a : NodeId) :
    (frontier g (ofGraph g) a).Sublist g.rpo ∧ (frontier g (ofGraph g) a).Nodup ∧
      ∀ b, b ∈ frontier g (ofGraph g) a ↔ b ∈ g.rpo ∧ (∃ p ∈ (g.node b).allPreds, g.Dominates a p) ∧
        ¬(g.Dominates a b ∧ a ≠ b) := by
  refine ⟨List.filter_sublist,ranked.nodup.filter _,fun b => ?_⟩
  rw [frontier,List.mem_filter,List.contains_iff_mem]
  refine and_congr_right fun member => ?_
  obtain ⟨e,entry⟩ := ranked.entryOf member
  have fixed := ofGraphFixed ranked edged entry
  by_cases first : b = e
  · subst first
    rw [frontierOwners,sourceless b entry,if_pos (by decide)]
    exact ⟨nofun,fun both => absurd both.1.choose_spec.1 List.not_mem_nil⟩
  have other : g.entry ≠ some b := fun start => first (Option.some.inj (start.symm.trans entry))
  obtain ⟨i,link,-⟩ := fixed.joins b member other
  have idom : (ofGraph g).idom? b = some i := by
    rw [idom?,fixed.stage.climbing.start,if_neg (by simpa using other),link]
  obtain ⟨inside,apart,dom,closest⟩ := idomDominates ranked edged member idom
  -- Strict dominators of `b` are the dominators of its immediate one.
  have strict : g.Dominates a i ↔ g.Dominates a b ∧ a ≠ b :=
    ⟨fun upper => ⟨upper.trans dom,fun same => apart (dom.antisymm ranked member (same ▸ upper))⟩,
      fun both => closest a both.2 both.1⟩
  have runs : ∀ p ∈ (g.node b).allPreds, a ∈ (ofGraph g).runners b p ↔ g.Dominates a p ∧ ¬g.Dominates a i := by
    intro p into
    obtain ⟨listed,out⟩ := edged.allPreds member into
    have short := ranked.lessThanLength listed
    have length := ranked.lengthLe edged
    have size := fixed.stage.climbing.size
    rw [runners,above,link,fixed.memRunners ranked edged _ listed (by omega)
      ((fixed.overIff ranked edged listed).mpr (dom.edge apart.symm out)),
      fixed.overIff ranked edged listed,fixed.overIff ranked edged inside]
  rw [← strict,frontierOwners]
  split
  · rename_i few
    refine ⟨nofun,fun both => ?_⟩
    obtain ⟨⟨p,into,lower⟩,out⟩ := both
    -- A node that only one node leads to is dominated by it.
    have only : (g.node b).allPreds = [p] := by
      obtain ⟨q,one⟩ := List.length_eq_one_iff.mp (by
        have some := List.length_pos_of_mem into
        omega : (g.node b).allPreds.length = 1)
      rw [one,List.mem_singleton] at into
      rw [one,into]
    have single : g.Dominates p b := dominatesOfPreds edged other fun q into' => by
      rw [only,List.mem_singleton] at into'
      exact into' ▸ .refl g p
    refine absurd (strict.mpr ⟨lower.trans single,fun same => ?_⟩) out
    obtain ⟨m,listed,lead,less⟩ := ranked.earlier b member other
    have from_ := (edged.allSuccs listed lead).2
    rw [only,List.mem_singleton] at from_
    have both := lower.antisymm ranked (edged.allPreds member into).1 (same ▸ single)
    rw [from_,← both,same] at less
    exact Int.lt_irrefl _ less
  · rw [List.mem_flatMap]
    constructor
    · rintro ⟨p,into,there⟩
      obtain ⟨lower,out⟩ := (runs p into).mp there
      exact ⟨⟨p,into,lower⟩,out⟩
    · rintro ⟨⟨p,into,lower⟩,out⟩
      exact ⟨p,into,(runs p into).mpr ⟨lower,out⟩⟩

theorem tangledFrontier : ((tangled.renumber.node 0).allPreds == [] &&
    frontier tangled.renumber (ofGraph tangled.renumber) 2 == [1,3]) = true := by
  simp -zeta only [Graph.renumber,Graph.reversePostorder,Flow.exploreNested]
  decide +kernel

/-- The second node leads back to the first and on to the last, neither of which it dominates. -/
theorem frontierIffTangled : frontier tangled.renumber (ofGraph tangled.renumber) 2 = [1,3] ∧
    (∃ p ∈ (tangled.renumber.node 3).allPreds, tangled.renumber.Dominates 2 p) ∧
      ¬tangled.renumber.Dominates 2 3 := by
  have edged := tangledNetted.numberedEdged rfl (by decide : 0 ∈ tangled.nodes)
  have ranked := tangledNetted.ranked rfl (by decide : 0 ∈ tangled.nodes)
  have first : tangled.renumber.entry = some 0 := by
    rw [(tangledNetted.numbered rfl (by decide : 0 ∈ tangled.nodes)).rest]
    rfl
  have found := tangledFrontier
  simp only [Bool.and_eq_true,beq_iff_eq] at found
  obtain ⟨none,ends⟩ := found
  obtain ⟨-,-,iff⟩ := frontierIff ranked edged (fun e entry => by
    cases first.symm.trans entry
    exact none) 2
  obtain ⟨-,leads,apart⟩ := (iff 3).mp (by rw [ends]; decide)
  exact ⟨ends,leads,fun dom => apart ⟨dom,by decide⟩⟩

end Dominators

end RegCode

/-! The order that numbering gives to the nodes. An edge that does not lead on to a greater number closes a
circle, by the way along which the search came, and no circle does without such an edge. -/
namespace RegCode.Graph

variable {g h : Graph} {a b e u v : NodeId}

theorem Ascends.circle (ascends : g.Ascends v u) (out : v ∈ (g.node u).allSuccs) :
    ∃ ns, Circle (fun n => (g.node n).allSuccs) (v :: ns) ∧ (v :: ns).getLast? = some u ∧
      (v :: ns).IsChain fun a b => (g.node a).num < (g.node b).num := by
  obtain ⟨ns,chain,last⟩ := List.exists_isChain_cons_of_relationReflTransGen ascends
  have ends : (v :: ns).getLast? = some u := by rw [List.getLast?_eq_some_getLast (List.cons_ne_nil _ _),last]
  refine ⟨ns,⟨List.cons_ne_nil _ _,List.isChain_append.mpr ⟨chain.imp fun _ _ up => up.1,by simp,?_⟩⟩,ends,
    chain.imp fun _ _ up => up.2⟩
  intro x isLast y isFirst
  rw [ends] at isLast
  cases isLast
  cases isFirst
  exact out

/-- What numbering makes of a graph with the entry `e`. -/
structure Postorder (g h : Graph) (e : NodeId) : Prop extends Numbered g h where
  entry : h.entry = some e
  first : h.rpo.head? = some e
  nums : ∀ (k : Nat) n, h.rpo[k]? = some n → (h.node n).num = k
  closed : ∀ n ∈ h.rpo, ∀ m, m ∈ (h.node n).allSuccs ∨ m ∈ (h.node n).allPreds → m ∈ h.rpo
  above : ∀ a, ∀ b ∈ h.rpo, h.Dominates a b → a ≠ b → a ∈ h.rpo ∧ (h.node a).num < (h.node b).num
  closes : ∀ u ∈ h.rpo, ∀ v ∈ (h.node u).allSuccs, (h.node v).num ≤ (h.node u).num → ∃ ns,
    Circle (fun n => (h.node n).allSuccs) (v :: ns) ∧ (v :: ns).getLast? = some u ∧
      (v :: ns).IsChain fun a b => (h.node a).num < (h.node b).num
  retreats : ∀ ns, Circle (fun n => (h.node n).allSuccs) ns →
    ∃ u v, [u,v] <:+: ns ++ ns.take 1 ∧ (h.node v).num ≤ (h.node u).num

theorem Mirrored.ascends (mirrored : g.Mirrored) (entry : g.entry = some e) (member : e ∈ g.nodes)
    (listed : u ∈ g.renumber.rpo) (out : v ∈ (g.renumber.node u).allSuccs)
    (le : (g.renumber.node v).num ≤ (g.renumber.node u).num) : g.renumber.Ascends v u := by
  have numbered := mirrored.numbered entry member
  have ranked := mirrored.ranked entry member
  have rpo : g.renumber.rpo = g.reversePostorder := by rw [renumberNumbered entry]
  have nodes : g.renumber.rpo = g.renumber.nodes := by rw [numbered.rest]
  have closed : ∀ i, i ∈ g.nodes → ∀ j ∈ (g.node i).allSuccs, j ∈ g.nodes := by
    intro i here j out
    rcases List.mem_append.mp out with out | out
    · exact (mirrored.succs i here j out).1
    · exact (mirrored.catchSuccs i here j out).1
  have same : ∀ n ∈ g.renumber.rpo, (g.renumber.node n).allSuccs = (g.node n).allSuccs := by
    intro n listed
    obtain ⟨normal,raised⟩ := numbered.succs (nodes ▸ listed)
    rw [Node.allSuccs,Node.allSuccs,normal,raised]
  have behind : ∀ {n m front back}, g.renumber.rpo = front ++ n :: back → m ∈ back →
      (g.renumber.node n).num < (g.renumber.node m).num := by
    intro n m front back parts later
    obtain ⟨i,there⟩ := List.mem_iff_getElem?.mp later
    rw [ranked.nums front.length n (by simp [parts]),
      ranked.nums (front.length + (i + 1)) m (by simpa [parts,List.getElem?_append_right] using there)]
    omega
  rcases reversePostorderDescends closed mirrored.inStore entry member u (rpo ▸ listed) v (same u listed ▸ out) with
    ⟨front,back,parts,later⟩ | way
  · have less := behind (rpo.trans parts) later
    omega
  · refine way.lift id fun n m down => ?_
    obtain ⟨out,front,back,parts,later⟩ := down
    have here : n ∈ g.renumber.rpo := by
      rw [rpo,parts]
      simp
    refine ⟨?_,behind (rpo.trans parts) later⟩
    rw [id,id,same n here]
    simpa [searchOrder,Node.allSuccs,or_comm] using out

/-- Numbering a graph whose lists of edges are inverse to each other gives each node that the entry leads to
its place in an order in which every edge that does not lead on closes a circle. -/
theorem postorderOfMirrored (mirrored : g.Mirrored) (entry : g.entry = some e) (member : e ∈ g.nodes) :
    g.Postorder g.renumber e := by
  have numbered := mirrored.numbered entry member
  have ranked := mirrored.ranked entry member
  have edged := mirrored.numberedEdged entry member
  have first : g.renumber.entry = some e := by rw [numbered.rest,entry]
  refine { numbered with
    entry := first
    first := ranked.first.trans first
    nums := ranked.nums
    closed := fun n listed m linked => ?_
    above := fun a b listed dom other => dom.less ranked listed other
    closes := fun u listed v out le => (mirrored.ascends entry member listed out le).circle out
    retreats := fun ns circle => circle.falls _ }
  rcases linked with out | into
  · exact (edged.allSuccs listed out).1
  · exact (edged.allPreds listed into).1

open Dominators in
theorem tangledOrder : (tangled.renumber.rpo == [0,1,2,3] &&
    (tangled.renumber.node 2).allSuccs.contains 1 && (tangled.renumber.node 3).preds == [1]) = true := by
  simp -zeta only [Graph.renumber,Graph.reversePostorder,Flow.exploreNested]
  decide +kernel

open Dominators in
/-- The last node is gone, with its edge to node 3; the edge from 2 back to 1 closes a circle. -/
theorem postorderOfTangled : tangled.Mirrored ∧ tangled.entry = some 0 ∧ 0 ∈ tangled.nodes ∧
    tangled.renumber.nodes = [0,1,2,3] ∧ (tangled.renumber.node 3).preds = [1] ∧
      ∃ ns, Circle (fun n => (tangled.renumber.node n).allSuccs) (1 :: ns) ∧ (1 :: ns).getLast? = some 2 := by
  have post := postorderOfMirrored tangledNetted.mirrored rfl (by decide : 0 ∈ tangled.nodes)
  have found := tangledOrder
  simp only [Bool.and_eq_true,List.contains_iff_mem,beq_iff_eq] at found
  obtain ⟨⟨order,out⟩,preds⟩ := found
  have nodes : tangled.renumber.rpo = tangled.renumber.nodes := by rw [post.rest]
  have le : (tangled.renumber.node 1).num ≤ (tangled.renumber.node 2).num := by
    rw [post.nums 1 1 (by rw [order]; rfl),post.nums 2 2 (by rw [order]; rfl)]
    decide
  obtain ⟨ns,circle,last,-⟩ := post.closes 2 (by rw [order]; decide) 1 out le
  exact ⟨tangledNetted.mirrored,rfl,by decide,nodes ▸ order,preds,ns,circle,last⟩

end RegCode.Graph
