import RegCode.Proofs.Flow.Finishing
import RegCode.Proofs.Flow.Blocks

/-! The graph of a method says what its code does. Its nodes are the blocks that control can reach, and
a node leads to the nodes of the blocks that its own block leads to. -/
namespace RegCode

/-- Handlers that stand for those over an offset: of a range that is written the same way. -/
def Method.Reads (m : Method) (o : Int) (hs : Option (List Handler)) : Prop :=
  match m.handlersAt o with
  | none => hs = none
  | some covers => ∃ t ∈ m.tries, Flow.handlersKey t.handlers = Flow.handlersKey covers ∧ hs = some t.handlers

theorem Method.ToldApart.reads {m : Method} {o : Int} {hs : Option (List Handler)} (told : m.ToldApart)
    (reads : m.Reads o hs) : hs = m.handlersAt o := by
  unfold Reads at reads
  split at reads
  · rename_i none
    rw [reads,none]
  · rename_i covers found
    obtain ⟨t,member,same,rfl⟩ := reads
    obtain ⟨u,here,rfl⟩ := Option.map_eq_some_iff.mp found
    rw [found,told t member u (List.mem_of_find?_eq_some here) same]

theorem Method.readsAt (m : Method) (o : Int) : m.Reads o (m.handlersAt o) := by
  unfold Reads
  split
  · assumption
  · rename_i covers found
    obtain ⟨t,here,same⟩ := Option.map_eq_some_iff.mp found
    exact ⟨t,List.mem_of_find?_eq_some here,by rw [same],by rw [found,same]⟩

namespace Block

/-- Blocks that control reaches from the start, by the ends of blocks and by handlers. -/
inductive Reached (m : Method) (handlers : Int → Option (List Handler)) : Block → Prop where
  | first {b : Block} (member : b ∈ split m) (start : b.start = 0) : Reached m handlers b
  | leads {b c : Block} (way : Reached m handlers b) (member : c ∈ split m) (out : c.start ∈ b.leads) :
      Reached m handlers c
  | raises {b c : Block} {hs : List Handler} {h : Handler} (way : Reached m handlers b)
      (member : c ∈ split m) (covers : handlers b.start = some hs) (listed : h ∈ hs)
      (target : h.target = c.start) : Reached m handlers c

theorem Reached.inside {m : Method} {handlers : Int → Option (List Handler)} {b : Block}
    (reached : Reached m handlers b) : b ∈ split m := by
  cases reached with
  | first member start => exact member
  | leads way member out => exact member
  | raises way member covers listed target => exact member

def joins (b : Block) (last : Instruction) : Bool :=
  match last.family with
  | .ifTest | .ifZero => b.fall == some last.target
  | _ => false

def nodeKind (b : Block) (last : Instruction) : NodeKind :=
  match last.family with
  | .return | .returnVoid => .ret
  | .throw => .throw
  | .ifTest | .ifZero => if b.joins last then .stmt else .cond
  | .packedSwitch | .sparseSwitch => .switch
  | _ => .stmt

end Block

namespace Flow

variable {m : Method} {blocks met : List Block} {b : Builder} {g : Graph} {k : Block}
  {place : Int → Option NodeId} {last : Instruction} {o : Int} {i j : NodeId}

def lookups (b : Block) (last : Instruction) : List Int :=
  match last.family with
  | .return | .returnVoid | .throw => []
  | .goto => [last.target]
  | .ifTest | .ifZero => [last.target, b.fall.getD (-1)]
  | .packedSwitch | .sparseSwitch => (keysOf last).map Prod.snd ++ [b.fall.getD (-1)]
  | _ => (b.fall.filter fun o => decide (0 ≤ o)).toList

theorem reachMem {t : Option NodeId} {x : Node} : j ∈ (x.reach t).succs ↔ j ∈ x.succs ∨ t = some j := by
  cases t with
  | none => simp [Node.reach]
  | some t => simp [Node.reach,Graph.insertOnceMem,eq_comm]

theorem fallToMem {t : Option NodeId} {x : Node} : j ∈ (x.fallTo t).succs ↔ j ∈ x.succs ∨ t = some j := by
  cases t with
  | none => simp [Node.fallTo]
  | some t => simp [Node.fallTo,Graph.insertOnceMem,eq_comm]

theorem targetsAtMem {keys : List (Int × Int)} :
    j ∈ targetsAt place keys ↔ ∃ o ∈ keys.map Prod.snd, place o = some j := by
  simp only [targetsAt,List.mem_filterMap,List.mem_map]
  constructor
  · rintro ⟨key,member,found⟩
    exact ⟨key.2,⟨key,member,rfl⟩,found⟩
  · rintro ⟨_,⟨key,member,rfl⟩,found⟩
    exact ⟨key,member,found⟩

theorem drawnSuccs {x : Node} : j ∈ (drawn place k last x).succs ↔
    j ∈ x.succs ∨ ∃ o ∈ lookups k last, place o = some j := by
  unfold drawn lookups
  dsimp only
  split
  case h_1 | h_2 | h_3 => simp_all
  case h_4 => simp_all [reachMem]
  case h_5 | h_6 =>
    split <;> simp_all [reachMem,or_assoc]
  case h_7 family | h_8 family =>
    simp only [family,fallToMem,Graph.insertAllMem,targetsAtMem,List.mem_append,List.mem_singleton,
      or_and_right,exists_or,exists_eq_left,or_assoc]
  case h_9 =>
    rw [reachMem,nextAt]
    cases k.fall with
    | none => simp_all
    | some o => by_cases positive : 0 ≤ o <;> simp_all [Option.filter]

theorem lookupsLead (valid : m.verify = .ok ()) (fits : m.Fits) (member : k ∈ Block.split m)
    (ends : k.last? = some last) (start : ∃ c ∈ Block.split m, c.start = o) :
    o ∈ lookups k last ↔ o ∈ k.leads := by
  obtain ⟨targets,fall⟩ := Block.splitEnds member ends
  have there : last ∈ m.code := by
    have cut := Block.splitCut (Method.ascends valid fits) member
    exact ((cut.insts last).mp (List.mem_of_getLast? ends)).1
  have positive : 0 ≤ o := by
    obtain ⟨c,among,rfl⟩ := start
    exact (Block.startInside valid fits (Block.splitCut (Method.ascends valid fits) among).start).1
  have falls : o = k.fall.getD (-1) ↔ k.fall = some o := by
    cases k.fall with
    | none =>
      simp only [Option.getD_none,reduceCtorEq,iff_false]
      omega
    | some f => simp [eq_comm]
  have exits : last.family.isTerminator = true → k.fall = none := fun ends => by simp [fall,ends]
  unfold lookups Block.leads
  rw [targets]
  split
  case h_1 family | h_2 family | h_3 family =>
    simp [Instruction.targets,family,exits (by rw [family]; rfl)]
  case h_4 family =>
    simp [Instruction.targets,family,exits (by rw [family]; rfl)]
  case h_5 family | h_6 family =>
    simp [Instruction.targets,family,falls]
  case h_7 family | h_8 family =>
    obtain ⟨prev,fed⟩ := (Verify.checked valid).fed last there
    unfold Verify.operands at fed
    rw [family] at fed
    dsimp only at fed
    cases table : last.switch with
    | none =>
      rw [table] at fed
      contradiction
    | some t =>
      rw [table] at fed
      dsimp only at fed
      split at fed
      · rename_i same
        simp [Instruction.targets,family,falls,keysOf,table,List.map_snd_zip (Nat.le_of_eq same.symm)]
      · contradiction
  case h_9 others =>
    have none : last.targets = [] := by
      unfold Instruction.targets
      split <;> first | contradiction | rfl
    cases k.fall with
    | none => simp [none]
    | some f => simp [none,Option.filter]; omega

namespace Drawn

variable (drawn : Drawn m blocks met met.length b)
include drawn

theorem placed {ss : List Stmt} {region : Option RegionId} {entries : List NodeId}
    (renders : Renders m blocks met b.graph i k last ss region entries) (inside : i < b.graph.store.size)
    (out : o ∈ lookups k last) (start : ∃ c ∈ blocks, c.start = o) : ∃ j, Place met j o := by
  by_contra absent
  have sites := drawn.standing.sites
  have moved : Sites blocks met fun p => if p = o then some b.graph.store.size else b.known.lookup p := by
    refine ⟨fun p j there => ?_,fun p none => ?_⟩
    · rw [if_neg fun same : p = o => absent ⟨j,same ▸ there⟩]
      exact sites.here p j there
    · rw [if_neg]
      · exact sites.nowhere p none
      · rintro rfl
        obtain ⟨c,member,same⟩ := start
        exact none c member same
  have own := renders.node _ moved
  have leads : b.graph.store.size ∈ (b.graph.node i).own.succs := by
    rw [own]
    exact drawnSuccs.mpr (.inr ⟨o,out,if_pos rfl⟩)
  have woven := drawn.standing.woven
  have there := (woven.normal.forth i (woven.mem.mpr inside) _ leads).1
  exact Nat.lt_irrefl _ (woven.mem.mp there)

end Drawn

end Flow

namespace Graph

open RegCode.Flow

variable {m : Method} {blocks met : List Block} {b : Builder} {g : Graph} {i j : NodeId} {o : Int}

theorem Finished.placed (finished : b.graph.Finished g) (known : Flow.Met blocks met b) (first : 0 < met.length) :
    g.At i o ↔ Place met i o := by
  have size := known.size
  have within : i < g.store.size ∧ ¬g.Front i ↔ i < met.length := by
    unfold Front
    rcases finished.front with ⟨entry,same⟩ | ⟨entry,same,-⟩
    · rw [entry,same,size]
      refine ⟨And.left,fun inside => ⟨inside,fun front => front.2 (Option.some.inj front.1).symm⟩⟩
    · rw [entry,same,size,Option.some.injEq]
      constructor
      · rintro ⟨inside,other⟩
        refine Nat.lt_of_le_of_ne (Nat.le_of_lt_succ inside) fun last => other ⟨last.symm,?_⟩
        exact Nat.ne_of_gt (last ▸ first)
      · intro inside
        exact ⟨Nat.lt_succ_of_lt inside,fun front => Nat.ne_of_gt inside front.1⟩
  have start : i < met.length → (g.node i).start = (b.graph.node i).start := fun inside => by
    have own := (finished.nodes i (size ▸ inside)).1
    show (g.node i).own.start = _
    rw [own]
    rfl
  rw [At,← and_assoc,within]
  constructor
  · rintro ⟨inside,here⟩
    have found := List.getElem?_eq_getElem inside
    exact ⟨_,found,(known.starts i _ found).symm.trans ((start inside).symm.trans here)⟩
  · rintro ⟨k,found,here⟩
    have inside := (List.getElem?_eq_some_iff.mp found).1
    exact ⟨inside,(start inside).trans ((known.starts i k found).trans here)⟩

/-- The node says what the block is: its statements are those of the block, and its normal edges lead to
the nodes of the blocks that the block leads to, each for its own reason. -/
structure Mirrors (g : Graph) (m : Method) (i : NodeId) (b : Block) (last : Instruction) : Prop where
  kind : (g.node i).kind = b.nodeKind last
  stmts : ∃ ss, Does (Lower.block m b.insts) g.vars ss g.vars ∧
    (g.node i).stmts.map Stmt.act = (if b.joins last then ss.dropLast else ss).map Stmt.act
  succs : ∀ j, j ∈ (g.node i).succs ↔ ∃ o ∈ b.leads, g.At j o
  leads : ∀ o ∈ b.leads, ∃ j ∈ g.nodes, g.At j o
  test : (g.node i).kind = .cond → ∃ t f o, (g.node i).onTrue = some t ∧ g.At t last.target ∧
    (g.node i).onFalse = some f ∧ b.fall = some o ∧ g.At f o
  cases : (g.node i).kind = .switch → ((g.node i).cases.map (·.target)).Nodup ∧
    ∀ key t, (∃ c ∈ (g.node i).cases, c.target = t ∧ key ∈ c.keys) ↔ ∃ o, (key,o) ∈ keysOf last ∧ g.At t o
  default : (g.node i).kind = .switch → ∀ t, (g.node i).default = some t ↔ ∃ o, b.fall = some o ∧ g.At t o

end Graph

namespace Flow

variable {m : Method} {met : List Block} {b : Builder} {g : Graph} {k : Block}
  {place : Int → Option NodeId} {last : Instruction} {o : Int} {i j : NodeId}

theorem addKeyHolds {key x : Int} {t u : NodeId} {cases : List SwitchCase} :
    (∃ c ∈ addKey key t cases, c.target = u ∧ x ∈ c.keys) ↔
      (∃ c ∈ cases, c.target = u ∧ x ∈ c.keys) ∨ x = key ∧ t = u := by
  induction cases with
  | nil => simp [addKey,and_comm]
  | cons c cs ih =>
    unfold addKey
    split
    · rename_i same
      simp only [List.exists_mem_cons_iff,List.mem_append,List.mem_singleton,same]
      grind
    · rw [List.exists_mem_cons_iff,ih,List.exists_mem_cons_iff,or_assoc]

theorem casesAtHolds {x : Int} {u : NodeId} {keys : List (Int × Int)} {cases : List SwitchCase} :
    (∃ c ∈ casesAt place keys cases, c.target = u ∧ x ∈ c.keys) ↔
      (∃ c ∈ cases, c.target = u ∧ x ∈ c.keys) ∨ ∃ o, (x,o) ∈ keys ∧ place o = some u := by
  induction keys generalizing cases with
  | nil => simp [casesAt]
  | cons key keys ih =>
    obtain ⟨key,offset⟩ := key
    unfold casesAt
    split
    · rename_i none
      rw [ih]
      refine or_congr_right (exists_congr fun o => ?_)
      simp only [List.mem_cons,Prod.mk.injEq]
      constructor
      · rintro ⟨member,found⟩
        exact ⟨.inr member,found⟩
      · rintro ⟨⟨-,rfl⟩ | member,found⟩
        · rw [none] at found
          contradiction
        · exact ⟨member,found⟩
    · rename_i t here
      rw [ih,addKeyHolds,or_assoc]
      refine or_congr_right ⟨?_,?_⟩
      · rintro (⟨rfl,rfl⟩ | ⟨o,member,found⟩)
        · exact ⟨offset,List.mem_cons_self ..,here⟩
        · exact ⟨o,List.mem_cons_of_mem _ member,found⟩
      · rintro ⟨o,member,found⟩
        rcases List.mem_cons.mp member with same | member
        · cases same
          exact .inl ⟨rfl,Option.some.inj (here.symm.trans found)⟩
        · exact .inr ⟨o,member,found⟩

/-- A node as its block was drawn, and what stands at the offsets that the block ends in. -/
structure Sketched (g : Graph) (m : Method) (find : Int → Option NodeId) (i : NodeId) (k : Block)
    (last : Instruction) (ss : List Stmt) (x : Node) : Prop where
  place : ∀ o j, find o = some j ↔ g.At j o
  positive : ∀ {j o}, g.At j o → 0 ≤ o
  nodes : ∀ o ∈ k.leads, ∃ j ∈ g.nodes, g.At j o
  succs : ∀ j, j ∈ (g.node i).succs ↔ ∃ o ∈ k.leads, g.At j o
  targets : k.targets = last.targets
  lowered : Does (Lower.block m k.insts) g.vars ss g.vars
  ways : Lower.IsTest last → find last.target = find (k.fall.getD (-1)) ∨
    (find last.target).isSome ∧ (find (k.fall.getD (-1))).isSome
  drew : drawn find k last { start := k.start, stmts := ss } = x
  kind : (g.node i).kind = x.kind
  onTrue : (g.node i).onTrue = x.onTrue
  onFalse : (g.node i).onFalse = x.onFalse
  cases : (g.node i).cases = x.cases
  default : (g.node i).default = x.default
  acts : (g.node i).stmts.map Stmt.act = x.stmts.map Stmt.act

namespace Sketched

variable {find : Int → Option NodeId} {ss : List Stmt} {x : Node} (sketched : Sketched g m find i k last ss x)
include sketched

theorem fall (t : NodeId) : find (k.fall.getD (-1)) = some t ↔ ∃ o, k.fall = some o ∧ g.At t o := by
  rw [sketched.place]
  cases k.fall with
  | none =>
    refine ⟨fun there => ?_,by simp⟩
    have := sketched.positive there
    contradiction
  | some o => simp

/-- Both ways out of a test have nodes, and the nodes are one if the offsets are. -/
theorem tested (test : Lower.IsTest last) : ∃ t f, find last.target = some t ∧
    find (k.fall.getD (-1)) = some f ∧ g.At t last.target ∧ (∃ o, k.fall = some o ∧ g.At f o) ∧
      (k.joins last = true ↔ t = f) := by
  obtain ⟨t,-,there⟩ : ∃ t ∈ g.nodes, g.At t last.target := by
    refine sketched.nodes _ (List.mem_append_left _ ?_)
    rw [sketched.targets]
    rcases test with family | family <;> simp [Instruction.targets,family]
  have target := (sketched.place _ _).mpr there
  obtain ⟨f,beyond⟩ : ∃ f, find (k.fall.getD (-1)) = some f := by
    rcases sketched.ways test with same | ⟨-,some⟩
    · exact ⟨t,same.symm.trans target⟩
    · exact Option.isSome_iff_exists.mp some
  obtain ⟨o,falls,there'⟩ := (sketched.fall f).mp beyond
  refine ⟨t,f,target,beyond,there,⟨o,falls,there'⟩,?_⟩
  have joins : k.joins last = (k.fall == some last.target) := by
    unfold Block.joins
    rcases test with family | family <;> rw [family]
  rw [joins,falls,beq_iff_eq,Option.some.injEq]
  constructor
  · rintro rfl
    rw [falls] at beyond
    exact Option.some.inj (target.symm.trans beyond)
  · rintro rfl
    exact there'.2.2.symm.trans there.2.2

theorem mirrorsTest (test : Lower.IsTest last) : g.Mirrors m i k last := by
  obtain ⟨t,f,target,beyond,there,⟨o,falls,there'⟩,joins⟩ := sketched.tested test
  have sort : k.nodeKind last = if k.joins last then .stmt else .cond := by
    unfold Block.nodeKind
    rcases test with family | family <;> rw [family]
  have whole : x = if t = f then Node.reach (some t) { start := k.start, stmts := ss.dropLast }
      else Node.reach (some f) (Node.reach (some t)
        { start := k.start, stmts := ss, kind := .cond, onTrue := some t, onFalse := some f }) := by
    rw [← sketched.drew]
    unfold Flow.drawn
    rcases test with family | family <;> simp [family,target,beyond]
  by_cases same : t = f
  · rw [if_pos same] at whole
    have joined := joins.mpr same
    subst whole
    have kind := sketched.kind
    refine ⟨?_,⟨ss,sketched.lowered,?_⟩,sketched.succs,sketched.nodes,fun cond => ?_,fun switch => ?_,
      fun switch => ?_⟩
    · rw [kind,sort,joined]
      rfl
    · rw [sketched.acts,joined]
      rfl
    · rw [kind] at cond
      contradiction
    all_goals
      rw [kind] at switch
      contradiction
  · rw [if_neg same] at whole
    have apart : k.joins last = false := Bool.eq_false_iff.mpr fun joined => same (joins.mp joined)
    subst whole
    have kind := sketched.kind
    refine ⟨?_,⟨ss,sketched.lowered,?_⟩,sketched.succs,sketched.nodes,
      fun _ => ⟨t,f,o,sketched.onTrue,there,sketched.onFalse,falls,there'⟩,fun switch => ?_,fun switch => ?_⟩
    · rw [kind,sort,apart]
      rfl
    · rw [sketched.acts,apart]
      rfl
    all_goals
      rw [kind] at switch
      contradiction

theorem straight (apart : k.joins last = false) (stmts : x.stmts = ss) (sort : x.kind = k.nodeKind last)
    (cond : x.kind ≠ .cond) (switch : x.kind ≠ .switch) : g.Mirrors m i k last := by
  have kind := sketched.kind
  refine ⟨kind.trans sort,⟨ss,sketched.lowered,?_⟩,sketched.succs,sketched.nodes,
    fun other => absurd (kind ▸ other) cond,fun other => absurd (kind ▸ other) switch,
    fun other => absurd (kind ▸ other) switch⟩
  rw [sketched.acts,apart,stmts]
  rfl

theorem mirrorsSwitch (family : last.family = .packedSwitch ∨ last.family = .sparseSwitch)
    (apart : k.joins last = false) : g.Mirrors m i k last := by
  have drew : Node.fallTo (find (k.fall.getD (-1))) { start := k.start, stmts := ss, kind := .switch
                                                      succs := Graph.insertAll (targetsAt find (keysOf last)) []
                                                      cases := (casesAt find (keysOf last) []).map sortKeys } = x := by
    rw [← sketched.drew,Flow.drawn]
    rcases family with family | family <;> rw [family]
  have fallen : ∀ t (y : Node), y.default = none → (y.fallTo t).stmts = y.stmts ∧
      (y.fallTo t).kind = y.kind ∧ (y.fallTo t).cases = y.cases ∧ (y.fallTo t).default = t := by
    intro t y none
    cases t <;> exact ⟨rfl,rfl,rfl,by first | rfl | exact none⟩
  obtain ⟨stmts,sort,keyed,fallback⟩ := fallen (find (k.fall.getD (-1)))
    { start := k.start, stmts := ss, kind := .switch
      succs := Graph.insertAll (targetsAt find (keysOf last)) []
      cases := (casesAt find (keysOf last) []).map sortKeys } rfl
  rw [drew] at stmts sort keyed fallback
  have kind := sketched.kind
  have targets : ((casesAt find (keysOf last) []).map sortKeys).map (·.target) =
      Graph.insertAll (targetsAt find (keysOf last)) [] := by
    rw [List.map_map]
    exact casesAtTargets _ (keysOf last) []
  refine ⟨?_,⟨ss,sketched.lowered,?_⟩,sketched.succs,sketched.nodes,fun other => ?_,
    fun _ => ⟨?_,fun key t => ?_⟩,fun _ t => ?_⟩
  · rw [kind,sort,Block.nodeKind]
    rcases family with family | family <;> rw [family]
  · rw [sketched.acts,apart,stmts]
    rfl
  · rw [kind,sort] at other
    contradiction
  · rw [sketched.cases,keyed,targets]
    exact Graph.insertAllNodup List.nodup_nil
  · rw [sketched.cases,keyed]
    have holds := @casesAtHolds find key t (keysOf last) []
    simp only [sketched.place,List.not_mem_nil,false_and,exists_false,false_or] at holds
    rw [← holds]
    simp [sortKeys]
  · rw [sketched.default,fallback]
    exact sketched.fall t

theorem mirrors : g.Mirrors m i k last := by
  by_cases test : Lower.IsTest last
  · exact sketched.mirrorsTest test
  have apart : k.joins last = false := by
    unfold Block.joins
    split
    · rename_i family
      exact absurd (.inl family) test
    · rename_i family
      exact absurd (.inr family) test
    · rfl
  have reached : ∀ t (y : Node), (y.reach t).stmts = y.stmts ∧ (y.reach t).kind = y.kind := by
    intro t y
    cases t <;> exact ⟨rfl,rfl⟩
  have drew := sketched.drew
  unfold Flow.drawn at drew
  dsimp only at drew
  split at drew
  case h_1 family | h_2 family | h_3 family =>
    subst drew
    exact sketched.straight apart rfl (by simp [Block.nodeKind,family]) (by simp) (by simp)
  case h_4 family =>
    subst drew
    obtain ⟨stmts,sort⟩ := reached (find last.target) { start := k.start, stmts := ss }
    exact sketched.straight apart stmts (by simp [Block.nodeKind,family,sort]) (by simp [sort]) (by simp [sort])
  case h_5 family | h_6 family => exact absurd (by simp [Lower.IsTest,family]) test
  case h_7 family => exact sketched.mirrorsSwitch (.inl family) apart
  case h_8 family => exact sketched.mirrorsSwitch (.inr family) apart
  case h_9 others =>
    subst drew
    obtain ⟨stmts,sort⟩ := reached (nextAt find k) { start := k.start, stmts := ss }
    refine sketched.straight apart stmts ?_ (by simp [sort]) (by simp [sort])
    rw [sort]
    unfold Block.nodeKind
    split <;> first | contradiction | rfl

end Sketched

theorem Drawn.sketched (valid : m.verify = .ok ()) (fits : m.Fits) (clear : m.Clear)
    (drawn : Drawn m (Block.split m) met met.length b) (finished : b.graph.Finished g)
    (listed : ∀ i < g.store.size, i ∈ g.nodes) (member : k ∈ Block.split m) (ends : k.last? = some last)
    (here : g.At i k.start) (first : 0 < met.length) :
    ∃ ss x, Sketched g m (fun o => b.known.lookup o) i k last ss x := by
  have known := drawn.standing.known
  have placed : ∀ {j o}, g.At j o ↔ Place met j o := finished.placed known first
  have blockAt : ∀ {j o}, g.At j o → ∃ c ∈ Block.split m, c.start = o := fun there => by
    obtain ⟨c,found,same⟩ := placed.mp there
    exact ⟨c,known.inside c (List.mem_of_getElem? found),same⟩
  -- The block that the node stands for is this one, for no other starts where it does.
  obtain ⟨k',found,same⟩ := placed.mp here
  obtain rfl : k' = k := List.inj_on_of_nodup_map (Block.splitApart m)
    (known.inside k' (List.mem_of_getElem? found)) member same
  have inside : i < b.graph.store.size := known.size ▸ (List.getElem?_eq_some_iff.mp found).1
  obtain ⟨last',ss,region,entries,renders⟩ :=
    drawn.built i k' (List.getElem?_eq_some_iff.mp found).1 found
  obtain rfl : last' = last := Option.some.inj (renders.ends.symm.trans ends)
  obtain ⟨own,acts,-⟩ := finished.nodes i inside
  have tells := renders.node _ drawn.standing.sites
  rw [tells] at own
  have stmts : (b.graph.node i).stmts =
      (Flow.drawn (fun o => b.known.lookup o) k' last' { start := k'.start, stmts := ss }).stmts := by
    show (b.graph.node i).own.stmts = _
    rw [tells]
  have place : ∀ o j, b.known.lookup o = some j ↔ g.At j o := fun o j => (known.known o j).trans placed.symm
  refine ⟨ss,Flow.drawn (fun o => b.known.lookup o) k' last' { start := k'.start, stmts := ss },
    { place
      positive := fun there => ?_
      nodes := fun o out => ?_
      succs := fun j => ?_
      targets := (Block.splitEnds member ends).1
      lowered := finished.vars ▸ renders.lowered
      ways := fun test => renders.test test _ drawn.standing.sites
      drew := rfl
      kind := show (g.node i).own.kind = _ by rw [own]
      onTrue := show (g.node i).own.onTrue = _ by rw [own]
      onFalse := show (g.node i).own.onFalse = _ by rw [own]
      cases := show (g.node i).own.cases = _ by rw [own]
      default := show (g.node i).own.default = _ by rw [own]
      acts := acts.trans (congrArg _ stmts) }⟩
  · obtain ⟨c,among,rfl⟩ := blockAt there
    exact (Block.startInside valid fits (Block.splitCut (Method.ascends valid fits) among).start).1
  · have start := Block.leadsStart valid fits clear member out
    obtain ⟨j,there⟩ := drawn.placed renders inside
      ((lookupsLead valid fits member ends start).mpr out) start
    have there := placed.mpr there
    exact ⟨j,listed j there.1,there⟩
  · show j ∈ (g.node i).own.succs ↔ _
    rw [own]
    refine drawnSuccs.trans ?_
    simp only [List.not_mem_nil,false_or,place]
    refine exists_congr fun o => and_congr_left fun there => ?_
    exact lookupsLead valid fits member ends (blockAt there)

theorem Drawn.mirrors (valid : m.verify = .ok ()) (fits : m.Fits) (clear : m.Clear)
    (drawn : Drawn m (Block.split m) met met.length b) (finished : b.graph.Finished g)
    (listed : ∀ i < g.store.size, i ∈ g.nodes) (member : k ∈ Block.split m) (ends : k.last? = some last)
    (here : g.At i k.start) (first : 0 < met.length) : g.Mirrors m i k last := by
  obtain ⟨ss,x,sketched⟩ := drawn.sketched valid fits clear finished listed member ends here first
  exact sketched.mirrors

theorem handlersPlaced {cs : List CatchEntry} {hs : List Handler}
    (lists : List.Forall₂ (fun c h => c.type = h.type ∧ Place met c.entry h.target) cs hs) :
    (∀ c ∈ cs, ∃ h ∈ hs, Place met c.entry h.target) ∧ ∀ h ∈ hs, ∃ c ∈ cs, Place met c.entry h.target := by
  induction lists with
  | nil => simp
  | cons both lists ih =>
    refine ⟨List.forall_mem_cons.mpr ⟨⟨_,List.mem_cons_self ..,both.2⟩,fun c member => ?_⟩,
      List.forall_mem_cons.mpr ⟨⟨_,List.mem_cons_self ..,both.2⟩,fun h member => ?_⟩⟩
    · obtain ⟨h,listed,place⟩ := ih.1 c member
      exact ⟨h,List.mem_cons_of_mem _ listed,place⟩
    · obtain ⟨c,listed,place⟩ := ih.2 h member
      exact ⟨c,List.mem_cons_of_mem _ listed,place⟩

theorem Drawn.raises (drawn : Drawn m (Block.split m) met met.length b) (finished : b.graph.Finished g)
    (first : 0 < met.length) (o : Int) : ∃ hs, m.Reads o hs ∧ ∀ i, g.At i o →
      (∀ j, j ∈ (g.node i).catchSuccs ↔ ∃ l, hs = some l ∧ ∃ h ∈ l, g.At j h.target) ∧
        ∀ l, hs = some l → ∀ h ∈ l, ∃ j, g.At j h.target := by
  have known := drawn.standing.known
  have placed : ∀ {j o}, g.At j o ↔ Place met j o := finished.placed known first
  have once : ∀ {i j o}, Place met i o → Place met j o → i = j := fun {i j o} left right =>
    Option.some.inj (((known.known o i).mpr left).symm.trans ((known.known o j).mpr right))
  by_cases stands : ∃ i, g.At i o
  · obtain ⟨i,here⟩ := stands
    obtain ⟨k,found,rfl⟩ := placed.mp here
    have within := (List.getElem?_eq_some_iff.mp found).1
    obtain ⟨last,ss,region,entries,renders⟩ := drawn.built i k within found
    have own := (finished.nodes i (known.size ▸ within)).1
    rw [renders.node _ drawn.standing.sites] at own
    have catchSuccs : (g.node i).catchSuccs = entries :=
      show (g.node i).own.catchSuccs = entries by rw [own]
    have sheltered := renders.sheltered
    unfold Sheltered at sheltered
    unfold Method.Reads Method.handlersAt
    split at sheltered
    · rename_i none
      rw [none]
      refine ⟨Option.none,rfl,fun i' there => ⟨fun j => ?_,nofun⟩⟩
      rw [once (placed.mp there) (placed.mp here),catchSuccs,sheltered.2]
      simp
    · rename_i t covers
      obtain ⟨r,q,-,-,same,u,member,key,lists⟩ := sheltered
      obtain ⟨forth,back⟩ := handlersPlaced lists
      rw [covers]
      refine ⟨some u.handlers,⟨u,member,key,rfl⟩,fun i' there => ⟨fun j => ?_,fun l same h listed => ?_⟩⟩
      swap
      · cases Option.some.inj same
        obtain ⟨c,-,place⟩ := back h listed
        exact ⟨c.entry,placed.mpr place⟩
      rw [once (placed.mp there) (placed.mp here),catchSuccs,same]
      simp only [Graph.insertAllMem,List.not_mem_nil,false_or,List.mem_map,Option.some.injEq,
        exists_eq_left',placed]
      constructor
      · rintro ⟨c,listed,rfl⟩
        exact forth c listed
      · rintro ⟨h,listed,place⟩
        obtain ⟨c,among,place'⟩ := back h listed
        exact ⟨c,among,once place' place⟩
  · exact ⟨m.handlersAt o,m.readsAt o,fun i here => absurd ⟨i,here⟩ stands⟩

end Flow

namespace Graph

open RegCode.Flow

variable {m : Method} {g : Graph} {i : NodeId} {b : Block}

/-- The graph of verified code has one node for each block that control can reach, next to at most one
empty node in front, and each node says what its block is. A range is read as one that is written the
same way; where lists of handlers are told apart, as itself. -/
theorem mirrorsCode (valid : m.verify = .ok ()) (fits : m.Fits) (clear : m.Clear)
    (made : ofMethod m = .ok g) : ∃ handlers : Int → Option (List Handler),
      (∀ o, m.Reads o (handlers o)) ∧ (m.ToldApart → ∀ o, handlers o = m.handlersAt o) ∧
      (∀ i ∈ g.nodes, g.Front i ∧ (g.node i).stmts = [] ∧ (g.node i).succs = [0] ∧
        (g.node i).catchSuccs = [] ∨ ∃ b ∈ Block.split m, g.At i b.start) ∧
      (∀ b ∈ Block.split m, Block.Reached m handlers b ↔ ∃ i ∈ g.nodes, g.At i b.start) ∧
      (∀ i j o, g.At i o → g.At j o → i = j) ∧
      (∀ b ∈ Block.split m, ∀ i, g.At i b.start →
        (∃ last, b.last? = some last ∧ g.Mirrors m i b last) ∧
        ∀ j, j ∈ (g.node i).catchSuccs ↔ ∃ hs, handlers b.start = some hs ∧ ∃ h ∈ hs, g.At j h.target) ∧
      g.LocsDistinct := by
  have listed := (builtOfMethod made).listed
  rcases finishedOfMethod made with ⟨none,same⟩ | ⟨first,rest,more,b,blocks,drawn,-,finished⟩
  · rw [same]
    have nothing : ∀ k, k ∉ ([] : List NodeId) := fun _ => List.not_mem_nil
    refine ⟨m.handlersAt,m.readsAt,fun _ _ => rfl,fun i member => (nothing i member).elim,?_,?_,?_,List.nodup_nil⟩
    · simp [none]
    · exact fun i j o left => absurd left.1 (Nat.not_lt_zero i)
    · simp [none]
  · have known := drawn.standing.known
    have long : 0 < (first :: more).length := Nat.succ_pos _
    have placed : ∀ {j o}, g.At j o ↔ Place (first :: more) j o := finished.placed known long
    have once : ∀ {i j o}, g.At i o → g.At j o → i = j := fun {i j o} left right =>
      Option.some.inj (((known.known o i).mpr (placed.mp left)).symm.trans
        ((known.known o j).mpr (placed.mp right)))
    have blockAt : ∀ {j o}, g.At j o → ∃ c ∈ Block.split m, c.start = o := fun there => by
      obtain ⟨c,found,same⟩ := placed.mp there
      exact ⟨c,known.inside c (List.mem_of_getElem? found),same⟩
    have apart : ∀ b ∈ Block.split m, ∀ c ∈ Block.split m, b.start = c.start → b = c :=
      fun b left c right same => List.inj_on_of_nodup_map (Block.splitApart m) left right same
    have zero : g.At 0 first.start := placed.mpr ⟨first,rfl,rfl⟩
    choose handlers reads raises using drawn.raises finished long
    have front : ∀ i, g.Front i → (g.node i).stmts = [] ∧ (g.node i).succs = [0] ∧
        (g.node i).catchSuccs = [] := by
      intro i ⟨entry,other⟩
      rcases finished.front with ⟨here,-⟩ | ⟨here,-,own,-⟩
      · exact absurd (Option.some.inj (entry.symm.trans here)) other
      · obtain rfl := Option.some.inj (entry.symm.trans here)
        exact ⟨congrArg Node.stmts own,congrArg Node.succs own,congrArg Node.catchSuccs own⟩
    have mirrors : ∀ k ∈ Block.split m, ∀ i, g.At i k.start →
        ∃ last, k.last? = some last ∧ g.Mirrors m i k last := fun k member i here => by
      obtain ⟨last,ends,-⟩ := Block.lastOf valid fits member
      exact ⟨last,ends,drawn.mirrors valid fits clear finished listed member ends here long⟩
    refine ⟨handlers,reads,fun told o => told.reads (reads o),fun i member => ?_,fun k member => ⟨fun way => ?_,?_⟩,
      fun i j o left right => once left right,fun k member i here => ⟨mirrors k member i here,(raises _ i here).1⟩,
      finished.distinct⟩
    · by_cases ahead : g.Front i
      · exact .inl ⟨ahead,front i ahead⟩
      · have here : g.At i (g.node i).start := ⟨finished.coherent.inStore i member,ahead,rfl⟩
        obtain ⟨k,among,same⟩ := blockAt here
        exact .inr ⟨k,among,same ▸ here⟩
    · suffices stands : ∃ i, g.At i k.start from stands.imp fun i here => ⟨listed i here.1,here⟩
      induction way with
      | first member start =>
        rw [start,← Block.firstStart valid fits blocks]
        exact ⟨0,zero⟩
      | leads way member out ih =>
        obtain ⟨i,here⟩ := ih way.inside
        obtain ⟨last,-,mirrored⟩ := mirrors _ way.inside i here
        obtain ⟨j,-,there⟩ := mirrored.leads _ out
        exact ⟨j,there⟩
      | raises way member covers among target ih =>
        obtain ⟨i,here⟩ := ih way.inside
        obtain ⟨j,there⟩ := (raises _ i here).2 _ covers _ among
        exact ⟨j,target ▸ there⟩
    · rintro ⟨i,member',here⟩
      -- A way to the node goes along blocks that are reached.
      suffices along : g.Front i ∨ ∃ c, g.At i c.start ∧ Block.Reached m handlers c by
        rcases along with ahead | ⟨c,there,reached⟩
        · exact absurd ahead here.2.1
        · exact apart c reached.inside k member (there.2.2.symm.trans here.2.2) ▸ reached
      obtain ⟨e,entry,way⟩ := finished.reachable i member'
      have onto : ∀ {j c}, g.At j c.start → Block.Reached m handlers c → g.Front j ∨
          ∃ c, g.At j c.start ∧ Block.Reached m handlers c := fun there reached => .inr ⟨_,there,reached⟩
      have begin_ : Block.Reached m handlers first :=
        .first (blocks ▸ List.mem_cons_self ..) (Block.firstStart valid fits blocks)
      clear here member'
      induction way with
      | stay fits =>
        by_cases other : e = 0
        · exact onto (other ▸ zero) begin_
        · exact .inl ⟨entry,other⟩
      | on way out fits ih =>
        rcases ih with ahead | ⟨c,here,reached⟩
        · obtain ⟨-,succs,catchSuccs⟩ := front _ ahead
          rw [Node.allSuccs,succs,catchSuccs,List.append_nil] at out
          exact onto (List.mem_singleton.mp out ▸ zero) begin_
        · rcases List.mem_append.mp out with out | out
          · obtain ⟨last,-,mirrored⟩ := mirrors c reached.inside _ here
            obtain ⟨o,leads,there⟩ := (mirrored.succs _).mp out
            obtain ⟨d,among,rfl⟩ := blockAt there
            exact onto there (.leads reached among leads)
          · obtain ⟨hs,covers,h,listed,there⟩ := ((raises _ _ here).1 _).mp out
            obtain ⟨d,among,same⟩ := blockAt there
            exact onto (same ▸ there) (.raises reached among covers listed same.symm)

end Graph

def Method.confused : Method where
  owner := "LTest;"
  name := "f"
  descriptor := "()V"
  access := ⟨9⟩
  registers := 1
  index := 0
  line := 0
  code := [
    { family := .invoke, width := 3, invoke := .static, type := "V", mnemonic := "invoke-static",
      method := some ⟨"LTest;","g",[],"V"⟩ },
    { family := .invoke, width := 3, invoke := .static, type := "V", mnemonic := "invoke-static",
      offset := 3, method := some ⟨"LTest;","g",[],"V"⟩ },
    { family := .returnVoid, mnemonic := "return-void", offset := 6 },
    { family := .returnVoid, mnemonic := "return-void", offset := 7 },
    { family := .returnVoid, mnemonic := "return-void", offset := 8 }]
  tries := [⟨0,3,[⟨"LX;@7,LY;",8⟩]⟩,⟨3,6,[⟨"LX;",7⟩,⟨"LY;",8⟩]⟩]
  overlaps := []

namespace Graph

set_option maxRecDepth 100000 in
theorem confusedUnread : ((Block.split .confused).map (fun b => (b.start,b.leads)) ==
      [(0,[3]),(3,[6]),(6,[]),(7,[]),(8,[])] &&
    match ofMethod .confused with
    | .ok g => g.nodes.all fun i => (g.node i).start != 7
    | .error _ => false) = true := by
  simp -zeta only [ofMethod,Block.split,Block.starts,TryTable.ascending,renumber,reversePostorder,
    Flow.exploreNested,sortByHalves]
  decide +kernel

/-- A handler of the second range of `confused` has a block that control reaches, but no node: the range
is read as the first one. -/
theorem mirrorsCodeConfused : ∃ g handlers, ofMethod .confused = .ok g ∧
    (∀ o, Method.confused.Reads o (handlers o)) ∧ ∃ b ∈ Block.split .confused, b.start = 7 ∧
      Block.Reached .confused Method.confused.handlersAt b ∧ ¬Block.Reached .confused handlers b ∧
      ¬∃ i ∈ g.nodes, g.At i b.start := by
  have valid : Method.confused.verify = .ok () := by rfl
  have fits : Method.confused.Fits := by unfold Method.Fits; decide
  have clear : Method.confused.Clear := by unfold Method.Clear; decide
  obtain ⟨blocks,unread⟩ := Bool.and_eq_true_iff.mp confusedUnread
  have blockAt : ∀ o l, (o,l) ∈ [((0 : Int),[(3 : Int)]),(3,[6]),(6,[]),(7,[]),(8,[])] →
      ∃ b ∈ Block.split .confused, b.start = o ∧ b.leads = l := by
    intro o l listed
    rw [← beq_iff_eq.mp blocks] at listed
    obtain ⟨b,member,same⟩ := List.mem_map.mp listed
    exact ⟨b,member,(Prod.mk.inj same).1,(Prod.mk.inj same).2⟩
  cases made : ofMethod .confused with
  | error fault =>
    rw [made] at unread
    contradiction
  | ok g =>
    rw [made] at unread
    obtain ⟨handlers,reads,-,-,reached,-⟩ := mirrorsCode valid fits clear made
    obtain ⟨first,member,start,leads⟩ := blockAt 0 [3] (by simp)
    obtain ⟨second,member',start',-⟩ := blockAt 3 [6] (by simp)
    obtain ⟨third,member'',start'',-⟩ := blockAt 7 [] (by simp)
    have absent : ¬∃ i ∈ g.nodes, g.At i third.start := by
      rintro ⟨i,listed,-,-,here⟩
      simpa [here,start''] using List.all_eq_true.mp unread i listed
    have way : Block.Reached .confused Method.confused.handlersAt second :=
      .leads (.first member start) member' (by simp [leads,start'])
    have covers : Method.confused.handlersAt second.start = some [⟨"LX;",7⟩,⟨"LY;",8⟩] := by
      rw [start']
      decide
    refine ⟨g,handlers,rfl,reads,third,member'',start'',.raises way member'' covers (List.mem_cons_self ..)
      start''.symm,fun way => absent ((reached third member'').mp way),absent⟩

end Graph
end RegCode
