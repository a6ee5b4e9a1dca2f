import RegCode.Proofs.Flow.Edits

/-! Graphs whose fields agree: edges stand at both of their ends, the edges of a node fit its kind,
and exceptional edges lead to handlers. Every change that simplifying makes keeps them so. -/
namespace RegCode

structure Node.Formed (n : Node) : Prop where
  cond : n.kind = .cond → ∃ t f, t ≠ f ∧ n.onTrue = some t ∧ n.onFalse = some f ∧
    ∀ j, j ∈ n.succs ↔ j = t ∨ j = f
  switch : n.kind = .switch → (n.cases.map (·.target)).Nodup ∧
    ∀ j, j ∈ n.succs ↔ j ∈ n.cases.map (·.target) ∨ n.default = some j
  exits : n.kind.isExit = true → n.succs = []
  stmt : n.kind = .stmt → n.succs.length ≤ 1

namespace Node

variable {n : Node} {i j k : NodeId}

theorem retargetMem (n : Node) (i j k : NodeId) :
    k ∈ (n.retarget i j).succs ↔ (k ∈ n.succs ∧ k ≠ i) ∨ (k = j ∧ i ∈ n.succs) := by
  simp only [retarget,List.mem_eraseDups,List.mem_map]
  constructor
  · rintro ⟨t,member,rfl⟩
    split
    · rename_i same
      exact .inr ⟨rfl,same ▸ member⟩
    · rename_i other
      exact .inl ⟨member,other⟩
  · rintro (⟨member,other⟩ | ⟨rfl,member⟩)
    · exact ⟨k,member,if_neg other⟩
    · exact ⟨i,member,if_pos rfl⟩

theorem retargetCatchMem (n : Node) (i j k : NodeId) :
    k ∈ (n.retargetCatch i j).catchSuccs ↔
      (k ∈ n.catchSuccs ∧ k ≠ i) ∨ (k = j ∧ i ∈ n.catchSuccs) := by
  simp only [retargetCatch,List.mem_eraseDups,List.mem_map]
  constructor
  · rintro ⟨t,member,rfl⟩
    split
    · rename_i same
      exact .inr ⟨rfl,same ▸ member⟩
    · rename_i other
      exact .inl ⟨member,other⟩
  · rintro (⟨member,other⟩ | ⟨rfl,member⟩)
    · exact ⟨k,member,if_neg other⟩
    · exact ⟨i,member,if_pos rfl⟩

theorem Formed.retarget (formed : n.Formed) (apart : n.kind = .cond ∨ n.kind = .switch → j ∉ n.succs) :
    (n.retarget i j).Formed where
  cond kind := by
    obtain ⟨t,f,differ,onTrue,onFalse,succs⟩ := formed.cond kind
    have other := apart (.inl kind)
    have notTrue : t ≠ j := fun same => other ((succs j).mpr (.inl same.symm))
    have notFalse : f ≠ j := fun same => other ((succs j).mpr (.inr same.symm))
    refine ⟨if t = i then j else t,if f = i then j else f,?_,?_,?_,fun k => ?_⟩
    · split <;> split <;> grind
    · rw [Node.retarget,onTrue,Option.map_some]
    · rw [Node.retarget,onFalse,Option.map_some]
    · rw [retargetMem,succs,succs]
      grind
  switch kind := by
    obtain ⟨once,succs⟩ := formed.switch kind
    have other := apart (.inr kind)
    have targets : (n.retarget i j).cases.map (·.target) =
        (n.cases.map (·.target)).map fun t => if t = i then j else t := by
      rw [Node.retarget,List.map_map,List.map_map]
      rfl
    refine ⟨?_,fun k => ?_⟩
    · rw [targets]
      refine once.map_on fun t member u member' same => ?_
      have notLeft : t ≠ j := fun same => other ((succs j).mpr (.inl (same ▸ member)))
      have notRight : u ≠ j := fun same => other ((succs j).mpr (.inl (same ▸ member')))
      grind
    · rw [targets,retargetMem,succs,succs,List.mem_map,Node.retarget,Option.map_eq_some_iff]
      grind
  exits kind := by
    rw [Node.retarget,formed.exits kind]
    rfl
  stmt kind := by
    have short := formed.stmt kind
    match same : n.succs with
    | [] =>
      rw [Node.retarget,same]
      exact Nat.zero_le 1
    | [t] =>
      rw [Node.retarget,same]
      exact Nat.le_refl 1
    | t :: u :: ts =>
      rw [same] at short
      exact absurd short (by simp)

theorem Formed.congr {m : Node} (formed : n.Formed) (kind : m.kind = n.kind) (succs : m.succs = n.succs)
    (onTrue : m.onTrue = n.onTrue) (onFalse : m.onFalse = n.onFalse) (cases : m.cases = n.cases)
    (default : m.default = n.default) : m.Formed :=
  ⟨by rw [kind,onTrue,onFalse,succs]; exact formed.cond,
    by rw [kind,cases,default,succs]; exact formed.switch,by rw [kind,succs]; exact formed.exits,
    by rw [kind,succs]; exact formed.stmt⟩

end Node

namespace Graph

/-- Nodes lie in the store, and each edge between them stands at both of its ends. -/
structure Netted (g : Graph) : Prop where
  inStore : ∀ i ∈ g.nodes, i < g.store.size
  once : g.nodes.Nodup
  normal : g.Paired (·.succs) (·.preds)
  raised : g.Paired (·.catchSuccs) (·.catchPreds)

structure Coherent (g : Graph) : Prop extends Netted g where
  entry : ∀ e, g.entry = some e → e ∈ g.nodes
  empty : g.entry = none → g.nodes = []
  formed : ∀ i ∈ g.nodes, (g.node i).Formed
  marked : ∀ i ∈ g.nodes, ∀ h ∈ (g.node i).catchSuccs, (g.node h).handler = true

variable {g h : Graph} {i j k : NodeId}

theorem Netted.plain (netted : g.Netted) (member : i ∈ g.nodes) : g.Plain (g.node i) where
  succs := ⟨netted.normal.forthOnce i member,fun t leads =>
    netted.inStore t (netted.normal.forth i member t leads).1⟩
  preds := ⟨netted.normal.backOnce i member,fun t comes =>
    netted.inStore t (netted.normal.back i member t comes).1⟩
  catchSuccs := ⟨netted.raised.forthOnce i member,fun t leads =>
    netted.inStore t (netted.raised.forth i member t leads).1⟩
  catchPreds := ⟨netted.raised.backOnce i member,fun t comes =>
    netted.inStore t (netted.raised.back i member t comes).1⟩

theorem Coherent.unraised (coherent : g.Coherent) (member : i ∈ g.nodes)
    (plain : (g.node i).handler = false) : (g.node i).catchPreds = [] := by
  refine List.eq_nil_iff_forall_not_mem.mpr fun a comes => ?_
  obtain ⟨left,leads⟩ := coherent.raised.back i member a comes
  rw [coherent.marked a left i leads] at plain
  contradiction

structure Merges (g : Graph) (i j : NodeId) : Prop where
  kind : (g.node i).kind = .stmt
  succs : (g.node i).succs = [j]
  other : j ≠ i
  entry : g.entry ≠ some j
  handler : (g.node j).handler = false
  preds : (g.node j).preds.length = 1
  catchPreds : (g.node j).catchPreds = []
  cond : (g.node j).kind ≠ .cond
  switch : (g.node j).kind ≠ .switch
  region : (g.node i).region = (g.node j).region
  loops : j ∉ (g.node j).succs

theorem mergesOf (found : g.mergeable? i = some j) : g.Merges i j := by
  unfold mergeable? at found
  dsimp only at found
  split at found
  · rename_i j' kind succs
    split at found
    · contradiction
    · rename_i fits
      cases Option.some.inj found
      simp only [Bool.or_eq_true,not_or,beq_iff_eq,bne_iff_ne,Bool.not_eq_true',decide_eq_true_eq,
        List.contains_iff_mem,not_not,Bool.not_eq_true] at fits
      obtain ⟨⟨⟨⟨⟨⟨⟨⟨other,entry⟩,handler⟩,preds⟩,catchPreds⟩,cond⟩,switch⟩,region⟩,loops⟩ := fits
      exact ⟨kind,succs,other,entry,handler,preds,by simpa using catchPreds,cond,switch,region,loops⟩
  · contradiction

structure Bypasses (g : Graph) (i j : NodeId) : Prop where
  kind : (g.node i).kind = .stmt
  stmts : (g.node i).stmts = []
  succs : (g.node i).succs = [j]
  handler : (g.node i).handler = false
  other : j ≠ i
  entry : g.entry = some i → (g.node j).preds.length ≤ 1
  cond : ∀ p ∈ (g.node i).preds, (g.node p).kind = .cond →
    (g.node p).onTrue ≠ some j ∧ (g.node p).onFalse ≠ some j
  switch : ∀ p ∈ (g.node i).preds, (g.node p).kind = .switch → j ∉ (g.node p).succs

theorem bypassesOf (found : g.removable? i = some j) : g.Bypasses i j := by
  unfold removable? at found
  dsimp only at found
  split at found
  · rename_i j' kind stmts succs
    split at found
    · contradiction
    · rename_i fits
      cases Option.some.inj found
      simp only [Bool.or_eq_true,not_or,beq_iff_eq,Bool.and_eq_true,decide_eq_true_eq,not_and,
        List.any_eq_true,not_exists,Bool.not_eq_true] at fits
      obtain ⟨⟨⟨handler,other⟩,entry⟩,tests⟩ := fits
      refine ⟨kind,stmts,succs,handler,other,fun first => Nat.le_of_not_lt (entry first),
        fun p member kind => ?_,fun p member kind => ?_⟩
      · have := tests p member
        simp only [kind] at this
        simpa using this
      · have := tests p member
        simp only [kind] at this
        simpa using this
  · contradiction

theorem Bypasses.apart (fits : g.Bypasses i j) {p : NodeId} (formed : (g.node p).Formed)
    (comes : p ∈ (g.node i).preds) (kind : (g.node p).kind = .cond ∨ (g.node p).kind = .switch) :
    j ∉ (g.node p).succs := by
  rcases kind with kind | kind
  · obtain ⟨t,f,-,onTrue,onFalse,succs⟩ := formed.cond kind
    obtain ⟨notTrue,notFalse⟩ := fits.cond p comes kind
    rw [succs]
    rintro (rfl | rfl)
    · exact notTrue onTrue
    · exact notFalse onFalse
  · exact fits.switch p comes kind

section
variable (coherent : g.Coherent) (member : i ∈ g.nodes) (fits : g.Merges i j)
include coherent member fits

theorem Merges.inside : j ∈ g.nodes :=
  (coherent.normal.forth i member j (fits.succs ▸ List.mem_singleton_self j)).1

theorem Merges.only : (g.node j).preds = [i] := by
  obtain ⟨p,only⟩ := List.length_eq_one_iff.mp fits.preds
  have comes := (coherent.normal.forth i member j (fits.succs ▸ List.mem_singleton_self j)).2
  rw [only] at comes ⊢
  rw [List.mem_singleton.mp comes]

theorem Merges.node {k : NodeId} (other : k ≠ j) : (g.merge i j).node k =
      { g.node k with
        stmts := if k = i then (g.node i).stmts ++ (g.node j).stmts else (g.node k).stmts
        kind := if k = i then (g.node j).kind else (g.node k).kind
        succs := if k = i then (g.node j).succs else (g.node k).succs
        preds := if k ∈ (g.node j).succs then insertOnce i (without j (g.node k).preds)
          else (g.node k).preds
        catchSuccs := if k = i then insertAll (g.node j).catchSuccs (g.node i).catchSuccs
          else (g.node k).catchSuccs
        catchPreds := if k ∈ (g.node j).catchSuccs then insertOnce i (without j (g.node k).catchPreds)
          else (g.node k).catchPreds } :=
  nodeMerge (coherent.plain (fits.inside coherent member)) (coherent.inStore i member)
    (coherent.inStore j (fits.inside coherent member)) fits.other.symm k other

omit coherent member fits in
theorem nodesMerge {k : NodeId} : k ∈ (g.merge i j).nodes ↔ k ∈ g.nodes ∧ k ≠ j := by
  rw [(g.framedMerge i j).rest]
  exact withoutMem

omit coherent member fits in
theorem entryMerge : (g.merge i j).entry = g.entry := by rw [(g.framedMerge i j).rest]

theorem nettedMerge : (g.merge i j).Netted := by
  have listed := fits.inside coherent member
  have plain := coherent.plain listed
  have only := fits.only coherent member
  have nodes : ∀ k, k ∈ (g.merge i j).nodes ↔ k ∈ g.nodes ∧ k ≠ j := fun k => nodesMerge
  have node := fun {k} => fits.node coherent member (k := k)
  have differ := fits.other
  have normal : ∀ a ∈ g.nodes, ∀ b, b ∈ (g.node a).succs ↔ b ∈ g.nodes ∧ a ∈ (g.node b).preds :=
    fun a left b => ⟨coherent.normal.forth a left b,fun both => (coherent.normal.back b both.1 a both.2).2⟩
  have raised : ∀ a ∈ g.nodes, ∀ b,
      b ∈ (g.node a).catchSuccs ↔ b ∈ g.nodes ∧ a ∈ (g.node b).catchPreds :=
    fun a left b => ⟨coherent.raised.forth a left b,fun both => (coherent.raised.back b both.1 a both.2).2⟩
  have once : (g.merge i j).nodes.Nodup := by
    rw [(g.framedMerge i j).rest]
    exact withoutNodup coherent.once
  refine ⟨fun k here => ?_,once,.ofEdges
    (fun a b => b ∈ if a = i then (g.node j).succs else (g.node a).succs)
    (fun a here b => ?_) (fun b here a => ?_) (fun a here b leads => ?_) (fun a here => ?_)
    (fun b here => ?_),.ofEdges
    (fun a b => b ∈ (g.node a).catchSuccs ∨ a = i ∧ b ∈ (g.node j).catchSuccs)
    (fun a here b => ?_) (fun b here a => ?_) (fun a here b leads => ?_) (fun a here => ?_)
    (fun b here => ?_)⟩
  all_goals obtain ⟨old,other⟩ := (nodes _).mp here
  · exact (g.framedMerge i j).size ▸ coherent.inStore k old
  · rw [node other]
  · rw [node other]
    have back := coherent.normal.back b old a
    have forth := fun left => normal a left b
    have loop := fun left => normal j left b
    rw [nodes]
    dsimp only
    split
    · simp only [insertOnceMem,withoutMem]
      grind
    · have single : i ∈ (g.node b).preds → b = j := fun comes => by
        have := (coherent.normal.back b old i comes).2
        rw [fits.succs] at this
        exact List.mem_singleton.mp this
      grind
  · rw [nodes]
    split at leads
    · exact ⟨(coherent.normal.forth j listed b leads).1,fun same => fits.loops (same ▸ leads)⟩
    · rename_i apart
      obtain ⟨there,comes⟩ := coherent.normal.forth a old b leads
      refine ⟨there,?_⟩
      rintro rfl
      rw [only] at comes
      exact apart (List.mem_singleton.mp comes)
  · rw [node other]
    dsimp only
    split
    · exact plain.succs.1
    · exact coherent.normal.forthOnce a old
  · rw [node other]
    dsimp only
    split
    · exact insertOnceNodup (withoutNodup (coherent.normal.backOnce b old))
    · exact coherent.normal.backOnce b old
  · rw [node other]
    dsimp only
    split
    · rename_i same
      simp [same,insertAllMem]
    · rename_i apart
      simp [apart]
  · rw [node other]
    have back := coherent.raised.back b old a
    have forth := fun left => raised a left b
    have loop := fun left => raised j left b
    rw [nodes]
    dsimp only
    split
    · simp only [insertOnceMem,withoutMem]
      grind
    · grind
  · rw [nodes]
    have there : b ∈ g.nodes ∧ ∃ a, a ∈ (g.node b).catchPreds := by
      rcases leads with leads | ⟨rfl,leads⟩
      · exact (coherent.raised.forth a old b leads).imp id fun comes => ⟨a,comes⟩
      · exact (coherent.raised.forth j listed b leads).imp id fun comes => ⟨j,comes⟩
    refine ⟨there.1,?_⟩
    rintro rfl
    obtain ⟨_,a,comes⟩ := there
    rw [fits.catchPreds] at comes
    contradiction
  · rw [node other]
    dsimp only
    split
    · exact insertAllNodup (coherent.plain member).catchSuccs.1
    · exact coherent.raised.forthOnce a old
  · rw [node other]
    dsimp only
    split
    · exact insertOnceNodup (withoutNodup (coherent.raised.backOnce b old))
    · exact coherent.raised.backOnce b old

theorem coherentMerge : (g.merge i j).Coherent := by
  have listed := fits.inside coherent member
  have nodes : ∀ k, k ∈ (g.merge i j).nodes ↔ k ∈ g.nodes ∧ k ≠ j := fun k => nodesMerge
  have node := fun {k} => fits.node coherent member (k := k)
  have netted := nettedMerge coherent member fits
  refine { netted with
    entry := fun e here => (nodes e).mpr ⟨coherent.entry e (entryMerge.symm.trans here),?_⟩
    empty := fun none => ?_
    formed := fun k here => ?_
    marked := fun k here h leads => ?_ }
  · rintro rfl
    exact fits.entry (entryMerge.symm.trans here)
  · have gone := coherent.empty (entryMerge.symm.trans none)
    rw [gone] at member
    contradiction
  · obtain ⟨old,other⟩ := (nodes k).mp here
    by_cases same : k = i
    · have own := coherent.formed j listed
      have kind : ((g.merge i j).node k).kind = (g.node j).kind := by rw [node other,same]; simp
      have succs : ((g.merge i j).node k).succs = (g.node j).succs := by rw [node other,same]; simp
      refine ⟨fun cond => absurd (kind ▸ cond) fits.cond,fun switch => absurd (kind ▸ switch) fits.switch,
        ?_,?_⟩
      · rw [kind,succs]
        exact own.exits
      · rw [kind,succs]
        exact own.stmt
    · refine (coherent.formed k old).congr ?_ ?_ ?_ ?_ ?_ ?_ <;> rw [node other] <;> simp [same]
  · obtain ⟨old,other⟩ := (nodes k).mp here
    have apart := ((nodes h).mp (netted.raised.forth k here h leads).1).2
    rw [node apart]
    rw [node other] at leads
    dsimp only at leads ⊢
    split at leads
    · rcases insertAllMem.mp leads with first | second
      · exact coherent.marked i member h first
      · exact coherent.marked j listed h second
    · exact coherent.marked k old h leads

end

section
variable (coherent : g.Coherent) (member : i ∈ g.nodes) (fits : g.Bypasses i j)
include coherent member fits

theorem Bypasses.inside : j ∈ g.nodes :=
  (coherent.normal.forth i member j (fits.succs ▸ List.mem_singleton_self j)).1

theorem Bypasses.node {k : NodeId} (other : k ≠ i) : (g.bypass i j).node k =
      { (if k ∈ (g.node i).preds then (g.node k).retarget i j else g.node k) with
        preds := if k = j then insertAll (g.node i).preds (without i (g.node j).preds)
          else (g.node k).preds
        catchPreds := if k ∈ (g.node i).catchSuccs then without i (g.node k).catchPreds
          else (g.node k).catchPreds } :=
  nodeBypass (coherent.plain member) (coherent.inStore i member)
    (coherent.inStore j (fits.inside coherent member)) k other

omit coherent member fits in
theorem nodesBypass {k : NodeId} : k ∈ (g.bypass i j).nodes ↔ k ∈ g.nodes ∧ k ≠ i := by
  rw [(g.framedBypass i j).rest]
  exact withoutMem

omit coherent member fits in
theorem entryBypass : (g.bypass i j).entry = g.entry.map fun e => if e = i then j else e := by
  rw [(g.framedBypass i j).rest]

theorem succsBypass {a b : NodeId} (left : a ∈ g.nodes) (other : a ≠ i) :
    b ∈ ((g.bypass i j).node a).succs ↔
      (b ∈ (g.node a).succs ∧ b ≠ i) ∨ (b = j ∧ i ∈ (g.node a).succs) := by
  rw [fits.node coherent member other]
  dsimp only
  split
  · exact Node.retargetMem _ i j b
  · rename_i apart
    have unrelated : i ∉ (g.node a).succs := fun leads => apart (coherent.normal.forth a left i leads).2
    grind

theorem catchSuccsBypass {a : NodeId} (other : a ≠ i) :
    ((g.bypass i j).node a).catchSuccs = (g.node a).catchSuccs := by
  rw [fits.node coherent member other]
  dsimp only
  split <;> rfl

theorem nettedBypass : (g.bypass i j).Netted := by
  have listed := fits.inside coherent member
  have plain := coherent.plain member
  have differ := fits.other
  have succs := fits.succs
  have unraised := coherent.unraised member fits.handler
  have nodes : ∀ k, k ∈ (g.bypass i j).nodes ↔ k ∈ g.nodes ∧ k ≠ i := fun k => nodesBypass
  have node := fun {k} => fits.node coherent member (k := k)
  have once : (g.bypass i j).nodes.Nodup := by
    rw [(g.framedBypass i j).rest]
    exact withoutNodup coherent.once
  refine ⟨fun k here => ?_,once,.ofEdges
    (fun a b => (b ∈ (g.node a).succs ∧ b ≠ i) ∨ (b = j ∧ i ∈ (g.node a).succs))
    (fun a here b => ?_) (fun b here a => ?_) (fun a here b leads => ?_) (fun a here => ?_)
    (fun b here => ?_),.ofEdges (fun a b => b ∈ (g.node a).catchSuccs)
    (fun a here b => ?_) (fun b here a => ?_) (fun a here b leads => ?_) (fun a here => ?_)
    (fun b here => ?_)⟩
  all_goals obtain ⟨old,other⟩ := (nodes _).mp here
  · exact (g.framedBypass i j).size ▸ coherent.inStore k old
  · exact succsBypass coherent member fits old other
  · rw [node other,nodes]
    have back := coherent.normal.back b old a
    have forth := fun left => coherent.normal.forth a left b
    have through := coherent.normal.back i member a
    have into := fun left => coherent.normal.forth a left i
    dsimp only
    split
    · simp only [insertAllMem,withoutMem]
      grind
    · grind
  · rw [nodes]
    rcases leads with ⟨leads,apart⟩ | ⟨rfl,-⟩
    · exact ⟨(coherent.normal.forth a old b leads).1,apart⟩
    · exact ⟨listed,differ⟩
  · rw [node other]
    dsimp only
    split
    · exact eraseDupsNodup _
    · exact coherent.normal.forthOnce a old
  · rw [node other]
    dsimp only
    split
    · exact insertAllNodup (withoutNodup (coherent.normal.backOnce j listed))
    · exact coherent.normal.backOnce b old
  · rw [catchSuccsBypass coherent member fits other]
  · rw [node other,nodes]
    have back := coherent.raised.back b old a
    have forth := fun left => coherent.raised.forth a left b
    have own := coherent.raised.back b old i
    dsimp only
    split
    · rw [withoutMem]
      grind
    · grind
  · rw [nodes]
    obtain ⟨there,comes⟩ := coherent.raised.forth a old b leads
    refine ⟨there,?_⟩
    rintro rfl
    rw [unraised] at comes
    contradiction
  · rw [catchSuccsBypass coherent member fits other]
    exact coherent.raised.forthOnce a old
  · rw [node other]
    dsimp only
    split
    · exact withoutNodup (coherent.raised.backOnce b old)
    · exact coherent.raised.backOnce b old

theorem coherentBypass : (g.bypass i j).Coherent := by
  have listed := fits.inside coherent member
  have netted := nettedBypass coherent member fits
  have node := fun {k} => fits.node coherent member (k := k)
  refine { netted with
    entry := fun e here => ?_
    empty := fun none => ?_
    formed := fun k here => ?_
    marked := fun k here h leads => ?_ }
  · rw [entryBypass] at here
    obtain ⟨e',first,rfl⟩ := Option.map_eq_some_iff.mp here
    split
    · exact nodesBypass.mpr ⟨listed,fits.other⟩
    · rename_i other
      exact nodesBypass.mpr ⟨coherent.entry e' first,other⟩
  · rw [entryBypass,Option.map_eq_none_iff] at none
    rw [coherent.empty none] at member
    contradiction
  · obtain ⟨old,other⟩ := nodesBypass.mp here
    have formed := coherent.formed k old
    by_cases comes : k ∈ (g.node i).preds
    · refine (formed.retarget (i := i) (fits.apart formed comes)).congr ?_ ?_ ?_ ?_ ?_ ?_
      all_goals
        rw [node other,if_pos comes]
    · refine formed.congr ?_ ?_ ?_ ?_ ?_ ?_
      all_goals
        rw [node other,if_neg comes]
  · obtain ⟨old,other⟩ := nodesBypass.mp here
    have apart := (nodesBypass.mp (netted.raised.forth k here h leads).1).2
    rw [catchSuccsBypass coherent member fits other] at leads
    have handles := coherent.marked k old h leads
    rw [node apart]
    dsimp only
    split
    · exact handles
    · exact handles

end

end Graph

end RegCode
