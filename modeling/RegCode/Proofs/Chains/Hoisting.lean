import RegCode.Proofs.Chains.Placing
import RegCode.Proofs.Flow.Variables

/-! Where declarations are moved to. Of the nodes that come before all that mentions a variable, its place is
the nearest one that no loop and no region keeps from being seen there. Only if there is none, it is the entry,
which may then lie in a region. -/
namespace RegCode

namespace Graph

variable {g h k : Graph}

structure Trimmed (g h : Graph) : Prop extends g.Restated h where
  nextLoc : h.nextLoc = g.nextLoc
  vars : g.vars.Extends h.vars
  locs : ∀ i, ∀ s ∈ (h.node i).stmts, ∃ t ∈ (g.node i).stmts, t.loc = s.loc

theorem Trimmed.refl (g : Graph) : g.Trimmed g := ⟨.refl g,rfl,.refl _,fun _ s stands => ⟨s,stands,rfl⟩⟩

theorem Trimmed.trans (first : g.Trimmed h) (second : h.Trimmed k) : g.Trimmed k := by
  refine ⟨first.toRestated.trans second.toRestated,second.nextLoc.trans first.nextLoc,
    first.vars.trans second.vars,fun i s stands => ?_⟩
  obtain ⟨t,there,same⟩ := second.locs i s stands
  obtain ⟨u,before,same'⟩ := first.locs i t there
  exact ⟨u,before,same'.trans same⟩

theorem Thins.trimmed (thins : g.Thins h) : g.Trimmed h := by
  refine ⟨thins.restated,by rw [thins.rest],by rw [thins.rest]; exact .refl _,fun i s stands => ?_⟩
  exact List.mem_map.mp ((thins.nodes i).locs.subset (List.mem_map_of_mem stands))

theorem Restated.ranked (restated : g.Restated h) (ranked : g.Ranked) : h.Ranked := by
  have rpo : h.rpo = g.rpo := by rw [restated.rest]
  have entry : h.entry = g.entry := by rw [restated.rest]
  have num : ∀ i, (h.node i).num = (g.node i).num := fun i => by rw [restated.nodes i]
  have out : ∀ i, (h.node i).allSuccs = (g.node i).allSuccs := fun i => by rw [restated.nodes i]; rfl
  refine ⟨fun j n here => ?_,?_,fun n listed other => ?_⟩
  · rw [num]
    exact ranked.nums j n (rpo ▸ here)
  · rw [rpo,entry]
    exact ranked.first
  · obtain ⟨m,inside,edge,less⟩ := ranked.earlier n (rpo ▸ listed) (entry ▸ other)
    exact ⟨m,rpo ▸ inside,by rw [out]; exact edge,by rw [num,num]; exact less⟩

theorem Restated.encloses (restated : g.Restated h) (r : RegionId) (q : Option RegionId) :
    h.encloses r q = g.encloses r q := by
  have regions : h.regions = g.regions := by rw [restated.rest]
  have chain : ∀ (fuel : Nat) q, h.regionChain fuel q = g.regionChain fuel q := by
    intro fuel
    induction fuel with
    | zero => exact fun _ => rfl
    | succ fuel ih =>
      intro q
      cases q with
      | none => rfl
      | some r => rw [regionChain,regionChain,ih,parentOf,parentOf,regions]
  rw [Graph.encloses,Graph.encloses,regionsAround,regionsAround,chain,regions]

def Mentioning (g : Graph) (v : VarId) (n : NodeId) : Prop :=
  ∃ p s, g.StmtAt p s ∧ s.mentions v = true ∧ p.node = n

structure Suits (g : Graph) (site : NodeId → Prop) (n : NodeId) : Prop where
  loops : ∀ l ∈ (LoopForest.ofGraph g (Dominators.ofGraph g)).loops, n ∈ l.body → ∀ m, site m → m ∈ l.body
  region : ∀ r, (g.node n).region = some r → ∀ m, site m → g.encloses r (g.node m).region = true

end Graph

namespace Dominators

variable {g : Graph} {c n : NodeId} {sites : List NodeId}

theorem commonAllClosest (ranked : g.Ranked) (edged : g.Edged) (inside : ∀ m ∈ sites, m ∈ g.rpo)
    (found : (ofGraph g).commonAll sites = some n) (dom : ∀ m ∈ sites, g.Dominates c m) : g.Dominates c n := by
  cases sites with
  | nil => contradiction
  | cons first rest =>
    cases Option.some.inj found
    have fold : ∀ (rest : List NodeId) (b : NodeId), b ∈ g.rpo → (∀ m ∈ rest, m ∈ g.rpo) → g.Dominates c b →
        (∀ m ∈ rest, g.Dominates c m) → g.Dominates c (rest.foldl (ofGraph g).common b) := by
      intro rest
      induction rest with
      | nil => exact fun _ _ _ dom _ => dom
      | cons m rest ih =>
        intro b member inside left right
        obtain ⟨joined,both,-⟩ := commonIff ranked edged member (inside m (List.mem_cons_self ..))
        exact ih _ joined (fun x listed => inside x (List.mem_cons_of_mem m listed))
          ((both c).mpr ⟨left,right m (List.mem_cons_self ..)⟩) fun x listed => right x (List.mem_cons_of_mem m listed)
    exact fold rest first (inside first (List.mem_cons_self ..)) (fun m listed => inside m (List.mem_cons_of_mem _ listed))
      (dom first (List.mem_cons_self ..)) fun m listed => dom m (List.mem_cons_of_mem _ listed)

end Dominators

namespace Analysed

open Chains

variable {a b s : Analysed} {g h : Graph} {c e n : NodeId} {v : VarId} {sites : List NodeId} {l : Loop}

section
variable (ranked : g.Ranked) (edged : g.Edged) (unled : ∀ e, g.entry = some e → (g.node e).preds = [])
include ranked edged unled

theorem entryLoopless (entry : g.entry = some e)
    (listed : l ∈ (LoopForest.ofGraph g (Dominators.ofGraph g)).loops) : e ∉ l.body := by
  intro inside
  have natural := (LoopForest.naturalOfGraph ranked edged).1 l listed
  obtain rfl := (natural.inside e inside).2.entry entry
  obtain ⟨t,latch⟩ := List.exists_mem_of_ne_nil _ natural.latched
  obtain ⟨there,out⟩ := natural.latches t latch
  have into := (edged.succs t (natural.inside t there).1 _ out).2
  rw [unled _ entry] at into
  exact List.not_mem_nil into

theorem hoistSuits (restated : g.Restated h) (fuel : Nat) (inside : n ∈ g.rpo) (enough : (g.node n).num < fuel)
    (closest : ∀ c, (∀ m ∈ sites, g.Dominates c m) → g.Suits (· ∈ sites) c → g.Dominates c n) :
    let k := hoist h (Dominators.ofGraph g) (LoopForest.ofGraph g (Dominators.ofGraph g)) sites fuel n
    (g.Suits (· ∈ sites) k ∨ g.entry = some k) ∧
      ∀ c, (∀ m ∈ sites, g.Dominates c m) → g.Suits (· ∈ sites) c → g.Dominates c k := by
  have exact := LoopForest.exactOfGraph ranked edged
  have region : ∀ i, (h.node i).region = (g.node i).region := fun i => by rw [restated.nodes i]
  obtain ⟨e,entry⟩ := ranked.entryOf inside
  induction fuel generalizing n with
  | zero => exact absurd enough (Int.not_lt.mpr (ranked.nonneg inside))
  | succ fuel ih =>
    -- One step up: nothing that suits and comes before `n` is lost if it also comes before `x`.
    have climb : ∀ {x up}, x ∈ g.rpo → g.Dominates x n → (Dominators.ofGraph g).idom? x = some up →
        (∀ c, g.Suits (· ∈ sites) c → g.Dominates c n → c ≠ x ∧ g.Dominates c x) →
        up ∈ g.rpo ∧ (g.node up).num < fuel ∧
          ∀ c, (∀ m ∈ sites, g.Dominates c m) → g.Suits (· ∈ sites) c → g.Dominates c up := by
      intro x up member higher idom passes
      have immediate := (Dominators.idomIff ranked edged member).mp idom
      obtain ⟨here,less⟩ := immediate.dominates.less ranked member immediate.other
      refine ⟨here,?_,fun c dom suits => ?_⟩
      · have le : (g.node x).num ≤ (g.node n).num := by
          by_cases same : x = n
          · rw [same]
          · exact Int.le_of_lt (higher.less ranked inside same).2
        omega
      · obtain ⟨other,above⟩ := passes c suits (closest c dom suits)
        exact immediate.closest c other above
    unfold hoist
    dsimp only
    split
    · rename_i up _ out
      obtain ⟨l,around,leaves⟩ := Option.bind_eq_some_iff.mp out
      obtain ⟨listed,held,-⟩ := (exact.innermost n l).mp around
      have natural := (LoopForest.naturalOfGraph ranked edged).1 l listed
      split at leaves
      · contradiction
      · rename_i misses
        have head := natural.inside _ natural.header
        obtain ⟨here,less,all⟩ := climb head.1 (natural.inside n held).2 (Option.some.inj leaves) fun c suits dom => by
          -- What suits lies outside of the loop, so that it comes before the header.
          have outside : c ∉ l.body := fun member => misses (List.all_eq_true.mpr fun m site =>
            List.contains_iff_mem.mpr (suits.loops l listed member m site))
          exact ⟨fun same => outside (same ▸ natural.header),
            (natural.dominator ranked edged held dom).resolve_left outside⟩
        exact ih here less all
    · rename_i out
      obtain ⟨l,around,leaves⟩ := Option.bind_eq_some_iff.mp out
      obtain ⟨listed,held,-⟩ := (exact.innermost n l).mp around
      have natural := (LoopForest.naturalOfGraph ranked edged).1 l listed
      split at leaves
      · contradiction
      · have first := (Dominators.idomNone ranked edged (natural.inside _ natural.header).1 entry).mp
          (Option.some.inj leaves)
        exact absurd (first ▸ natural.header) (entryLoopless ranked edged unled entry listed)
    · rename_i up _ out
      obtain ⟨r,inRegion,leaves⟩ := Option.bind_eq_some_iff.mp out
      split at leaves
      · contradiction
      · rename_i misses
        obtain ⟨here,less,all⟩ := climb inside (.refl g n) (Option.some.inj leaves) fun c suits dom => by
          refine ⟨fun same => misses (List.all_eq_true.mpr fun m site => ?_),dom⟩
          rw [restated.encloses,region]
          exact suits.region r (by rw [same,← region]; exact inRegion) m site
        exact ih here less all
    · rename_i out
      obtain ⟨r,-,leaves⟩ := Option.bind_eq_some_iff.mp out
      split at leaves
      · contradiction
      · have first := (Dominators.idomNone ranked edged inside entry).mp (Option.some.inj leaves)
        exact ⟨.inr (first ▸ entry),closest⟩
    · rename_i noLoop noRegion
      refine ⟨.inl ⟨fun l listed held m site => ?_,fun r inRegion m site => ?_⟩,closest⟩
      · cases around : (LoopForest.ofGraph g (Dominators.ofGraph g)).innermost? n with
        | none => exact absurd held ((exact.outside n).mp around l listed)
        | some k =>
          obtain ⟨-,-,least⟩ := (exact.innermost n k).mp around
          rw [around,Option.bind_some] at noLoop
          split at noLoop
          · rename_i all
            have inside : m ∈ k.body := List.contains_iff_mem.mp (List.all_eq_true.mp all m site)
            exact (least l listed held).elim (fun same => same ▸ inside) fun within => within.1 m inside
          · contradiction
      · rw [region,inRegion,Option.bind_some] at noRegion
        split at noRegion
        · rename_i all
          have inside := List.all_eq_true.mp all m site
          rwa [restated.encloses,region] at inside
        · contradiction

end

def Chosen (a b : Analysed) (v : VarId) (n : NodeId) : Prop :=
  ∃ first, (Dominators.ofGraph a.graph).commonAll (b.siteNodes v) = some first ∧
    n = hoist b.graph (Dominators.ofGraph a.graph) (LoopForest.ofGraph a.graph (Dominators.ofGraph a.graph))
      (b.siteNodes v) (b.graph.store.size + 1) first

theorem chosenAll (ready : a.Ready) (vs done : List VarId) {r : Analysed × List (VarId × NodeId)}
    (placing : Placing a done r) (once : (done ++ vs).Nodup)
    (chosen : ∀ v n, (v,n) ∈ r.2 → (a.graph.vars.get v).isParam = false ∧ ∃ b, Opened a b ∧ Chosen a b v n) :
    ∀ v n, (v,n) ∈ (vs.foldl (placeVar (Dominators.ofGraph a.graph)
      (LoopForest.ofGraph a.graph (Dominators.ofGraph a.graph))) r).2 →
      (a.graph.vars.get v).isParam = false ∧ ∃ b, Opened a b ∧ Chosen a b v n := by
  induction vs generalizing done r with
  | nil => exact chosen
  | cons v vs ih =>
    have fresh : v ∉ done := fun old => (List.nodup_append.mp once).2.2 v old v (List.mem_cons_self ..) rfl
    have next := placing.next ready fresh
    rw [List.append_cons] at once
    refine ih (done ++ [v]) next once fun w n listed => ?_
    obtain ⟨b,places⟩ := r
    unfold placeVar at listed
    dsimp only at listed
    split at listed
    · exact chosen w n listed
    · rename_i plain
      split at listed
      · exact chosen w n listed
      · rename_i first found
        rcases List.mem_append.mp listed with old | new
        · exact chosen w n old
        · obtain ⟨rfl,rfl⟩ := Prod.mk.inj (List.mem_singleton.mp new)
          exact ⟨by rw [← placing.opened.params]; exact Bool.eq_false_iff.mpr plain,b,placing.opened,first,found,rfl⟩

theorem trimmedSplit (split : a.splitLifetimes = .ok b) : a.graph.Trimmed b.graph := by
  let Grows (c : Analysed) : Prop := c.graph.nextLoc = a.graph.nextLoc ∧ a.graph.vars.Extends c.graph.vars
  have modify : ∀ {c : Analysed} {l f}, Grows c → Grows (c.modifyStmt l f) := by
    intro c l f before
    unfold modifyStmt
    split <;> exact before
  have rename : ∀ {c : Analysed} (v new : VarId) (web : List Loc), Grows c → Grows (c.renameWeb v new web) :=
    fun v new web before => List.foldlRecOn web _ (motive := Grows) before fun c before d _ =>
      List.foldlRecOn _ _ (motive := Grows) (modify before) fun c before u _ => modify before
  have grown : Grows (a.chains.definedVars.foldl splitVariable a) :=
    List.foldlRecOn _ _ (motive := Grows) ⟨rfl,.refl _⟩ fun c before v _ =>
      List.foldlRecOn _ _ (motive := Grows) before fun c before web _ =>
        rename v _ web ⟨before.1,before.2.trans (c.graph.vars.extendsFresh v)⟩
  have renamed := renamedSplitLifetimes split
  have grows : Grows b := by
    unfold splitLifetimes at split
    dsimp only at split
    split at split
    · cases Except.ok.inj split
      exact ⟨rfl,.refl _⟩
    · obtain ⟨chains,-,same⟩ := okOfBind split
      cases Except.ok.inj same
      exact grown
  refine ⟨renamed.toRestated,grows.1,grows.2,fun i s stands => ?_⟩
  exact List.mem_map.mp (renamed.locs i ▸ List.mem_map_of_mem stands)

theorem Steps.trimmed {fits : Analysed → Loc → VarId → Prop} (steps : Steps fits b a) : b.graph.Trimmed a.graph := by
  induction steps with
  | none => exact .refl _
  | swept before ih => exact ih.trans (thinsEliminateFrom ..).graph.trimmed
  | tried before o u n v fit ih => exact ih.trans (thinsPropagateVar o u (_,n) v).graph.trimmed

theorem madeFounded {c : Chains} (founded : g.Founded) (linked : Chains.ofGraph g = .ok c) :
    Made ⟨g,c⟩ := by
  refine ⟨founded.toWired,founded.distinct,fun i listed reserved => ?_,linked⟩
  obtain ⟨s,stands,loc⟩ := List.mem_map.mp reserved
  have after := (founded.between i listed s stands).1
  rw [loc] at after
  exact absurd after (by decide)

theorem readyTrimmed (founded : g.Founded) (trimmed : g.Trimmed a.graph) (tied : a.Tied) : a.Ready := by
  have rpo : a.graph.rpo = g.rpo := by rw [trimmed.rest]
  refine ⟨tied,trimmed.ranked founded.ranked,fun v member => ?_,fun l listed => ?_⟩
  · rw [trimmed.rest] at member
    rw [trimmed.vars.get (founded.params v member)]
    exact founded.given v member
  · obtain ⟨p,s,here,rfl⟩ := Graph.memLocs.mp listed
    obtain ⟨t,there,same⟩ := trimmed.locs p.node s (List.mem_of_getElem? here.2)
    rw [trimmed.nextLoc,← same]
    exact (founded.between p.node (rpo ▸ here.1) t there).2

/-- In the graph of a method, the place of a variable lies in no loop that leaves out a node that mentions the
variable. It is the nearest of the nodes that come before all that mentions the variable and that lie in no such
loop nor in such a region, if there is any. If there is none, it is the entry, in a region that leaves one out. -/
theorem placesNearest {m : Method} {c : Chains} {fits : Analysed → Loc → VarId → Prop} (built : Graph.ofMethod m = .ok g)
    (linked : Chains.ofGraph g = .ok c) (start : b = ⟨g,c⟩ ∨ splitLifetimes ⟨g,c⟩ = .ok b) (steps : Steps fits b a)
    (placed : (v,n) ∈ (a.placeDeclarations (Dominators.ofGraph a.graph)
      (LoopForest.ofGraph a.graph (Dominators.ofGraph a.graph))).2) :
    let before (k : NodeId) := ∀ i, a.graph.Mentioning v i → a.graph.Dominates k i
    let shown := ∀ r, (a.graph.node n).region = some r → ∀ i, a.graph.Mentioning v i →
      a.graph.encloses r (a.graph.node i).region = true
    before n ∧
    (∀ l ∈ (LoopForest.ofGraph a.graph (Dominators.ofGraph a.graph)).loops, n ∈ l.body →
      ∀ i, a.graph.Mentioning v i → i ∈ l.body) ∧
    (∀ k, before k → a.graph.Suits (a.graph.Mentioning v) k → a.graph.Dominates k n) ∧
    (shown ↔ ∃ k, before k ∧ a.graph.Suits (a.graph.Mentioning v) k) ∧ (¬shown → a.graph.entry = some n) := by
  intro before shown
  have founded := Graph.foundedOfMethod built
  have made := madeFounded founded linked
  have trimmed : g.Trimmed a.graph := by
    rcases start with rfl | split
    · exact steps.trimmed
    · exact (trimmedSplit split).trans steps.trimmed
  have tied : a.Tied := (steps.tied (start.elim (fun same => same ▸ made) made.split)).1
  have ready := readyTrimmed founded trimmed tied
  have edged := tied.wired.toEdged
  have unled : ∀ e, a.graph.entry = some e → (a.graph.node e).preds = [] := fun e entry => by
    rw [trimmed.nodes e]
    exact (founded.sourceless e (by rw [← entry,trimmed.rest])).1
  have chosen := chosenAll ready a.chains.definedVars [] ready.typed (definedVarsSorted a.chains).2 (by simp) v n
  rw [placeDeclarations,a.inferTypesKeeps.1] at placed
  obtain ⟨plain,b',opened,first,found,same⟩ := chosen placed
  have sites : ∀ i, i ∈ b'.siteNodes v ↔ a.graph.Mentioning v i := fun i => opened.siteNodes ready plain
  have mentioning : (· ∈ b'.siteNodes v) = a.graph.Mentioning v := funext fun i => propext (sites i)
  have numbered : ∀ i ∈ b'.siteNodes v, i ∈ a.graph.rpo := fun i listed => by
    obtain ⟨p,s,here,-,rfl⟩ := (sites i).mp listed
    exact here.1
  obtain ⟨inside,dom⟩ := Dominators.commonAllDominates ready.ranked edged numbered found
  have enough : (a.graph.node first).num < (b'.graph.store.size + 1 : Nat) := by
    have less := ready.ranked.lessThanLength inside
    have length := ready.ranked.lengthLe edged
    have size := opened.restated.size
    omega
  obtain ⟨-,all⟩ := hoistDominates ready.ranked edged b'.graph (b'.graph.store.size + 1) inside dom
  obtain ⟨ends,nearest⟩ := hoistSuits ready.ranked edged unled opened.restated (b'.graph.store.size + 1) inside enough
    fun c dom _ => Dominators.commonAllClosest ready.ranked edged numbered found dom
  rw [← same] at all
  rw [← same,mentioning] at ends nearest
  have higher : ∀ k, before k ↔ ∀ i ∈ b'.siteNodes v, a.graph.Dominates k i := fun k =>
    forall_congr' fun i => by rw [sites]
  have loops : ∀ l ∈ (LoopForest.ofGraph a.graph (Dominators.ofGraph a.graph)).loops, n ∈ l.body →
      ∀ i, a.graph.Mentioning v i → i ∈ l.body := fun l listed held =>
    ends.elim (fun suits => suits.loops l listed held) fun entry =>
      absurd held (entryLoopless ready.ranked edged unled entry listed)
  have closest : ∀ k, before k → a.graph.Suits (a.graph.Mentioning v) k → a.graph.Dominates k n :=
    fun k above suits => nearest k ((higher k).mp above) suits
  refine ⟨(higher n).mpr all,loops,closest,⟨fun fits => ⟨n,(higher n).mpr all,loops,fits⟩,?_⟩,fun hidden => ?_⟩
  · rintro ⟨k,above,suits⟩
    rcases ends with fits | entry
    · exact fits.region
    · -- What dominates the entry is the entry.
      rw [(closest k above suits).entry entry] at suits
      exact suits.region
  · exact ends.resolve_left fun suits => hidden suits.region

end Analysed

def Method.attempted : Method where
  owner := "LTest;"
  name := "f"
  descriptor := "()I"
  access := ⟨9⟩
  registers := 1
  index := 0
  line := 0
  code := [
    { family := .invoke, width := 3, invoke := .static, type := "I", mnemonic := "invoke-static",
      method := some ⟨"LTest;","g",[],"I"⟩ },
    { family := .moveResult, mnemonic := "move-result", offset := 3, regs := [0] },
    { family := .return, mnemonic := "return", offset := 4, regs := [0] },
    { family := .const, mnemonic := "const/4", offset := 5, regs := [0] },
    { family := .return, mnemonic := "return", offset := 6, regs := [0] }]
  tries := [⟨0,4,[⟨"Ljava/lang/Exception;",5⟩]⟩]
  overlaps := []

namespace Analysed

set_option maxRecDepth 100000 in
theorem attemptedPlaces : ((Graph.ofMethod .attempted).toOption.any fun g => (Chains.ofGraph g).toOption.any fun c =>
    (placeDeclarations ⟨g,c⟩ (Dominators.ofGraph g) (LoopForest.ofGraph g (Dominators.ofGraph g))).2 == [(0,0)] &&
      (g.node 0).region == some 0 && (g.node 1).region == none && g.rpo.contains 1 &&
      ((g.node 1).stmts.head?.any fun s => s.mentions 0)) = true := by cbv

/-- The result is declared in the range, although it is returned behind it. -/
theorem placesNearestAttempted : ∃ g c, Graph.ofMethod .attempted = .ok g ∧ Chains.ofGraph g = .ok c ∧
    (0,0) ∈ (placeDeclarations ⟨g,c⟩ (Dominators.ofGraph g) (LoopForest.ofGraph g (Dominators.ofGraph g))).2 ∧
    g.entry = some 0 ∧ g.Mentioning 0 1 ∧ (g.node 0).region = some 0 ∧ g.encloses 0 (g.node 1).region = false ∧
    ¬∃ k, (∀ i, g.Mentioning 0 i → g.Dominates k i) ∧ g.Suits (g.Mentioning 0) k := by
  have run := attemptedPlaces
  cases built : Graph.ofMethod .attempted with
  | error fault =>
    rw [built] at run
    contradiction
  | ok g =>
    simp only [built,Except.toOption,Option.any_some] at run
    cases linked : Chains.ofGraph g with
    | error fault =>
      rw [linked] at run
      contradiction
    | ok c =>
      simp only [linked,Option.any_some,Bool.and_eq_true,beq_iff_eq,List.contains_iff_mem] at run
      obtain ⟨⟨⟨⟨places,first⟩,second⟩,inside⟩,mentions⟩ := run
      obtain ⟨s,here,mention⟩ := (Option.any_eq_true _ _).mp mentions
      have listed : (0,0) ∈ (placeDeclarations ⟨g,c⟩ (Dominators.ofGraph g)
        (LoopForest.ofGraph g (Dominators.ofGraph g))).2 := by rw [places]; exact List.mem_cons_self ..
      have mentioning : g.Mentioning 0 1 := ⟨⟨1,0⟩,s,⟨inside,List.head?_eq_getElem?.symm.trans here⟩,mention,rfl⟩
      have outside : g.encloses 0 (g.node 1).region = false := by
        rw [second,Graph.encloses,Graph.regionsAround]
        cases g.regions.size <;> rfl
      obtain ⟨-,-,-,fits,entry⟩ :=
        placesNearest built linked (.inl rfl) (.none : Steps (fun _ _ _ => True) _ _) listed
      have hidden : ¬∀ r, (g.node 0).region = some r → ∀ i, g.Mentioning 0 i →
          g.encloses r (g.node i).region = true := fun shown => by
        have inside := shown 0 first 1 mentioning
        rw [outside] at inside
        contradiction
      exact ⟨g,c,rfl,linked,listed,entry hidden,mentioning,first,outside,fun some_ => hidden (fits.mpr some_)⟩

end Analysed

end RegCode
