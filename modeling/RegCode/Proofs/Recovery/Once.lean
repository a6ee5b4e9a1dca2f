import RegCode.Proofs.Recovery.Protection

/-! Structured code holds each node once outside of clean-up code, and each region has its clean-up
code written once. Only clean-up code can repeat a node. -/
namespace RegCode

/-- What a tree holds: a node, or the clean-up code of a region with the nodes in it. -/
inductive Item where
  | node (n : Int)
  | cleanup (r : RegionId) (nodes : List Int)
  deriving DecidableEq, Repr

namespace Item

def nodes : Item → List Int
  | node n => [n]
  | cleanup _ ns => ns

def tag : Item → Int ⊕ RegionId
  | node n => .inl n
  | cleanup r _ => .inr r

end Item

namespace Tree

variable {α β : Type}

mutual

def inventory : Tree α → List Item
  | block _ body => inventoryAll body
  | stmts _ n _ => (nodeIfReal n).map .node
  | branch _ n _ t none => .node n :: inventoryAll t
  | branch _ n _ t (some e) => .node n :: inventoryAll t ++ inventoryAll e
  | loop _ _ n _ _ body => (nodeIfReal n).map .node ++ inventoryAll body
  | switch _ n _ arms => .node n :: inventoryArms arms
  | guarded _ _ body cs none => inventoryAll body ++ inventoryCatches cs
  | guarded _ r body cs (some z) => .cleanup r (sourcesAll z) :: inventoryAll body ++ inventoryCatches cs
  | goto _ _ | breakTo _ _ | continueTo _ _ => []

def inventoryAll : List (Tree α) → List Item
  | [] => []
  | t :: ts => t.inventory ++ inventoryAll ts

def inventoryArms : List (ArmHead × List (Tree α)) → List Item
  | [] => []
  | (_,body) :: rest => inventoryAll body ++ inventoryArms rest

def inventoryCatches : List (CatchHead × List (Tree α)) → List Item
  | [] => []
  | (_,body) :: rest => inventoryAll body ++ inventoryCatches rest

end

theorem inventoryAppend (xs ys : List (Tree α)) :
    inventoryAll (xs ++ ys) = inventoryAll xs ++ inventoryAll ys := by
  induction xs with
  | nil => rfl
  | cons x xs ih => rw [List.cons_append,inventoryAll,inventoryAll,ih,List.append_assoc]

theorem inventoryZipArms (heads : List ArmHead) (bodies : List (List (Tree α)))
    (same : bodies.length = heads.length) :
    inventoryArms (heads.zip bodies) = inventoryAll bodies.flatten := by
  induction heads generalizing bodies with
  | nil => rw [List.eq_nil_of_length_eq_zero same]; rfl
  | cons h heads ih =>
    cases bodies with
    | nil => contradiction
    | cons b bodies =>
      rw [List.zip_cons_cons,inventoryArms,ih bodies (Nat.succ.inj same),List.flatten_cons,
        inventoryAppend]

theorem inventoryZipCatches (heads : List CatchHead) (bodies : List (List (Tree α)))
    (same : bodies.length = heads.length) :
    inventoryCatches (heads.zip bodies) = inventoryAll bodies.flatten := by
  induction heads generalizing bodies with
  | nil => rw [List.eq_nil_of_length_eq_zero same]; rfl
  | cons h heads ih =>
    cases bodies with
    | nil => contradiction
    | cons b bodies =>
      rw [List.zip_cons_cons,inventoryCatches,ih bodies (Nat.succ.inj same),List.flatten_cons,
        inventoryAppend]

section
variable (f : α → β)

mutual

theorem inventoryRelabel : ∀ t : Tree α, (t.relabel f).inventory = t.inventory
  | block _ body => by simp only [relabel,inventory,inventoryRelabelAll body]
  | stmts _ _ _ => rfl
  | branch _ _ _ t none => by simp only [relabel,inventory,inventoryRelabelAll t]
  | branch _ _ _ t (some e) => by
    simp only [relabel,inventory,inventoryRelabelAll t,inventoryRelabelAll e]
  | loop _ _ _ _ _ body => by simp only [relabel,inventory,inventoryRelabelAll body]
  | switch _ _ _ arms => by simp only [relabel,inventory,inventoryRelabelArms arms]
  | guarded _ _ body cs none => by
    simp only [relabel,inventory,inventoryRelabelAll body,inventoryRelabelCatches cs]
  | guarded _ _ body cs (some z) => by
    simp only [relabel,inventory,inventoryRelabelAll body,inventoryRelabelCatches cs,sourcesRelabelAll]
  | goto _ _ | breakTo _ _ | continueTo _ _ => rfl

theorem inventoryRelabelAll : ∀ ts : List (Tree α), inventoryAll (relabelAll f ts) = inventoryAll ts
  | [] => rfl
  | t :: ts => by simp only [relabelAll,inventoryAll,inventoryRelabel t,inventoryRelabelAll ts]

theorem inventoryRelabelArms : ∀ arms : List (ArmHead × List (Tree α)),
    inventoryArms (relabelArms f arms) = inventoryArms arms
  | [] => rfl
  | (_,body) :: rest => by
    simp only [relabelArms,inventoryArms,inventoryRelabelAll body,inventoryRelabelArms rest]

theorem inventoryRelabelCatches : ∀ cs : List (CatchHead × List (Tree α)),
    inventoryCatches (relabelCatches f cs) = inventoryCatches cs
  | [] => rfl
  | (_,body) :: rest => by
    simp only [relabelCatches,inventoryCatches,inventoryRelabelAll body,inventoryRelabelCatches rest]

end

end

theorem nodesReal (n : Int) : ((nodeIfReal n).map Item.node).flatMap Item.nodes = nodeIfReal n := by
  unfold nodeIfReal
  split <;> rfl

mutual

theorem sourcesInventory : ∀ t : Tree α, t.sources.Perm (t.inventory.flatMap Item.nodes)
  | block _ body => sourcesInventoryAll body
  | stmts _ n _ => by rw [sources,inventory,nodesReal]
  | branch _ n _ t none => (sourcesInventoryAll t).cons n
  | branch _ n _ t (some e) => by
    rw [sources,inventory,List.flatMap_append]
    exact ((sourcesInventoryAll t).cons n).append (sourcesInventoryAll e)
  | loop _ _ n _ _ body => by
    rw [sources,inventory,List.flatMap_append,nodesReal]
    exact (sourcesInventoryAll body).append_left _
  | switch _ n _ arms => (sourcesInventoryArms arms).cons n
  | guarded _ _ body cs none => by
    rw [sources,inventory,List.flatMap_append]
    exact (sourcesInventoryAll body).append (sourcesInventoryCatches cs)
  | guarded _ _ body cs (some z) => by
    rw [sources,inventory,List.cons_append,List.flatMap_cons,List.flatMap_append]
    exact List.perm_append_comm.trans
      (((sourcesInventoryAll body).append (sourcesInventoryCatches cs)).append_left _)
  | goto _ _ | breakTo _ _ | continueTo _ _ => .nil

theorem sourcesInventoryAll : ∀ ts : List (Tree α),
    (sourcesAll ts).Perm ((inventoryAll ts).flatMap Item.nodes)
  | [] => .nil
  | t :: ts => by
    rw [sourcesAll,inventoryAll,List.flatMap_append]
    exact (sourcesInventory t).append (sourcesInventoryAll ts)

theorem sourcesInventoryArms : ∀ arms : List (ArmHead × List (Tree α)),
    (sourcesArms arms).Perm ((inventoryArms arms).flatMap Item.nodes)
  | [] => .nil
  | (_,body) :: rest => by
    rw [sourcesArms,inventoryArms,List.flatMap_append]
    exact (sourcesInventoryAll body).append (sourcesInventoryArms rest)

theorem sourcesInventoryCatches : ∀ cs : List (CatchHead × List (Tree α)),
    (sourcesCatches cs).Perm ((inventoryCatches cs).flatMap Item.nodes)
  | [] => .nil
  | (_,body) :: rest => by
    rw [sourcesCatches,inventoryCatches,List.flatMap_append]
    exact (sourcesInventoryAll body).append (sourcesInventoryCatches rest)

end

end Tree

namespace Recovery

open RegCode.Tree

/-! ### What constructs make of the parts that they are given -/

theorem inventoryDropLast {ps : List Piece} {j : Piece} (last : ps.getLast? = some j)
    (empty : j.inventory = []) : inventoryAll ps.dropLast = inventoryAll ps := by
  obtain ⟨front,rfl⟩ := List.getLast?_eq_some_iff.mp last
  rw [List.dropLast_concat,inventoryAppend,inventoryAll,empty]
  exact (List.append_nil _).symm

theorem inventoryDropContinue (body : List Piece) :
    inventoryAll (dropLastContinue body) = inventoryAll body := by
  unfold dropLastContinue
  split
  · rename_i last
    exact inventoryDropLast last rfl
  · rfl

theorem inventoryDropBreak (arms : List (ArmHead × List Piece)) :
    inventoryArms (dropLastBreak arms) = inventoryArms arms := by
  induction arms with
  | nil => rfl
  | cons a arms ih =>
    obtain ⟨h,body⟩ := a
    cases arms with
    | nil =>
      unfold dropLastBreak
      split
      · rename_i last
        rw [inventoryArms,inventoryDropLast last rfl]
        rfl
      · rfl
    | cons b arms =>
      rw [dropLastBreak,inventoryArms,inventoryArms,ih]
      simp

theorem inventoryBranch (key : Key) (n : NodeId) (cond : Test) (meets : Bool)
    (onTrue onFalse : List Piece) : inventoryAll (branchPieces key n cond meets onTrue onFalse) =
      .node n :: (inventoryAll onTrue ++ inventoryAll onFalse) := by
  unfold branchPieces
  split
  · rename_i empty
    rw [List.isEmpty_iff.mp empty]
    simp [inventoryAll,inventory]
  · split
    · rename_i empty
      rw [List.isEmpty_iff.mp empty]
      simp [inventoryAll,inventory]
    · split <;> simp [inventoryAll,inventory]

/-! ### Marks and regions tell what has been written -/

namespace State

/-- Whether the state knows of an item, by its tag. -/
def Met (s : State) : Int ⊕ RegionId → Prop
  | .inl i => ∃ n : NodeId, i = n ∧ s.mark n ≠ .unvisited
  | .inr q => (s.regions.get? q).isSome

def unmet (n : NodeId) (s : State) : State := s.setMark n .unvisited

end State

structure Once (p : Plan) (s : State) (items : List Item) (s' : State) : Prop where
  distinct : (items.map Item.tag).Nodup
  fresh : ∀ x ∈ items, ¬s.Met x.tag ∧ s'.Met x.tag
  kept : ∀ y, s.Met y → s'.Met y
  sole : ∀ q ns, Item.cleanup q ns ∈ items →
    ∃ a, ownGroups p q = [a] ∧ a.types = [anyThrown] ∧ ns = [(a.entry : Int)]

namespace Once

variable {p : Plan} {s s₁ s' : State} {xs ys : List Item} {n : NodeId}

theorem quiet (kept : ∀ y, s.Met y → s'.Met y) : Once p s [] s' :=
  ⟨List.nodup_nil,nofun,kept,nofun⟩

theorem trans (first : Once p s xs s₁) (second : Once p s₁ ys s') : Once p s (xs ++ ys) s' := by
  refine ⟨?_,fun x member => ?_,fun y met => second.kept y (first.kept y met),fun q ns member => ?_⟩
  · rw [List.map_append]
    refine List.nodup_append.mpr ⟨first.distinct,second.distinct,fun a left b right same => ?_⟩
    obtain ⟨x,inside,rfl⟩ := List.mem_map.mp left
    obtain ⟨y,later,rfl⟩ := List.mem_map.mp right
    exact (second.fresh y later).1 (same ▸ (first.fresh x inside).2)
  · rcases List.mem_append.mp member with member | member
    · exact ⟨(first.fresh x member).1,second.kept _ (first.fresh x member).2⟩
    · exact ⟨fun met => (second.fresh x member).1 (first.kept _ met),(second.fresh x member).2⟩
  · exact (List.mem_append.mp member).elim (first.sole q ns) (second.sole q ns)

theorem before (once : Once p s₁ xs s') (more : ∀ y, s.Met y → s₁.Met y) : Once p s xs s' :=
  List.nil_append xs ▸ (quiet more).trans once

theorem after (once : Once p s xs s₁) (more : ∀ y, s₁.Met y → s'.Met y) : Once p s xs s' :=
  List.append_nil xs ▸ once.trans (quiet more)

end Once

namespace State

variable {s s' : State} {n : NodeId} {y : Int ⊕ RegionId}

theorem Met.mono (marks : ∀ m, s.mark m ≠ .unvisited → s'.mark m ≠ .unvisited)
    (regions : ∀ q, (s.regions.get? q).isSome → (s'.regions.get? q).isSome) (met : s.Met y) :
    s'.Met y := by
  cases y with
  | inl i =>
    obtain ⟨m,rfl,visited⟩ := met
    exact ⟨m,rfl,marks m visited⟩
  | inr q => exact regions q met

theorem Met.same (marks : s'.marks = s.marks)
    (regions : ∀ q, (s.regions.get? q).isSome → (s'.regions.get? q).isSome) (met : s.Met y) :
    s'.Met y := met.mono (fun m visited => by rwa [mark,marks]) regions

theorem Met.marked {m : Mark} (visited : m ≠ .unvisited) (met : s.Met y) : (s.setMark n m).Met y := by
  refine met.mono (fun k other => ?_) fun q known => ?_
  · rw [markSetMark]
    split
    · exact visited
    · exact other
  · exact known

theorem Met.unmet (free : s.mark n = .unvisited) (met : s.Met y) : (s.unmet n).Met y := by
  refine met.mono (fun k other => ?_) fun q known => ?_
  · have apart : k ≠ n := fun here => other (here ▸ free)
    rwa [State.unmet,markSetMark,if_neg apart]
  · exact known

theorem Met.unmetMono (more : ∀ y, s.Met y → s'.Met y) (met : (s.unmet n).Met y) :
    (s'.unmet n).Met y := by
  cases y with
  | inr q => exact more (.inr q) met
  | inl i =>
    obtain ⟨m,rfl,visited⟩ := met
    rw [State.unmet,markSetMark] at visited
    split at visited
    · contradiction
    · rename_i other
      obtain ⟨k,same,met⟩ := more (.inl m) ⟨m,rfl,visited⟩
      obtain rfl := Int.ofNat_inj.mp same
      exact ⟨m,rfl,by rwa [State.unmet,markSetMark,if_neg other]⟩

theorem notMet (free : s.mark n = .unvisited) : ¬s.Met (.inl n) := by
  rintro ⟨m,same,visited⟩
  exact visited (Int.ofNat_inj.mp same ▸ free)

end State

namespace Once

variable {p : Plan} {s s₁ s' : State} {n : NodeId}

theorem single {x : Item} (fresh : ¬s.Met x.tag) (met : s'.Met x.tag) (kept : ∀ y, s.Met y → s'.Met y)
    (sole : ∀ q ns, x = .cleanup q ns →
      ∃ a, ownGroups p q = [a] ∧ a.types = [anyThrown] ∧ ns = [(a.entry : Int)]) : Once p s [x] s' :=
  ⟨List.nodup_singleton _,fun _ member => List.mem_singleton.mp member ▸ ⟨fresh,met⟩,kept,
    fun q ns member => sole q ns (List.mem_singleton.mp member).symm⟩

theorem began (regions : s'.regions = s.regions) (visited : s'.mark n ≠ .unvisited)
    (others : ∀ m, m ≠ n → s'.mark m = s.mark m) : Once p (s.unmet n) [.node n] s' := by
  have free : (s.unmet n).mark n = .unvisited := by rw [State.unmet,State.markSetMark,if_pos rfl]
  refine .single (State.notMet free) ⟨n,rfl,visited⟩ (fun y met => ?_) nofun
  refine met.mono (fun m other => ?_) fun q known => by rwa [regions]
  by_cases here : m = n
  · exact here ▸ visited
  · rw [State.unmet,State.markSetMark,if_neg here] at other
    rwa [others m here]

theorem statement (s : State) (n : NodeId) (ss : List Stmt) :
    Once p (s.unmet n) (inventoryAll [(s.statement n ss).1]) (s.statement n ss).2 := by
  obtain ⟨marks,-⟩ := s.bump.placeFields n (s.key "")
  have piece : inventoryAll [(s.statement n ss).1] = [.node n] := by
    simp [State.statement,inventoryAll,inventory,nodeIfReal]
  rw [piece]
  refine began (s.regionsStatement n ss) ?_ fun m other => ?_
  · simp [State.statement,State.markSetMark]
  · simp only [State.statement]
    rw [State.markSetMark,if_neg other,State.mark,marks]
    rfl

theorem entered (s : State) (n : NodeId) (own : String) (follow : Option NodeId) :
    Once p (s.unmet n) [.node n] (s.enter n own follow) := by
  refine began (s.regionsEnter n own follow) ?_ (enterFields s n own follow).1
  rw [enterMark]
  nofun

end Once

namespace State

variable {s : State} {y : Int ⊕ RegionId} (n : NodeId) (follow : Option NodeId) (r : RegionId)

theorem Met.finished (met : s.Met y) : (s.setMark n .finished).Met y := met.marked nofun

theorem Met.released (met : s.Met y) : (s.release follow).Met y := met.same rfl fun _ => id

theorem Met.left (met : s.Met y) : (s.leave n follow).Met y := (met.released follow).finished n

theorem Met.openLoop (met : s.Met y) : (s.openLoop n).Met y :=
  met.same (openLoopFields s n).1 fun q known => by rwa [s.regionsOpenLoop n]

theorem Met.openGuard (met : s.Met y) : (s.openGuard n follow).Met y :=
  met.same (openGuardFields s n follow).1 fun q known => by rwa [s.regionsOpenGuard n follow]

theorem knownOpened (q : RegionId) (c : Clauses) :
    ((s.openRegion r c).regions.get? q).isSome = (q == r || (s.regions.get? q).isSome) := by
  rw [openRegion,Table.get?_insert]
  by_cases here : q = r <;> simp [here]

theorem Met.opened (c : Clauses) (met : s.Met y) : (s.openRegion r c).Met y := by
  have more : ∀ q, (s.regions.get? q).isSome → ((s.openRegion r c).regions.get? q).isSome := by
    intro q known
    rw [knownOpened,known,Bool.or_true]
  refine met.same ?_ more
  rfl

theorem Met.placed (key : Key) (met : s.Met y) : (s.place n key).Met y :=
  met.same (s.placeFields n key).1 fun q known => by rwa [s.regionsPlace n key]

theorem Met.cleaned (entry : NodeId) (copy : List Loc) (key : Key) (met : s.Met y) :
    (s.cleaned r entry copy key).Met y := by
  have skipped : ((s.openRegion r (.cleanup entry)).skip copy).Met y :=
    (met.opened r _).same rfl fun _ => id
  exact (skipped.placed entry key).finished entry

end State

theorem inventorySwitch {p : Plan} {f : Frame} {n : NodeId} {s s₁ s₂ : State} {bodies : List (List Piece)}
    (arms : Writes p (.each (switchJobs p f n s) bodies) s₁ s₂) (key : Key) (value : Option Expr) :
    inventoryAll [Tree.switch key n value (writtenArms p f n bodies)] =
      .node n :: inventoryAll bodies.flatten := by
  have same : bodies.length = ((switchArms p f n).map (·.head)).length := by
    rw [bodiesLength arms,switchJobs,armJobsLength,List.length_map]
  rw [inventoryAll,inventory,writtenArms,inventoryDropBreak,inventoryZipArms _ _ same]
  exact List.append_nil _

theorem inventoryLoop (key : Key) (kind : LoopKind) (test header : Int) (cond : Option Test)
    (body : List Piece) : inventoryAll [.loop key kind test header cond (dropLastContinue body)] =
      (nodeIfReal test).map .node ++ inventoryAll body := by
  rw [inventoryAll,inventory,inventoryDropContinue]
  exact List.append_nil _

theorem realNode (n : NodeId) : nodeIfReal n = [(n : Int)] := by simp [nodeIfReal]

theorem nodeReal (n : NodeId) : (nodeIfReal n).map Item.node = [.node n] := by
  rw [realNode,List.map_singleton]

theorem jumpClausesEmpty (heads : List CatchHead) (s : State) :
    inventoryCatches ((jumpClauses heads).from s).1 = [] := by
  induction heads generalizing s with
  | nil => rfl
  | cons h heads ih =>
    have piece : (s.goto h.node).1 = .goto (.aim h.node) (s.labelOf h.node).1 := rfl
    simp only [jumpClauses,fromBind,fromPure,fromModifyGet,piece,inventoryCatches,inventoryAll,inventory,
      ih,List.append_nil]

theorem repeatClausesEmpty (g : Graph) (c : Clauses) (s : State) :
    inventoryCatches ((repeatClauses g c).from s).1 = [] := by
  cases c with
  | cleanup entry => rfl
  | catches heads => exact jumpClausesEmpty heads s

theorem settledFree {p : Plan} {s : State} {found shape : LoopShape} {latch : NodeId}
    (settled : settleShape p s found = shape) (kind : shape.kind = .posttest)
    (test : shape.test = some latch) : s.mark latch = .unvisited := by
  unfold settleShape at settled
  split at settled
  · rename_i l _ here
    split at settled
    · rename_i free
      subst settled
      obtain rfl := Option.some.inj (here.symm.trans test)
      simpa using (Bool.and_eq_true_iff.mp free).1
    · subst settled
      contradiction
  · rename_i other
    subst settled
    exact absurd test (other latch kind)

theorem repeatClausesRegions (g : Graph) (c : Clauses) (s : State) :
    ((repeatClauses g c).from s).2.regions = s.regions := by
  cases c with
  | cleanup entry => rfl
  | catches heads =>
    induction heads generalizing s with
    | nil => rfl
    | cons h heads ih => exact (ih (s.goto h.node).2).trans (s.regionsGoto h.node)

def Job.Once (p : Plan) : Job → State → State → Prop
  | .emit _ n out, s, s' => Recovery.Once p (s.unmet n) (inventoryAll out) s'
  | .go _ _ out, s, s' => Recovery.Once p s (inventoryAll out) s'
  | .goOn _ _ _ more, s, s' => Recovery.Once p s (inventoryAll more) s'
  | .each _ outs, s, s' => Recovery.Once p s (inventoryAll outs.flatten) s'

theorem Writes.once {p : Plan} {job : Job} {s s' : State} (shaped : p.graph.Shaped)
    (tested : Tested p) (writes : Writes p job s s') : job.Once p s s' := by
  have leads : ∀ {n s s₀ lead}, (p.graph.node n).kind = .cond ∨ (p.graph.node n).kind = .switch →
      State.lead n (p.graph.node n).stmts s = (lead,s₀) → lead = [] ∧ s₀ = s := by
    intro n s s₀ lead kind start
    rw [State.lead,if_pos (shaped.alone n kind)] at start
    cases start
    exact ⟨rfl,rfl⟩
  induction writes with
  | nowhere => exact .quiet fun _ => id
  | inline way rest ih => exact ih.before fun y met => met.unmet (routeInline way)
  | falls way => exact .quiet fun _ => id
  | @breaks f t scope s way =>
    exact .quiet fun y met => met.same (s.nameScopeFields scope).1 fun q known => by
      rwa [s.regionsNameScope scope]
  | @continues f t scope s way =>
    exact .quiet fun y met => met.same (s.nameScopeFields scope).1 fun q known => by
      rwa [s.regionsNameScope scope]
  | @jumps f t s way =>
    exact .quiet fun y met => met.same (s.gotoFields t).1 fun q known => by rwa [s.regionsGoto t]
  | nothing => exact .quiet fun _ => id
  | each first rest ihFirst ihRest =>
    rw [Job.Once,List.flatten_cons,inventoryAppend]
    exact ihFirst.trans ihRest
  | ends => exact .quiet fun _ => id
  | never jump way => exact .quiet fun _ => id
  | behind jump way rest ih => exact ih.before fun y met => met.unmet (routeInline way)
  | on passes rest ih => exact ih
  | last bare noBranch noSwitch alone => exact .statement ..
  | @plain f n t out s s' bare kind succ rest ih =>
    have all := (Once.statement s n (p.graph.node n).stmts).trans ih
    rwa [← inventoryAppend] at all
  | @branch f n cond first second lead onTrue onFalse more s s₀ s₁ s₂ s₃ bare kind sides start left
      right rest ihLeft ihRight ihRest =>
    obtain ⟨rfl,rfl⟩ := leads (.inl kind) start
    have all := ((((Once.entered s₀ n _ _).trans ihLeft).trans ihRight).after
      fun _ => (·.left n _)).trans ihRest
    rwa [List.append_assoc [_],List.singleton_append,← inventoryBranch,← inventoryAppend] at all
  | @switch f n lead bodies more s s₀ s₁ s₂ bare kind start arms rest ihArms ihRest =>
    obtain ⟨rfl,rfl⟩ := leads (.inr kind) start
    have all := (((Once.entered s₀ n _ _).trans ihArms).after fun _ => (·.left n _)).trans ihRest
    rwa [List.singleton_append,← inventorySwitch arms,← inventoryAppend] at all
  | @pretest f n found shape body more s s₁ s₂ outside starts settled kind inner rest ihInner ihRest =>
    have begun : Once p (s.unmet n) [.node n] ((s.openLoop n).setMark n .entered) := by
      refine .began (s.regionsOpenLoop n) ?_ fun m other => ?_
      · simp [State.markSetMark]
      · rw [State.markSetMark,if_neg other,State.mark,(openLoopFields s n).1]
        rfl
    have all := ((begun.trans ihInner).after fun _ => (·.finished n)).trans ihRest
    rwa [← nodeReal,← inventoryLoop,← inventoryAppend] at all
  | @posttest f n found shape latch body more s s₁ s₂ outside starts settled kind test inner rest
      ihInner ihRest =>
    have apart : latch ≠ n := ((testedShape tested starts settled).2 kind latch test).2
    have free : (s.unmet n).mark latch = .unvisited := by
      rw [State.unmet,State.markSetMark,if_neg apart]
      exact settledFree settled kind test
    have opened : ∀ y, s.Met y → (((s.openLoop n).place latch (s.key (loopName n))).setMark latch
        .entered).Met y := fun _ met => ((met.openLoop n).placed latch _).marked (by simp)
    have begun : Once p (s.unmet n) [.node latch] ((((s.openLoop n).place latch
        (s.key (loopName n))).setMark latch .entered).unmet n) := by
      refine .single (State.notMet free) ⟨latch,rfl,?_⟩ (fun y => State.Met.unmetMono opened) (by simp)
      simp [State.unmet,State.markSetMark,apart]
    have all := ((begun.trans ihInner).after fun _ => (·.finished latch)).trans ihRest
    rwa [← nodeReal,← inventoryLoop,← inventoryAppend] at all
  | @endless f n found shape body more s s₁ s₂ outside starts settled kind test inner rest ihInner
      ihRest =>
    have all := (ihInner.before fun _ => State.Met.unmetMono fun _ => (·.openLoop n)).trans ihRest
    rw [← List.nil_append (inventoryAll body)] at all
    rwa [show ([] : List Item) = (nodeIfReal (-1)).map .node from rfl,← inventoryLoop,← inventoryAppend] at all
  | @cleanup f n r entry code copy body more s s₁ s₂ outside first clean inner rest ihInner ihRest =>
    have begun : Once p (s.unmet n) [.cleanup r [(entry : Int)]]
        (((s.openGuard n (guardFollow p s f r)).cleaned r entry copy (s.key "")).unmet n) := by
      refine .single ?_ ?_ (fun y => State.Met.unmetMono fun _ met =>
        (met.openGuard n _).cleaned r entry copy _) fun q ns same => ?_
      · have unknown : (s.regions.get? r).isSome = false := Option.isSome_eq_false_iff.mpr (first ▸ rfl)
        exact Bool.eq_false_iff.mp unknown
      · have known : ((s.openGuard n (guardFollow p s f r)).cleaned r entry copy (s.key "")).regions =
            ((s.openGuard n (guardFollow p s f r)).openRegion r (.cleanup entry)).regions :=
          State.regionsPlace _ entry _
        show ((State.cleaned ..).regions.get? r).isSome
        rw [known,State.knownOpened,beq_self_eq_true,Bool.true_or]
      · obtain ⟨a,groups,types,rfl⟩ := cleanupGroup clean
        cases same
        exact ⟨a,groups,types,rfl⟩
    have all := ((begun.trans ihInner).after fun _ => (·.released _)).trans ihRest
    simpa [Job.Once,inventoryAll,inventory,inventoryCatches,sourcesAll,sources,realNode] using all
  | @catches f n r heads body bodies more s s₀ s₁ s₂ s₃ outside first noCleanup clauses inner handlers
      rest ihInner ihHandlers ihRest =>
    have opened : ∀ y, s.Met y → (s₀.openRegion r (.catches heads)).Met y := by
      obtain ⟨marks,-⟩ := openClausesFields p.graph (ownGroups p r) (s.openGuard n (guardFollow p s f r))
      obtain ⟨-,regions⟩ := openClausesFits p.graph (ownGroups p r) (s.openGuard n (guardFollow p s f r))
      rw [clauses] at marks regions
      intro y met
      exact ((met.openGuard n _).same marks fun q known => by rwa [regions]).opened r _
    have same : bodies.length = heads.length := by rw [bodiesLength handlers,List.length_map]
    have all := (((ihInner.before fun _ => State.Met.unmetMono opened).trans ihHandlers).after
      fun _ => (·.released _)).trans ihRest
    rw [← inventoryZipCatches heads bodies same] at all
    simpa [Job.Once,inventoryAll,inventory] using all
  | @again f n r c catches body more s s₀ s₁ s₂ outside known clauses inner rest ihInner ihRest =>
    have opened : ∀ y, s.Met y → s₀.Met y := by
      intro y met
      have regions := repeatClausesRegions p.graph c (s.openGuard n (followOfRegion p s f r []))
      have wrote := repeatClausesWrote p.graph c (s.openGuard n (followOfRegion p s f r []))
      rw [clauses] at regions wrote
      refine (met.openGuard n _).mono (fun m visited => ?_) fun q known => by rwa [regions]
      exact fun free => visited (wrote.fewer m free)
    have all := ((ihInner.before fun _ => State.Met.unmetMono opened).after
      fun _ => (·.released _)).trans ihRest
    have empty := repeatClausesEmpty p.graph c (s.openGuard n (followOfRegion p s f r []))
    rw [clauses] at empty
    simpa [Job.Once,inventoryAll,inventory,empty] using all

theorem remainsOnce {p : Plan} {ns : List NodeId} {out : List Piece} {s s' : State}
    (shaped : p.graph.Shaped) (tested : Tested p) (remains : Remains p ns out s s') :
    Once p s (inventoryAll out) s' := by
  induction remains with
  | none => exact .quiet fun _ => id
  | met met rest ih => exact ih
  | @more n ns out outs s s₁ s₂ free here rest ih =>
    have wanted : ∀ y, s.Met y → ((s.want n).unmet n).Met y := fun y met =>
      State.Met.unmet (s := s.want n) free (met.same rfl fun _ => id)
    rw [inventoryAppend]
    exact (Once.before (here.once shaped tested) wanted).trans ih

theorem draftOnce {p : Plan} {entry : NodeId} {w : Draft} (shaped : p.graph.Shaped)
    (tested : Tested p) (drafted : Drafted p entry w) : ∃ s s', Once p s (inventoryAll w.body) s' := by
  obtain ⟨out,rest,s,here,remains,body⟩ := drafted
  have all := (here.once shaped tested).trans (remainsOnce shaped tested remains)
  rw [← inventoryAppend,← body] at all
  exact ⟨_,_,all⟩

theorem itemsApart {items : List Item} (distinct : (items.map Item.tag).Nodup)
    (sole : ∀ q ns, Item.cleanup q ns ∈ items → ∃ n, ns = [n]) :
    (items.flatMap Item.nodes).Nodup ↔ ∀ q n, .cleanup q [n] ∈ items →
      .node n ∉ items ∧ ∀ q', .cleanup q' [n] ∈ items → q' = q := by
  rw [List.nodup_flatMap]
  constructor
  · rintro ⟨-,apart⟩ q n member
    have : Std.Symm (Function.onFun List.Disjoint Item.nodes) := ⟨fun _ _ => List.Disjoint.symm⟩
    have clash : ∀ y ∈ items, n ∈ y.nodes → Item.cleanup q [n] = y := by
      intro y other inside
      by_contra differ
      exact apart.forall member other differ List.mem_cons_self inside
    refine ⟨fun other => (nomatch clash _ other List.mem_cons_self),fun q' other => ?_⟩
    exact (Item.cleanup.inj (clash _ other List.mem_cons_self)).1.symm
  · intro all
    have single : ∀ x ∈ items, ∃ n, x.nodes = [n] ∧ (x = .node n ∨ ∃ q, x = .cleanup q [n]) := by
      intro x member
      cases x with
      | node n => exact ⟨n,rfl,.inl rfl⟩
      | cleanup q ns =>
        obtain ⟨n,rfl⟩ := sole q ns member
        exact ⟨n,rfl,.inr ⟨q,rfl⟩⟩
    refine ⟨fun x member => ?_,distinct.of_map.pairwise_of_forall_ne fun x left y right differ => ?_⟩
    · obtain ⟨n,nodes,-⟩ := single x member
      exact nodes ▸ List.nodup_singleton n
    · obtain ⟨n,first,isFirst⟩ := single x left
      obtain ⟨k,second,isSecond⟩ := single y right
      rw [Function.onFun,first,second]
      refine List.disjoint_singleton.mpr fun same => differ ?_
      obtain rfl : k = n := List.mem_singleton.mp same
      rcases isFirst with rfl | ⟨q,rfl⟩ <;> rcases isSecond with rfl | ⟨q',rfl⟩
      · rfl
      · exact absurd left (all q' k right).1
      · exact absurd right (all q k left).1
      · rw [(all q k left).2 q' right]

end Recovery

namespace Graph

open RegCode.Tree Recovery

/-- Everything is written once: each node outside of clean-up code, and clean-up code for each region.
So a node is repeated just when the clean-up code of a region is also written elsewhere, or for
another region. -/
theorem recoverOnce {m : Method} {g : Graph} (made : ofMethod m = .ok g) (d : Dominators)
    (policy : Policy) : ∃ r, g.splitTests.simplify.recover d policy = .ok r ∧
      (r.root.inventory.map Item.tag).Nodup ∧
      (∀ q ns, .cleanup q ns ∈ r.root.inventory →
        ∃ a, groupHandlers policy.handlers (ownHandlers g.splitTests.simplify q) = [a] ∧
          a.types = [anyThrown] ∧ ns = [(a.entry : Int)]) ∧
      r.root.sources.Perm (r.root.inventory.flatMap Item.nodes) ∧
      (r.root.sources.Nodup ↔ ∀ q n, .cleanup q [n] ∈ r.root.inventory →
        .node n ∉ r.root.inventory ∧ ∀ q', .cleanup q' [n] ∈ r.root.inventory → q' = q) := by
  obtain ⟨r,body,names,code,root,drafted⟩ := recoverDrafted g.splitTests.simplify d policy
  have items : r.root.inventory = inventoryAll body := by rw [root,inventoryRelabel,inventory]
  obtain ⟨s,s',once⟩ : ∃ s s', Once (Plan.ofGraph g.splitTests.simplify d policy) s
      (inventoryAll body) s' := by
    rcases drafted with rfl | ⟨entry,s,drafted⟩
    · exact ⟨{},{},.quiet fun _ => id⟩
    · exact draftOnce (shapedOfMethod made) (tested _ d policy) drafted
  rw [← items] at once
  have parts := sourcesInventory r.root
  refine ⟨r,code,once.distinct,once.sole,parts,parts.nodup_iff.trans (itemsApart once.distinct ?_)⟩
  intro q ns member
  obtain ⟨a,-,-,same⟩ := once.sole q ns member
  exact ⟨_,same⟩

end Graph

def Method.shared : Method := .short
  [.callOf 0 "g",.callOf 3 "done",.callOf 6 "k",.callOf 9 "done",.leave 12,.receive 13,
    .callOf 14 "done",.raise 17]
  [⟨0,3,[⟨"Ljava/io/IOException;",13⟩,⟨"",13⟩]⟩,⟨6,9,[⟨"Ljava/lang/RuntimeException;",13⟩,⟨"",13⟩]⟩]

namespace Graph

open Recovery

set_option maxRecDepth 100000 in
theorem sharedRepeats : (Method.shared.recovered? {}).any (fun x =>
    !decide x.2.root.sources.Nodup) = true := by
  simp only [Method.recovered?,ofMethod,Block.split,Block.starts,TryTable.ascending,simplify,renumber,
    reversePostorder,Flow.exploreNested,sortByHalves]
  decide +kernel

/-- The clean-up code of `shared` is written for both of its regions. -/
theorem recoverOnceShared : ∃ g r, ofMethod .shared = .ok g ∧
    g.splitTests.simplify.recover (Dominators.ofGraph g.splitTests.simplify) {} = .ok r ∧
    ¬r.root.sources.Nodup ∧ ¬∀ q n, .cleanup q [n] ∈ r.root.inventory →
      .node n ∉ r.root.inventory ∧ ∀ q', .cleanup q' [n] ∈ r.root.inventory → q' = q := by
  obtain ⟨g,r,made,code,repeated⟩ := recoveredAny sharedRepeats
  obtain ⟨r',code',-,-,-,single⟩ := recoverOnce made (Dominators.ofGraph g.splitTests.simplify) {}
  obtain rfl := Except.ok.inj (code.symm.trans code')
  have apart : ¬r.root.sources.Nodup := by simpa using repeated
  exact ⟨g,r,made,code,apart,mt single.mpr apart⟩

end Graph

end RegCode
