import RegCode.Proofs.Reaching.Chains
import RegCode.Proofs.Chains.Editing
import RegCode.Proofs.Chains.Reading
import RegCode.Proofs.Chains.Substitution

/-! Which sites the two tables of links have entries for: one lists all definitions, with or without
uses, the other all uses and nothing else. -/
namespace RegCode

/-- Something defines the variable at the location. -/
def Graph.Defines (g : Graph) (v : VarId) (d : Loc) : Prop := ∃ p, g.DefinedAt v d p

/-- The statement at the location reads the variable. -/
def Graph.Reads (g : Graph) (v : VarId) (u : Loc) : Prop :=
  ∃ p s, g.StmtAt p s ∧ s.loc = u ∧ v ∈ s.uses

namespace Chains

variable {P : VarId → Loc → Prop} {c c' : Chains} {v : VarId} {d : Loc}

structure Grows (P : VarId → Loc → Prop) (c c' : Chains) : Prop where
  keeps : ∀ v d, c.defUse.contains (v,d) → c'.defUse.contains (v,d)
  within : ∀ v d, c'.defUse.contains (v,d) → c.defUse.contains (v,d) ∨ P v d
  sorted : (∀ v d, Locs.Canonical (c.uses v d)) → ∀ v d, Locs.Canonical (c'.uses v d)
  reaching : c'.reaching = c.reaching

theorem Grows.refl (P : VarId → Loc → Prop) (c : Chains) : Grows P c c :=
  ⟨fun _ _ => id,fun _ _ => .inl,id,rfl⟩

theorem Grows.trans {c₁ c₂ c₃ : Chains} (first : Grows P c₁ c₂) (second : Grows P c₂ c₃) :
    Grows P c₁ c₃ :=
  ⟨fun v d h => second.keeps v d (first.keeps v d h),
    fun v d h => (second.within v d h).elim (first.within v d) .inr,
    fun h => second.sorted (first.sorted h),second.reaching.trans first.reaching⟩

theorem Grows.mono {Q : VarId → Loc → Prop} (grows : Grows P c c') (wider : ∀ v d, P v d → Q v d) :
    Grows Q c c' :=
  ⟨grows.keeps,fun v d h => (grows.within v d h).imp id (wider v d),grows.sorted,grows.reaching⟩

theorem growsOfTable (same : c'.defUse = c.defUse) (reaching : c'.reaching = c.reaching) :
    Grows P c c' := by
  refine ⟨fun _ _ h => same ▸ h,fun _ _ h => .inl (same ▸ h),fun h v d => ?_,reaching⟩
  rw [uses,same]
  exact h v d

theorem containsAddUse (w : VarId) (use e : Loc) :
    (c.addUse v use d).defUse.contains (w,e) = (decide ((w,e) = (v,d)) || c.defUse.contains (w,e)) := by
  by_cases same : (w,e) = (v,d) <;> simp [addUse,Table.contains,same]

theorem growsAddUse (known : P v d) (use : Loc) : Grows P c (c.addUse v use d) := by
  refine ⟨fun w e h => ?_,fun w e h => ?_,fun h w e => ?_,rfl⟩
  · rw [containsAddUse,h,Bool.or_true]
  · rw [containsAddUse,Bool.or_eq_true,decide_eq_true_eq] at h
    exact h.symm.imp id fun same => by cases same; exact known
  · rw [usesAddUse]
    split
    · exact Locs.canonicalInsert (h v d)
    · exact h w e

theorem containsAddDef (w : VarId) (e : Loc) :
    (c.addDef v d).defUse.contains (w,e) = (decide ((w,e) = (v,d)) || c.defUse.contains (w,e)) := by
  unfold addDef
  split
  · rename_i known
    by_cases same : (w,e) = (v,d)
    · cases same
      simpa using known
    · simp [same]
  · by_cases same : (w,e) = (v,d) <;> simp [Table.contains,same]

theorem growsAddDef (known : P v d) : Grows P c (c.addDef v d) := by
  refine ⟨fun w e h => ?_,fun w e h => ?_,fun h w e => usesAddDef c v w d e ▸ h w e,
    (addDefFields c v d).2.2.1⟩
  · rw [containsAddDef,h,Bool.or_true]
  · rw [containsAddDef,Bool.or_eq_true,decide_eq_true_eq] at h
    exact h.symm.imp id fun same => by cases same; exact known

theorem growsFoldUse (use : Loc) (ds : List Loc) (known : ∀ d ∈ ds, P v d) (c : Chains) :
    Grows P c (ds.foldl (fun c d => c.addUse v use d) c) := by
  induction ds generalizing c with
  | nil => exact .refl P _
  | cons d ds ih =>
    exact (growsAddUse (known d (List.mem_cons_self ..)) use).trans
      (ih (fun e h => known e (List.mem_cons_of_mem _ h)) _)

theorem growsLinkUses {loc : Loc} {cur : DefSet} (known : ∀ v, ∀ d ∈ cur.get v, P v d)
    {vs : List VarId} (ok : linkUses loc cur vs c = .ok c') : Grows P c c' := by
  induction vs generalizing c with
  | nil => cases Except.ok.inj ok; exact .refl P _
  | cons v vs ih =>
    simp only [linkUses] at ok
    split at ok
    · exact ih ok
    · split at ok
      · contradiction
      · have table : Grows P c { c with useDef := c.useDef.insert (v,loc) (cur.get v) } :=
          growsOfTable rfl rfl
        exact table.trans ((growsFoldUse loc (cur.get v) (known v) _).trans (ih ok))

theorem memOfAfter {cur : DefSet} {s : Stmt} (member : d ∈ (cur.after s).get v) :
    d ∈ cur.get v ∨ s.def? = some v ∧ d = s.loc := by
  unfold DefSet.after at member
  split at member
  · rename_i w defines
    by_cases inside : w < cur.defs.size
    · rw [DefSet.getSet inside] at member
      split at member
      · rename_i same
        exact .inr ⟨same ▸ defines,List.mem_singleton.mp member⟩
      · exact .inl member
    · rw [DefSet.set,Array.setIfInBounds,dif_neg inside] at member
      exact .inl member
  · exact .inl member

theorem growsLinkStmts {node : NodeId} {ss : List Stmt} {cur : DefSet}
    (known : ∀ v, ∀ d ∈ cur.get v, P v d) (defines : ∀ s ∈ ss, ∀ v, s.def? = some v → P v s.loc)
    (ok : linkStmts node ss cur c = .ok c') :
    Grows P c c' ∧ ∀ s ∈ ss, ∀ v, s.def? = some v → c'.defUse.contains (v,s.loc) := by
  induction ss generalizing cur c with
  | nil => cases Except.ok.inj ok; exact ⟨.refl P _,by simp⟩
  | cons s ss ih =>
    simp only [linkStmts,bind,Except.bind] at ok
    split at ok
    · contradiction
    · rename_i linked used
      have home : Grows P c { c with home := c.home.insert s.loc node } := growsOfTable rfl rfl
      have first := home.trans (growsLinkUses known used)
      have own := defines s (List.mem_cons_self ..)
      have next : ∀ v, ∀ d ∈ (cur.after s).get v, P v d := by
        intro v d member
        rcases memOfAfter member with old | ⟨here,rfl⟩
        · exact known v d old
        · exact own v here
      have others := fun t h => defines t (List.mem_cons_of_mem _ h)
      cases here : s.def? with
      | none =>
        simp only [here] at ok
        obtain ⟨rest,listed⟩ := ih next others ok
        refine ⟨first.trans rest,fun t member v defined => ?_⟩
        rcases List.mem_cons.mp member with rfl | member
        · rw [here] at defined; contradiction
        · exact listed t member v defined
      | some w =>
        simp only [here] at ok
        obtain ⟨rest,listed⟩ := ih next others ok
        refine ⟨(first.trans (growsAddDef (own w here))).trans rest,fun t member v defined => ?_⟩
        rcases List.mem_cons.mp member with rfl | member
        · rw [here] at defined
          cases defined
          exact rest.keeps _ _ (by simp [containsAddDef])
        · exact listed t member v defined

theorem growsLinkNodes {g : Graph} {is : List NodeId}
    (known : ∀ i ∈ is, ∀ v, ∀ d ∈ (Reaching.at? c.reaching g.vars.size i).get v, P v d)
    (defines : ∀ i ∈ is, ∀ s ∈ (g.node i).stmts, ∀ v, s.def? = some v → P v s.loc)
    (ok : linkNodes g is c = .ok c') :
    Grows P c c' ∧
      ∀ i ∈ is, ∀ s ∈ (g.node i).stmts, ∀ v, s.def? = some v → c'.defUse.contains (v,s.loc) := by
  induction is generalizing c with
  | nil => cases Except.ok.inj ok; exact ⟨.refl P _,by simp⟩
  | cons i is ih =>
    simp only [linkNodes,bind,Except.bind] at ok
    split at ok
    · contradiction
    · rename_i c₁ linked
      obtain ⟨first,own⟩ := growsLinkStmts (known i (List.mem_cons_self ..))
        (defines i (List.mem_cons_self ..)) linked
      obtain ⟨rest,listed⟩ := ih (fun j h => first.reaching ▸ known j (List.mem_cons_of_mem _ h))
        (fun j h => defines j (List.mem_cons_of_mem _ h)) ok
      refine ⟨first.trans rest,fun j member s here v defined => ?_⟩
      rcases List.mem_cons.mp member with rfl | member
      · exact rest.keeps _ _ (own s here v defined)
      · exact listed j member s here v defined

theorem growsParams (ps : List VarId) (known : ∀ p ∈ ps, P p paramLoc) (c : Chains) :
    Grows P c (ps.foldl (fun c p => c.addDef p paramLoc) c) ∧
      ∀ p ∈ ps, (ps.foldl (fun c p => c.addDef p paramLoc) c).defUse.contains (p,paramLoc) := by
  induction ps generalizing c with
  | nil => exact ⟨.refl P c,by simp⟩
  | cons p ps ih =>
    have first : Grows P c (c.addDef p paramLoc) := growsAddDef (known p (List.mem_cons_self ..))
    obtain ⟨rest,listed⟩ := ih (fun q h => known q (List.mem_cons_of_mem _ h)) (c.addDef p paramLoc)
    refine ⟨first.trans rest,fun q member => ?_⟩
    rcases List.mem_cons.mp member with rfl | member
    · exact rest.keeps _ _ (by simp [containsAddDef])
    · exact listed q member

structure Listed (g : Graph) (c : Chains) : Prop where
  defined : ∀ v d, c.defUse.contains (v,d) ↔ g.Defines v d
  sorted : ∀ v d, Locs.Canonical (c.uses v d)
  others : ∀ v u, u ∉ (g.rpo.flatMap fun i => (g.node i).stmts.map (·.loc)) →
    c.useDef.get? (v,u) = none

theorem listed {g : Graph} (wired : g.Wired) (distinct : g.LocsDistinct) (ok : ofGraph g = .ok c) :
    Listed g c := by
  by_cases blank : g.isEmpty
  · have none : g.entry = none := by simpa [Graph.isEmpty] using blank
    rw [ofGraph,if_pos blank] at ok
    cases Except.ok.inj ok
    refine ⟨fun v d => ⟨fun h => by simp [empty,Table.contains] at h,?_⟩,fun v d => ?_,
      fun _ _ _ => rfl⟩
    · rintro ⟨p,defined⟩
      cases defined with
      | stmt here defines => exact absurd here.1 (by simp [wired.empty none])
      | param member entry => simp [none] at entry
    · simp [uses,empty,Table.getD,Locs.Canonical]
  · obtain ⟨e,entry⟩ := Option.ne_none_iff_exists'.mp
      (show g.entry ≠ none by simpa [Graph.isEmpty] using blank)
    rcases linkNodesOk g g.rpo { empty with reaching := Reaching.solve g } distinct
      (fun _ _ _ _ _ => rfl) with ⟨⟨c₁,linked,table⟩,-⟩ | ⟨⟨f,fault⟩,-⟩
    · have starts : ∀ i ∈ g.rpo, ∀ v, ∀ d ∈ (Reaching.at? (Reaching.solve g) g.vars.size i).get v,
          g.Defines v d := fun i member v d held =>
        have reaches := (Reaching.memBefore (p := ⟨i,0⟩) wired member (Nat.zero_le _)).mp held
        reaches.imp fun _ => And.left
      have defines : ∀ i ∈ g.rpo, ∀ s ∈ (g.node i).stmts, ∀ v, s.def? = some v → g.Defines v s.loc := by
        intro i member s here v defines
        obtain ⟨k,place⟩ := List.getElem?_of_mem here
        exact ⟨_,.stmt (i := i) (k := k) ⟨member,place⟩ defines⟩
      obtain ⟨nodes,stated⟩ := growsLinkNodes (c := { empty with reaching := Reaching.solve g })
        (P := g.Defines) starts defines linked
      obtain ⟨params,own⟩ := growsParams g.params
        (fun p member => show g.Defines p paramLoc from ⟨_,.param member entry⟩) c₁
      have all := nodes.trans params
      simp only [ofGraph,blank,linked,bind,Except.bind] at ok
      cases Except.ok.inj ok
      refine ⟨fun v d => ⟨fun h => ?_,?_⟩,all.sorted fun v d => ?_,fun v u other => ?_⟩
      · exact (all.within v d h).resolve_left (by simp [empty,Table.contains])
      · rintro ⟨p,defined⟩
        cases defined with
        | stmt here defines =>
          exact params.keeps _ _ (stated _ here.1 _ (List.mem_of_getElem? here.2) v defines)
        | param member entry => exact own v member
      · simp [uses,empty,Table.getD,Locs.Canonical]
      · rw [(foldParams g.params c₁).1,(table.others u other).1 v]
        rfl
    · simp only [ofGraph,blank,fault,bind,Except.bind] at ok
      contradiction

end Chains

/-! What the rewriting passes keep of a graph and its chains. The sets at the start of every node
stay as they were made. Of what they hold, all that is still defined still comes there; the links
name nothing else. -/

namespace Stmt

theorem defWithoutResult (s : Stmt) : s.withoutResult.def? = none := by
  obtain ⟨loc,act⟩ := s
  cases act <;> rfl

theorem withoutResultNone {s : Stmt} (none : s.def? = none) : s.withoutResult = s := by
  obtain ⟨loc,act⟩ := s
  cases act <;> simp [def?,Action.def?,withoutResult,Action.withoutResult] at none ⊢

end Stmt

def DefSet.latest (v : VarId) (cur : List Loc) (ss : List Stmt) : List Loc :=
  ss.foldl (fun cur s => if s.def? == some v then [s.loc] else cur) cur

theorem DefSet.latestShift {edit : Stmt → Option Stmt} {v : VarId} {d : Loc}
    (locs : ∀ s t, edit s = some t → t.loc = s.loc)
    (defs : ∀ s t v, edit s = some t → t.def? = some v → s.def? = some v) {ss : List Stmt}
    (stays : ∀ s ∈ ss, s.loc = d → s.def? = some v → ∃ t, edit s = some t ∧ t.def? = some v)
    {cur cur' : List Loc} (base : d ∈ cur → d ∈ cur') (member : d ∈ latest v cur ss) :
    d ∈ latest v cur' (ss.filterMap edit) := by
  induction ss generalizing cur cur' with
  | nil => exact base member
  | cons s ss ih =>
    have rest := fun t h => stays t (List.mem_cons_of_mem _ h)
    have own := stays s (List.mem_cons_self ..)
    rw [latest,List.foldl_cons] at member
    cases kept : edit s with
    | none =>
      rw [List.filterMap_cons_none kept]
      refine ih rest (fun held => ?_) member
      split at held
      · rename_i defines
        obtain ⟨t,remains,-⟩ := own (List.mem_singleton.mp held).symm (by simpa using defines)
        rw [kept] at remains
        contradiction
      · exact base held
    | some t =>
      rw [List.filterMap_cons_some kept,latest,List.foldl_cons]
      refine ih rest (fun held => ?_) member
      by_cases defines : s.def? = some v
      · rw [if_pos (by simpa using defines)] at held
        obtain ⟨t',remains,defines'⟩ := own (List.mem_singleton.mp held).symm defines
        rw [kept] at remains
        cases remains
        rw [if_pos (by simpa using defines'),locs s t kept]
        exact held
      · rw [if_neg (by simpa using defines)] at held
        rw [if_neg (by simpa using fun h => defines (defs s t v kept h))]
        exact base held

namespace Analysed

variable {a b : Analysed} {edit : Stmt → Option Stmt} {p q : Point} {s t : Stmt} {v : VarId} {d u : Loc}

def told (a : Analysed) (v : VarId) (p : Point) : List Loc :=
  DefSet.latest v ((Reaching.at? a.chains.reaching a.graph.vars.size p.node).get v)
    ((a.graph.node p.node).stmts.take p.index)

structure Grounded (a : Analysed) : Prop where
  wired : a.graph.Wired
  distinct : a.graph.LocsDistinct
  reserved : ∀ i ∈ a.graph.rpo, paramLoc ∉ (a.graph.node i).stmts.map (·.loc)
  homed : a.Homed
  placed : ∀ p s, a.graph.StmtAt p s → a.chains.home.get? s.loc = some p.node
  plain : ∀ p s, a.graph.StmtAt p s → s.loc ∈ a.chains.dropped → s.def? = none
  starts : ∀ i ∈ a.graph.rpo, ∀ v, ∀ d ∈ a.told v ⟨i,0⟩,
    d = paramLoc ∨ a.graph.Defines v d → a.graph.Reaches v d ⟨i,0⟩

structure Tied (a : Analysed) : Prop extends Grounded a where
  defined : ∀ v d, a.chains.defUse.contains (v,d) ↔ a.graph.Defines v d
  read : ∀ v u, a.chains.useDef.contains (v,u) ↔ a.graph.Reads v u
  agree : a.chains.Mutual
  usesSorted : ∀ v d, Locs.Canonical (a.chains.uses v d)
  defsSorted : ∀ v u, Locs.Canonical (a.chains.defsOfUse v u)
  served : ∀ v u, a.graph.Reads v u → a.chains.defsOfUse v u ≠ []
  links : ∀ v u, ∀ d ∈ a.chains.defsOfUse v u, d ∈ a.chains.defsAt a.graph v u

def Full (a : Analysed) (v : VarId) (u : Loc) : Prop :=
  ∀ d, a.graph.Arrives v d u → d ∈ a.chains.defsOfUse v u

/-- Every definition that reaches a use is linked to it. -/
def Exact (a : Analysed) : Prop := ∀ v u, a.graph.Reads v u → a.Full v u

theorem Grounded.stmt (grounded : a.Grounded) :
    a.stmt? u = some s ↔ ∃ p, a.graph.StmtAt p s ∧ s.loc = u := by
  constructor
  · intro found
    obtain ⟨p,t,here,loc,same⟩ := grounded.homed.stmtAt found
    rcases same with rfl | rfl
    · exact ⟨p,here,loc⟩
    · simp only [stmt?,Chains.stmt?,bind,Option.bind_eq_some_iff,Option.some.injEq] at found
      obtain ⟨i,listed,r,there,same⟩ := found
      have home := grounded.placed p t here
      rw [loc,listed] at home
      cases home
      rw [← loc,Graph.stmtAtLoc grounded.distinct here] at there
      cases there
      by_cases gone : u ∈ a.chains.dropped
      · have plain := Stmt.withoutResultNone (grounded.plain p t here (loc ▸ gone))
        exact ⟨p,plain.symm ▸ here,loc⟩
      · rw [if_neg (by simpa using gone)] at same
        exact ⟨p,same ▸ here,loc⟩
  · rintro ⟨p,here,rfl⟩
    have found : a.stmt? s.loc =
        some (if a.chains.dropped.contains s.loc then s.withoutResult else s) := by
      simp [stmt?,Chains.stmt?,grounded.placed p s here,Graph.stmtAtLoc grounded.distinct here]
    rw [found]
    split
    · rename_i gone
      rw [Stmt.withoutResultNone (grounded.plain p s here (by simpa using gone))]
    · rfl

theorem Grounded.stillDefines (grounded : a.Grounded) :
    a.chains.stillDefines a.graph v d = true ↔
      d = paramLoc ∨ ∃ p s, a.graph.StmtAt p s ∧ s.loc = d ∧ s.def? = some v := by
  have found : ∀ s, a.chains.stmt? a.graph d = some s ↔ ∃ p, a.graph.StmtAt p s ∧ s.loc = d :=
    fun s => grounded.stmt
  simp only [Chains.stillDefines,Bool.or_eq_true,beq_iff_eq,Option.any_eq_true,found]
  refine or_congr_right ⟨?_,?_⟩
  · rintro ⟨s,⟨p,here,loc⟩,defines⟩
    exact ⟨p,s,here,loc,defines⟩
  · rintro ⟨p,s,here,loc,defines⟩
    exact ⟨s,⟨p,here,loc⟩,defines⟩

theorem Grounded.memDefsAt (grounded : a.Grounded) (here : a.graph.StmtAt p s) :
    d ∈ a.chains.defsAt a.graph v s.loc ↔
      d ∈ a.told v p ∧ (d = paramLoc ∨ a.graph.Defines v d) := by
  have sets : a.chains.defsAt a.graph v s.loc =
      (a.told v p).filter (a.chains.stillDefines a.graph v) := by
    simp only [Chains.defsAt,grounded.placed p s here,Graph.takeWhileLoc grounded.distinct here]
    rfl
  rw [sets,List.mem_filter,grounded.stillDefines]
  refine and_congr_right fun _ => ⟨?_,?_⟩
  · rintro (param | ⟨q,t,there,rfl,defines⟩)
    · exact .inl param
    · exact .inr ⟨q.next,.stmt there defines⟩
  · rintro (param | ⟨q,defined⟩)
    · exact .inl param
    · cases defined with
      | stmt there defines => exact .inr ⟨_,_,there,rfl,defines⟩
      | param member entry => exact .inl rfl

theorem toldNext {i : NodeId} {k : Nat} (here : (a.graph.node i).stmts[k]? = some s) :
    a.told v ⟨i,k + 1⟩ = if s.def? = some v then [s.loc] else a.told v ⟨i,k⟩ := by
  simp [told,DefSet.latest,List.take_add_one,here]

theorem Grounded.reaches (grounded : a.Grounded) {i : NodeId} (member : i ∈ a.graph.rpo) {k : Nat}
    (short : k ≤ (a.graph.node i).stmts.length) (told : d ∈ a.told v ⟨i,k⟩)
    (defined : d = paramLoc ∨ a.graph.Defines v d) : a.graph.Reaches v d ⟨i,k⟩ := by
  induction k with
  | zero => exact grounded.starts i member v d told defined
  | succ k ih =>
    have here : (a.graph.node i).stmts[k]? = some (a.graph.node i).stmts[k] :=
      List.getElem?_eq_getElem short
    rw [toldNext here] at told
    split at told
    · rename_i defines
      rw [List.mem_singleton.mp told]
      exact ⟨_,.stmt ⟨member,here⟩ defines,.stay⟩
    · rename_i other
      obtain ⟨p,origin,way⟩ := ih (Nat.le_of_succ_le short) told
      exact ⟨p,origin,.next way here other⟩

theorem Tied.reaches (tied : a.Tied) (here : a.graph.StmtAt p s)
    (linked : d ∈ a.chains.defsOfUse v s.loc) : a.graph.Reaches v d p := by
  obtain ⟨told,defined⟩ := (tied.memDefsAt here).mp (tied.links v s.loc d linked)
  exact tied.toGrounded.reaches here.1 (Nat.le_of_lt (List.getElem?_eq_some_iff.mp here.2).1) told defined

theorem entries {c : Chains} (agree : c.Mutual) (linked : d ∈ c.defsOfUse v u) :
    c.useDef.contains (v,u) ∧ c.defUse.contains (v,d) := by
  constructor
  · cases held : c.useDef.get? (v,u) with
    | none => simp [Chains.defsOfUse,Table.getD,held] at linked
    | some ds => simp [Table.contains,held]
  · have used := (agree v u d).mpr linked
    cases held : c.defUse.get? (v,d) with
    | none => simp [Chains.uses,Table.getD,held] at used
    | some us => simp [Table.contains,held]

theorem Tied.linked (tied : a.Tied) (linked : d ∈ a.chains.defsOfUse v u) :
    a.graph.Reads v u ∧ a.graph.Defines v d := by
  obtain ⟨use,definition⟩ := entries tied.agree linked
  exact ⟨(tied.read v u).mp use,(tied.defined v d).mp definition⟩

section Edits

open Graph

variable (edited : Edited edit a.graph b.graph) (reaching : b.chains.reaching = a.chains.reaching)

include edited reaching

theorem toldShift (member : p.node ∈ a.graph.rpo) (stays : a.graph.Stays edit v d)
    (told : d ∈ a.told v p) : d ∈ b.told v (a.graph.shift edit p) := by
  have taken : ((b.graph.node p.node).stmts).take (a.graph.shift edit p).index =
      ((a.graph.node p.node).stmts.take p.index).filterMap edit := by
    conv_lhs => rw [edited.stmts _ member,← List.take_append_drop p.index (a.graph.node p.node).stmts,
      List.filterMap_append]
    exact List.take_left
  have vars : b.graph.vars = a.graph.vars := by rw [edited.thins.rest]
  rw [Analysed.told,show (a.graph.shift edit p).node = p.node from rfl,taken,reaching,vars]
  refine DefSet.latestShift edited.locs edited.defs (fun s here loc defines => ?_) id told
  obtain ⟨k,place⟩ := List.getElem?_of_mem (List.mem_of_mem_take here)
  exact stays ⟨p.node,k⟩ s ⟨member,place⟩ loc defines

theorem Grounded.rework (grounded : a.Grounded) (homed : b.Homed)
    (placed : ∀ p s, b.graph.StmtAt p s → b.chains.home.get? s.loc = some p.node)
    (plain : ∀ p s, b.graph.StmtAt p s → s.loc ∈ b.chains.dropped → s.def? = none) : b.Grounded := by
  have thins := edited.thins
  refine ⟨thins.wired grounded.wired,thins.distinct grounded.distinct,fun i member there => ?_,homed,
    placed,plain,fun i member v d told defined => ?_⟩
  · exact grounded.reserved i (edited.rpo ▸ member) ((thins.nodes i).locs.subset there)
  · have stays : a.graph.Stays edit v d := by
      rcases defined with rfl | ⟨p',remains⟩
      · exact staysParam grounded.reserved
      · exact edited.stays grounded.distinct grounded.reserved remains
    have before : d = paramLoc ∨ a.graph.Defines v d := defined.imp id fun remains =>
      (edited.definedBack remains.choose_spec).imp fun _ => And.left
    have told' : d ∈ a.told v ⟨i,0⟩ := by
      have vars : b.graph.vars = a.graph.vars := by rw [thins.rest]
      rw [Analysed.told,reaching,vars] at told
      exact told
    exact edited.reachesShift grounded.wired
      (grounded.starts i (edited.rpo ▸ member) v d told' before) stays

theorem Grounded.defsAtShift (grounded : a.Grounded) (ground : b.Grounded) (reads : b.graph.Reads v u)
    (defined : b.graph.Defines v d) (member : d ∈ a.chains.defsAt a.graph v u) :
    d ∈ b.chains.defsAt b.graph v u := by
  obtain ⟨p',t,here,rfl,-⟩ := reads
  obtain ⟨p,s,source,kept,rfl⟩ := edited.stmtBack here
  rw [edited.locs s t kept,grounded.memDefsAt source] at member
  rw [ground.memDefsAt here]
  obtain ⟨p',remains⟩ := defined
  have stays := edited.stays grounded.distinct grounded.reserved remains
  exact ⟨toldShift edited reaching source.1 stays member.1,.inr ⟨p',remains⟩⟩

theorem Tied.rework (tied : a.Tied) (homed : b.Homed)
    (placed : ∀ p s, b.graph.StmtAt p s → b.chains.home.get? s.loc = some p.node)
    (plain : ∀ p s, b.graph.StmtAt p s → s.loc ∈ b.chains.dropped → s.def? = none)
    (defined : ∀ v d, b.chains.defUse.contains (v,d) ↔ b.graph.Defines v d)
    (read : ∀ v u, b.chains.useDef.contains (v,u) ↔ b.graph.Reads v u) (agree : b.chains.Mutual)
    (usesSorted : ∀ v d, Locs.Canonical (b.chains.uses v d))
    (defsSorted : ∀ v u, Locs.Canonical (b.chains.defsOfUse v u))
    (served : ∀ v u, b.graph.Reads v u → b.chains.defsOfUse v u ≠ [])
    (links : ∀ v u, ∀ d ∈ b.chains.defsOfUse v u, d ∈ a.chains.defsAt a.graph v u) : b.Tied := by
  have ground := tied.toGrounded.rework edited reaching homed placed plain
  refine ⟨ground,defined,read,agree,usesSorted,defsSorted,served,fun v u d linked => ?_⟩
  obtain ⟨use,definition⟩ := entries agree linked
  exact tied.toGrounded.defsAtShift edited reaching ground ((read v u).mp use)
    ((defined v d).mp definition) (links v u d linked)

omit reaching

variable (here : a.graph.StmtAt p s) (defines : s.def? = some v)
  (only : ∀ t, t.loc ≠ s.loc → edit t = some t)

include here defines only

theorem Grounded.definesLeft (grounded : a.Grounded)
    (lost : ∀ t, edit s = some t → t.def? ≠ some v) (w : VarId) (e : Loc) :
    b.graph.Defines w e ↔ a.graph.Defines w e ∧ (w,e) ≠ (v,s.loc) := by
  constructor
  · rintro ⟨p',remains⟩
    obtain ⟨q,before,-⟩ := edited.definedBack remains
    refine ⟨⟨q,before⟩,fun same => ?_⟩
    cases same
    obtain ⟨t,kept,defines'⟩ := edited.stays grounded.distinct grounded.reserved remains p s here rfl defines
    exact lost t kept defines'
  · rintro ⟨⟨q,defined⟩,other⟩
    refine ⟨_,edited.definedShift defined fun q t there loc defines' => ⟨t,only t ?_,defines'⟩⟩
    intro same
    obtain ⟨-,rfl⟩ := there.unique grounded.distinct here same
    rw [defines] at defines'
    cases defines'
    exact other (by rw [loc])

theorem Tied.exactLeft (tied : a.Tied) (unused : a.chains.uses v s.loc = [])
    (reads : ∀ s t, edit s = some t → ∀ v ∈ t.uses, v ∈ s.uses)
    (links : ∀ w u, b.graph.Reads w u → b.chains.defsOfUse w u = a.chains.defsOfUse w u)
    (exact_ : a.Exact) : b.Exact := by
  intro w u use e ⟨p',t,place,loc,reaches⟩
  rw [links w u use]
  obtain ⟨p'',t',place',loc',member⟩ := use
  obtain ⟨rfl,rfl⟩ := place.unique (edited.thins.distinct tied.distinct) place' (loc.trans loc'.symm)
  obtain ⟨q,r,source,kept,rfl⟩ := edited.stmtBack place
  have left : r.loc = u := (edited.locs r t kept).symm.trans loc
  have read : a.graph.Reads w u := ⟨q,r,source,left,reads r t kept w member⟩
  rcases edited.reachesBack tied.wired source kept reaches with old | ⟨l,x,there,assigns,gone,comes⟩
  · exact exact_ w u read e ⟨q,r,source,left,old⟩
  · have used := (tied.agree w u x.loc).mpr (exact_ w u read x.loc ⟨q,r,source,left,comes⟩)
    have same : x.loc = s.loc := by
      by_contra other
      exact gone x (only x other) assigns
    obtain ⟨-,rfl⟩ := there.unique tied.distinct here same
    rw [defines] at assigns
    cases assigns
    rw [unused] at used
    contradiction

end Edits

section Rewriting

variable {l : Loc} {f : Stmt → Stmt} (edited : Graph.Edited (Stmt.rewrite l f) a.graph b.graph)
  (locs : ∀ s, (f s).loc = s.loc) (defs : ∀ s, (f s).def? = s.def?)

include edited

theorem Grounded.placedRewrite (grounded : a.Grounded) (home : b.chains.home = a.chains.home)
    (here : b.graph.StmtAt p t) : b.chains.home.get? t.loc = some p.node := by
  obtain ⟨q,s,source,kept,rfl⟩ := edited.stmtBack here
  rw [home,edited.locs s t kept,grounded.placed q s source]
  rfl

include defs in
theorem Grounded.plainRewrite (grounded : a.Grounded) (dropped : b.chains.dropped = a.chains.dropped)
    (here : b.graph.StmtAt p t) (gone : t.loc ∈ b.chains.dropped) : t.def? = none := by
  obtain ⟨q,s,source,kept,-⟩ := edited.stmtBack here
  rw [dropped,edited.locs s t kept] at gone
  have plain := grounded.plain q s source gone
  cases Option.some.inj kept
  split
  · rw [defs,plain]
  · exact plain

theorem readsRewrite (uses : ∀ s w, w ∈ (f s).uses ↔ w ∈ s.uses) (w : VarId) (u : Loc) :
    b.graph.Reads w u ↔ a.graph.Reads w u := by
  have same : ∀ s t, Stmt.rewrite l f s = some t → (w ∈ t.uses ↔ w ∈ s.uses) := by
    intro s t kept
    cases Option.some.inj kept
    split
    · exact uses s w
    · rfl
  constructor
  · rintro ⟨p',t,there,rfl,member⟩
    obtain ⟨q,s,source,kept,-⟩ := edited.stmtBack there
    exact ⟨q,s,source,(edited.locs s t kept).symm,(same s t kept).mp member⟩
  · rintro ⟨q,s,source,rfl,member⟩
    exact ⟨_,_,edited.stmtAt source rfl,edited.locs s _ rfl,(same s _ rfl).mpr member⟩

include defs

theorem definesRewrite (w : VarId) (e : Loc) : b.graph.Defines w e ↔ a.graph.Defines w e := by
  constructor
  · rintro ⟨p',remains⟩
    exact (edited.definedBack remains).imp fun _ => And.left
  · rintro ⟨q,defined⟩
    refine ⟨_,edited.definedShift defined fun _ t _ _ defines => ⟨_,rfl,?_⟩⟩
    split
    · exact (defs t).trans defines
    · exact defines

theorem Grounded.arrivesRewrite (grounded : a.Grounded) {w : VarId} {e u : Loc} :
    b.graph.Arrives w e u ↔ a.graph.Arrives w e u := by
  constructor
  · rintro ⟨p,t,there,rfl,reaches⟩
    obtain ⟨s,source,same⟩ := edited.rewriteAt.mp there
    exact ⟨p,s,source,(edited.locs s t (congrArg some same)).symm,
      (edited.reachesRewrite grounded.wired defs source).mp reaches⟩
  · rintro ⟨p,s,source,rfl,reaches⟩
    exact ⟨p,_,edited.rewriteAt.mpr ⟨s,source,rfl⟩,edited.locs s _ rfl,
      (edited.reachesRewrite grounded.wired defs source).mpr reaches⟩

end Rewriting

end Analysed

end RegCode
