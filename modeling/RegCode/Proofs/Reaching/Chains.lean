import RegCode.Proofs.Reaching.Links

/-! Chains tell exactly which definitions reach which statements. They exist just when every use is
reached by a definition. -/
namespace RegCode

namespace Chains

variable {g : Graph}

theorem foldParams (ps : List VarId) (c : Chains) :
    (ps.foldl (fun c p => c.addDef p paramLoc) c).useDef = c.useDef ∧
      (ps.foldl (fun c p => c.addDef p paramLoc) c).home = c.home ∧
      (ps.foldl (fun c p => c.addDef p paramLoc) c).reaching = c.reaching ∧
      (ps.foldl (fun c p => c.addDef p paramLoc) c).dropped = c.dropped ∧
      (c.Mutual → (ps.foldl (fun c p => c.addDef p paramLoc) c).Mutual) := by
  induction ps generalizing c with
  | nil => exact ⟨rfl,rfl,rfl,rfl,id⟩
  | cons p ps ih =>
    obtain ⟨a,b,r,d,agree⟩ := ih (c.addDef p paramLoc)
    obtain ⟨a',b',r',d'⟩ := addDefFields c p paramLoc
    exact ⟨a.trans a',b.trans b',r.trans r',d.trans d',fun h => agree (mutualAddDef h p paramLoc)⟩

structure Fresh (g : Graph) (c : Chains) : Prop where
  agree : c.Mutual
  reaching : ∀ i ∈ g.rpo, Reaching.at? c.reaching g.vars.size i =
    Reaching.at? (Reaching.solve g) g.vars.size i
  dropped : c.dropped = []
  useDef : ∀ p s, g.StmtAt p s → ∀ v, c.useDef.get? (v,s.loc) =
    if v ∈ s.uses then some ((Reaching.before g p).get v) else none
  home : ∀ p s, g.StmtAt p s → c.home.get? s.loc = some p.node
  homed : ∀ l i, c.home.get? l = some i → i ∈ g.rpo ∧ l ∈ (g.node i).stmts.map (·.loc)

theorem servedIff : (∀ i ∈ g.rpo, Served (g.node i).stmts
    (Reaching.at? (Reaching.solve g) g.vars.size i)) ↔
      ∀ p s, g.StmtAt p s → ∀ v ∈ s.uses, (Reaching.before g p).get v ≠ [] := by
  constructor
  · intro h p s here v member
    exact h p.node here.1 p.index s here.2 v member
  · intro h i member k s here v use
    exact h ⟨i,k⟩ s ⟨member,here⟩ v use

theorem ofGraphOk (wired : g.Wired) (distinct : g.LocsDistinct) :
    (∃ c, ofGraph g = .ok c ∧ Fresh g c) ∧
        (∀ p s, g.StmtAt p s → ∀ v ∈ s.uses, (Reaching.before g p).get v ≠ []) ∨
      (∃ f, ofGraph g = .error f) ∧
        ¬∀ p s, g.StmtAt p s → ∀ v ∈ s.uses, (Reaching.before g p).get v ≠ [] := by
  rw [← servedIff]
  by_cases blank : g.isEmpty
  · have none : g.rpo = [] := wired.empty (by simpa [Graph.isEmpty] using blank)
    refine .inl ⟨⟨empty,by simp [ofGraph,blank],?_,by simp [none],rfl,?_,?_,?_⟩,by simp [none]⟩
    · exact fun v u d => by simp [uses,defsOfUse,empty,Table.getD]
    · exact fun p s h => by simpa [none] using h.1
    · exact fun p s h => by simpa [none] using h.1
    · exact fun l i listed => by simp [empty] at listed
  · rcases linkNodesOk g g.rpo { empty with reaching := Reaching.solve g } distinct
      (fun _ _ _ _ _ => rfl) with ⟨⟨c,ok,linked⟩,served⟩ | ⟨⟨f,fault⟩,unserved⟩
    · obtain ⟨table,home,reaching,dropped,agree⟩ := foldParams g.params c
      refine .inl ⟨⟨_,by simp only [ofGraph,blank,ok,bind,Except.bind]; rfl,?_,?_,?_,?_,?_,?_⟩,served⟩
      · exact agree (linked.agree fun v u d => by simp [uses,defsOfUse,empty,Table.getD])
      · exact fun i _ => by rw [reaching,linked.reaching]
      · rw [dropped,linked.dropped]; rfl
      · intro p s here v
        rw [table]
        exact linked.useDef p.node here.1 p.index s here.2 v
      · intro p s here
        rw [home]
        exact linked.home p.node here.1 s (List.mem_of_getElem? here.2)
      · intro l i listed
        rw [home] at listed
        by_cases known : l ∈ g.rpo.flatMap fun i => (g.node i).stmts.map (·.loc)
        · obtain ⟨j,member,there⟩ := List.mem_flatMap.mp known
          obtain ⟨s,inside,rfl⟩ := List.mem_map.mp there
          rw [linked.home j member s inside] at listed
          cases listed
          exact ⟨member,there⟩
        · rw [(linked.others l known).2] at listed
          simp [empty] at listed
    · exact .inr ⟨⟨f,by simp only [ofGraph,blank,fault,bind,Except.bind]; rfl⟩,unserved⟩

theorem foldCurrent (v : VarId) {size : Nat} (ss : List Stmt) (s : DefSet) (shaped : s.Shaped size)
    (bounded : Bounded size ss) :
    ss.foldl (fun cur t => if t.def? == some v then [t.loc] else cur) (s.get v) =
      (ss.foldl DefSet.after s).get v := by
  induction ss generalizing s with
  | nil => rfl
  | cons t ss ih =>
    rw [List.foldl_cons,List.foldl_cons,← ih _ (DefSet.shapedAfter shaped t) bounded.tail]
    congr 1
    cases defines : t.def? with
    | none => simp [DefSet.after,defines]
    | some w =>
      have inside := bounded t (List.mem_cons_self ..) w defines
      simp only [DefSet.after,defines,DefSet.getSet (shaped.size.symm ▸ inside)]
      by_cases same : v = w
      · subst same; simp
      · simp [same,Ne.symm same]

theorem stillDefinesOfReaches (distinct : g.LocsDistinct) {c : Chains} (fresh : Fresh g c)
    {v : VarId} {d : Loc} {q : Point} (reaches : g.Reaches v d q) : c.stillDefines g v d = true := by
  obtain ⟨p,defined,-⟩ := reaches
  cases defined with
  | @stmt i k s here defines =>
    have found := Graph.stmtAtLoc distinct here
    simp only at found
    simp [stillDefines,stmt?,fresh.home _ _ here,found,fresh.dropped,defines]
  | param member entry => simp [stillDefines]

theorem memDefsAt (wired : g.Wired) (distinct : g.LocsDistinct) {c : Chains} (fresh : Fresh g c)
    {p : Point} {s : Stmt} (here : g.StmtAt p s) {v : VarId} {d : Loc} :
    d ∈ c.defsAt g v s.loc ↔ g.Reaches v d p := by
  have short := Nat.le_of_lt (List.getElem?_eq_some_iff.mp here.2).1
  have shaped := (Reaching.solutionRest wired).2.1.kept.shaped.parts .start p.node
  have bounded := Reaching.boundedOfWired wired here.1
  have mem := Reaching.memBefore wired here.1 short (v := v) (d := d)
  have sets : c.defsAt g v s.loc =
      ((Reaching.before g p).get v).filter (c.stillDefines g v) := by
    simp only [defsAt,fresh.home p s here,Graph.takeWhileLoc distinct here,
      fresh.reaching p.node here.1]
    exact congrArg _ (foldCurrent v _ _ shaped (bounded.take p.index))
  rw [sets,List.mem_filter,mem]
  exact and_iff_left_of_imp (stillDefinesOfReaches distinct fresh)

/-- The passes come to rest; there are chains just when every use is reached by some definition;
the definitions at a statement and those of each use in it are exactly the ones that reach it; and
uses and definitions are linked both ways. -/
theorem reachingExact (g : Graph) (wired : g.Wired) (distinct : g.LocsDistinct) :
    Reaching.pass g g.vars.size (Reaching.solution g) = Reaching.solution g ∧
    ((∃ c, ofGraph g = .ok c) ↔
      ∀ p s, g.StmtAt p s → ∀ v ∈ s.uses, ∃ d, g.Reaches v d p) ∧
    ∀ c, ofGraph g = .ok c →
      (∀ p s, g.StmtAt p s → ∀ v,
        (∀ d, d ∈ c.defsAt g v s.loc ↔ g.Reaches v d p) ∧
        (v ∈ s.uses → ∃ ds, c.useDef.get? (v,s.loc) = some ds ∧ ∀ d, d ∈ ds ↔ g.Reaches v d p) ∧
        (v ∉ s.uses → c.useDef.get? (v,s.loc) = none)) ∧
      ∀ v u d, u ∈ c.uses v d ↔ d ∈ c.defsOfUse v u := by
  have mem : ∀ p s, g.StmtAt p s → ∀ v d, d ∈ (Reaching.before g p).get v ↔ g.Reaches v d p :=
    fun p s here v d => Reaching.memBefore wired here.1
      (Nat.le_of_lt (List.getElem?_eq_some_iff.mp here.2).1)
  have served : (∀ p s, g.StmtAt p s → ∀ v ∈ s.uses, (Reaching.before g p).get v ≠ []) ↔
      ∀ p s, g.StmtAt p s → ∀ v ∈ s.uses, ∃ d, g.Reaches v d p := by
    refine forall₄_congr fun p s here v => forall_congr' fun _ => ?_
    constructor
    · intro full
      obtain ⟨d,member⟩ := List.exists_mem_of_ne_nil _ full
      exact ⟨d,(mem p s here v d).mp member⟩
    · rintro ⟨d,reaches⟩
      exact List.ne_nil_of_mem ((mem p s here v d).mpr reaches)
  refine ⟨(Reaching.solutionRest wired).1,?_,?_⟩
  · rw [← served]
    rcases ofGraphOk wired distinct with ⟨⟨c,ok,-⟩,full⟩ | ⟨⟨f,fault⟩,empty⟩
    · exact ⟨fun _ => full,fun _ => ⟨c,ok⟩⟩
    · refine ⟨fun ⟨c,ok⟩ => ?_,fun full => absurd full empty⟩
      rw [fault] at ok
      contradiction
  · intro c ok
    rcases ofGraphOk wired distinct with ⟨⟨c',ok',fresh⟩,-⟩ | ⟨⟨f,fault⟩,-⟩
    · cases Except.ok.inj (ok.symm.trans ok')
      refine ⟨fun p s here v => ⟨fun d => memDefsAt wired distinct fresh here,fun use => ?_,
        fun unused => ?_⟩,fresh.agree⟩
      · exact ⟨_,by rw [fresh.useDef p s here,if_pos use],mem p s here v⟩
      · rw [fresh.useDef p s here,if_neg unused]
    · rw [fault] at ok
      contradiction

def counting : Graph where
  vars := ⟨#[{},{ register := 1 }]⟩
  entry := some 0
  store := #[
    { num := 0, stmts := [⟨0,.assign 0 (.const "I" 0) false⟩], succs := [1] },
    { num := 1, stmts := [⟨1,.assign 1 (.var 0) false⟩,⟨2,.assign 0 (.var 1) false⟩], succs := [1],
      preds := [0,1], catchSuccs := [2] },
    { num := 2, kind := .ret, stmts := [⟨3,.ret (some (.var 0))⟩], catchPreds := [1] }]
  nodes := [0,1,2]
  rpo := [0,1,2]
  nextLoc := 4

theorem countingWired : counting.Wired where
  inStore := by decide
  entry := by intro e h; cases h; decide
  empty := by intro h; cases h
  succs := by decide
  preds := by decide
  catchSuccs := by decide
  catchPreds := by decide
  defs := by
    have all : ∀ i ∈ counting.rpo, ∀ s ∈ (counting.node i).stmts,
        s.def?.all (· < counting.vars.size) = true := by decide
    intro i hi s hs v defines
    simpa [defines] using all i hi s hs
  params := by decide

theorem reachingExactCounting : counting.Wired ∧ counting.LocsDistinct ∧
    ∃ c, ofGraph counting = .ok c ∧ ∀ d, counting.Reaches 0 d ⟨2,0⟩ ↔ d ∈ [0,2] := by
  have distinct : counting.LocsDistinct := by unfold Graph.LocsDistinct; decide
  have computed : (ofGraph counting).toOption.map (·.defsAt counting 0 3) = some [0,2] := by
    decide +kernel
  cases ok : ofGraph counting with
  | error f => rw [ok] at computed; contradiction
  | ok c =>
    rw [ok] at computed
    have computed : c.defsAt counting 0 3 = [0,2] := Option.some.inj computed
    have all := ((reachingExact counting countingWired distinct).2.2 c ok).1 ⟨2,0⟩
      ⟨3,.ret (some (.var 0))⟩ ⟨by decide,rfl⟩ 0
    exact ⟨countingWired,distinct,c,rfl,fun d => by rw [← all.1 d,computed]⟩

end Chains

end RegCode
