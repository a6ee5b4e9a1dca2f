import RegCode.Proofs.Chains.Thinning
import RegCode.Proofs.Reaching.Exact
import RegCode.Proofs.Reaching.Chains

/-! When the value of a definition may take the place of its use. The sets that a substitution
compares name the definitions that reach both places. A definition inside a loop may be in both and
yet be carried out on the way from one to the other. -/
namespace RegCode

namespace Analysed

/-- Chains as they are made, with dead code removed and values substituted any number of times. -/
inductive Refined : Analysed → Prop where
  | made {g c} (wired : g.Wired) (distinct : g.LocsDistinct) (connected : g.Connected)
      (reserved : ∀ i ∈ g.rpo, paramLoc ∉ (g.node i).stmts.map (·.loc))
      (ok : Chains.ofGraph g = .ok c) : Refined ⟨g,c⟩
  | swept {a} (before : Refined a) : Refined a.eliminateDeadCode.1
  | tried {a} (before : Refined a) (o : PropagateOptions) (u : Loc) (n : Nat) (v : VarId) :
      Refined (propagateVar o u (a,n) v).1

structure Sane (a : Analysed) : Prop where
  wired : a.graph.Wired
  distinct : a.graph.LocsDistinct
  connected : a.graph.Connected
  reserved : ∀ i ∈ a.graph.rpo, paramLoc ∉ (a.graph.node i).stmts.map (·.loc)
  homed : a.Homed

theorem Sane.thins {a b : Analysed} (sane : a.Sane) (thins : a.Thins b) : b.Sane := by
  refine ⟨thins.graph.wired sane.wired,thins.graph.distinct sane.distinct,
    thins.graph.connected sane.connected,fun i member there => ?_,thins.homed sane.homed⟩
  rw [thins.graph.rest] at member
  exact sane.reserved i member ((thins.graph.nodes i).locs.subset there)

theorem Refined.sane {a : Analysed} (refined : a.Refined) : a.Sane := by
  induction refined with
  | @made g c wired distinct connected reserved ok =>
    rcases Chains.ofGraphOk wired distinct with ⟨⟨c',ok',fresh⟩,-⟩ | ⟨⟨f,fault⟩,-⟩
    · cases Except.ok.inj (ok.symm.trans ok')
      exact ⟨wired,distinct,connected,reserved,fresh.homed⟩
    · rw [fault] at ok
      contradiction
  | swept before ih => exact ih.thins (thinsEliminateFrom ..)
  | tried before o u n v ih => exact ih.thins (thinsPropagateVar o u (_,n) v)

theorem Refined.propagate {a : Analysed} (refined : a.Refined) (o : PropagateOptions) :
    (a.propagate o).1.Refined :=
  propagateInduction o (fun _ u n v before => before.tried o u n v) refined

end Analysed

theorem Chains.Fresh.reaches {g : Graph} {c : Chains} (fresh : c.Fresh g) (wired : g.Wired) {p : Point}
    {s : Stmt} (here : g.StmtAt p s) {v : VarId} {d : Loc} (member : d ∈ c.defsOfUse v s.loc) :
    g.Reaches v d p := by
  have short := Nat.le_of_lt (List.getElem?_eq_some_iff.mp here.2).1
  rw [defsOfUse,Table.getD,fresh.useDef p s here] at member
  split at member
  · exact (Reaching.memBefore wired here.1 short).mp member
  · simp at member

namespace Analysed

structure Checked (a : Analysed) (u : Loc) (v : VarId) (d : Loc) (value : Expr) : Prop where
  only : a.chains.defsOfUse v u = [d]
  assigns : a.assignment? d = some (v,value)
  apart : d ≠ u
  once : value.isConstant = true ∨ (a.chains.uses v d).length ≤ 1
  same : ∀ x ∈ value.vars, a.chains.defsOfUse x d = a.chains.defsAt a.graph x u

structure Picked (a : Analysed) (u : Loc) (s : Stmt) (v : VarId) (d : Loc) (value : Expr) : Prop
    extends Checked a u v d value where
  few : value.isLeaf = true ∨ s.uses.count v ≤ 1
  placed : value.hasEffects = true ∨ value.readsMemory = true → ∃ i, a.chains.home.get? d = some i ∧
    a.chains.home.get? u = some i ∧ canMove (a.graph.node i).stmts d u value = true ∧ nestedEffects s = false

theorem candidatePicked {a : Analysed} {u d : Loc} {s : Stmt} {v : VarId} {value : Expr}
    (found : a.candidate? u s v = some (d,value)) : a.Picked u s v d value := by
  unfold candidate? at found
  dsimp only [bind] at found
  split at found
  · cases found
  split at found
  case h_2 => cases found
  rename_i d' only
  by_cases param : d' = paramLoc
  · rw [if_pos param] at found
    cases found
  rw [if_neg param,Option.bind_some] at found
  obtain ⟨⟨w,e⟩,assigns,found⟩ := Option.bind_eq_some_iff.mp found
  rw [Option.ite_none_left_eq_some] at found
  obtain ⟨fits,found⟩ := found
  rw [Option.ite_none_left_eq_some] at found
  obtain ⟨once,found⟩ := found
  rw [Option.ite_none_left_eq_some] at found
  obtain ⟨few,found⟩ := found
  rw [Option.ite_none_left_eq_some] at found
  obtain ⟨same,found⟩ := found
  obtain ⟨i,homeDef,found⟩ := Option.bind_eq_some_iff.mp found
  obtain ⟨j,homeUse,found⟩ := Option.bind_eq_some_iff.mp found
  rw [Option.ite_none_left_eq_some] at found
  obtain ⟨-,free⟩ := found
  have pair : d' = d ∧ e = value := by
    split at free
    · rw [Option.ite_none_right_eq_some] at free
      exact Prod.mk.inj (Option.some.inj free.2)
    · exact Prod.mk.inj (Option.some.inj free)
  obtain ⟨rfl,rfl⟩ := pair
  simp only [not_or,not_not] at fits
  obtain ⟨rfl,apart,-⟩ := fits
  refine ⟨⟨only,assigns,apart,?_,fun x read => ?_⟩,?_,fun shows => ?_⟩
  · cases constant : e.isConstant with
    | true => exact .inl rfl
    | false => exact .inr (by simpa [constant] using once)
  · simp only [List.any_eq_true,bne_iff_ne,not_exists,not_and,not_not] at same
    exact same x (List.mem_eraseDups.mpr read)
  · cases leaf : e.isLeaf with
    | true => exact .inl rfl
    | false => exact .inr (by simpa [leaf] using few)
  · have guarded : (e.hasEffects || e.readsMemory || e.canThrow) = true := by
      rcases shows with shows | shows <;> simp [shows]
    rw [if_pos guarded,Option.ite_none_right_eq_some] at free
    obtain ⟨allowed,-⟩ := free
    simp only [Bool.and_eq_true,decide_eq_true_eq,Bool.not_eq_true'] at allowed
    obtain ⟨⟨rfl,moves⟩,late⟩ := allowed
    exact ⟨i,homeDef,homeUse,moves,late⟩

theorem checked {a : Analysed} {u d : Loc} {s : Stmt} {v : VarId} {value : Expr}
    (picked : a.candidate? u s v = some (d,value)) : a.Checked u v d value := (candidatePicked picked).toChecked

theorem Homed.stmtAt {a : Analysed} (homed : a.Homed) {l : Loc} {s : Stmt}
    (found : a.stmt? l = some s) : ∃ p t, a.graph.StmtAt p t ∧ t.loc = l ∧
      (s = t ∨ s = t.withoutResult) := by
  simp only [stmt?,Chains.stmt?,bind,Option.bind_eq_some_iff,Option.some.injEq] at found
  obtain ⟨i,listed,t,there,same⟩ := found
  obtain ⟨member,inside⟩ := homed l i listed
  obtain ⟨r,held,loc⟩ := List.mem_map.mp inside
  have first : ((a.graph.node i).stmt? l).isSome :=
    List.find?_isSome.mpr ⟨r,held,by simpa using loc⟩
  obtain ⟨t',first⟩ := Option.isSome_iff_exists.mp first
  rw [first] at there
  cases there
  obtain ⟨k,place⟩ := List.getElem?_of_mem (List.mem_of_find?_eq_some first)
  refine ⟨⟨i,k⟩,t,⟨member,place⟩,by simpa using List.find?_some first,?_⟩
  split at same
  · exact .inr same.symm
  · exact .inl same.symm

theorem Homed.assignment {a : Analysed} (homed : a.Homed) {d : Loc} {v : VarId} {value : Expr}
    (assigns : a.assignment? d = some (v,value)) :
    ∃ p t b, a.graph.StmtAt p t ∧ t.loc = d ∧ t.act = .assign v value b := by
  unfold assignment? at assigns
  split at assigns <;> try contradiction
  rename_i w e b act
  cases assigns
  obtain ⟨s,found,act⟩ := Option.map_eq_some_iff.mp act
  obtain ⟨p,t,there,loc,same⟩ := homed.stmtAt found
  rcases same with rfl | rfl
  · exact ⟨p,_,b,there,loc,act⟩
  · cases form : t.act <;> simp [Stmt.withoutResult,Action.withoutResult,form] at act

theorem Checked.unread {a : Analysed} {u d : Loc} {v : VarId} {value : Expr}
    (passed : a.Checked u v d value) (agree : a.chains.Mutual)
    (told : d ∈ a.chains.defsAt a.graph v u) : v ∉ value.vars := by
  intro read
  have used : d ∈ a.chains.defsOfUse v u := by rw [passed.only]; exact List.mem_singleton_self d
  have again : d ∈ a.chains.defsOfUse v d := by rwa [passed.same v read]
  rcases passed.once with constant | short
  · cases value <;> simp [Expr.isConstant,Expr.vars] at constant read
  · have first := (agree v u d).mpr used
    have second := (agree v d d).mpr again
    cases listed : a.chains.uses v d with
    | nil => rw [listed] at first; contradiction
    | cons l ls =>
      rw [listed,List.length_cons] at short
      have none : ls = [] := List.eq_nil_of_length_eq_zero (by omega)
      rw [listed,none,List.mem_singleton] at first second
      exact passed.apart (second.trans first.symm)

theorem Checked.told {a : Analysed} (sane : a.Sane) (fresh : a.chains.Fresh a.graph) {u d : Loc}
    {v : VarId} {value : Expr} (passed : a.Checked u v d value) {q : Point} {t : Stmt}
    (here : a.graph.StmtAt q t) (right : t.loc = u) : d ∈ a.chains.defsAt a.graph v u := by
  subst right
  have used : d ∈ a.chains.defsOfUse v t.loc := by rw [passed.only]; exact List.mem_singleton_self d
  exact (Chains.memDefsAt sane.wired sane.distinct fresh here).mpr (fresh.reaches sane.wired here used)

theorem Checked.safeIff {a : Analysed} (sane : a.Sane) (fresh : a.chains.Fresh a.graph) {u d : Loc}
    {v : VarId} {value : Expr} (passed : a.Checked u v d value) {p q : Point} {s t : Stmt} {b : Bool}
    (there : a.graph.StmtAt p s) (left : s.loc = d) (act : s.act = .assign v value b)
    (here : a.graph.StmtAt q t) (right : t.loc = u) :
    a.graph.Safe d u value ↔ ∀ x ∈ value.vars, ∀ r, a.graph.Met d u r →
      r.loc ∈ a.chains.defsOfUse x d → r.def? ≠ some x := by
  rw [Graph.safeIff sane.connected]
  refine ⟨fun clear x read r met _ => clear x read r met,fun clear x read r met defines => ?_⟩
  cases met with
  | @first p' q' r' there' left' onward here' right' =>
    obtain ⟨rfl,rfl⟩ := there.unique sane.distinct there' (left.trans left'.symm)
    have same : v = x := by simpa [Stmt.def?,act,Action.def?] using defines
    exact passed.unread fresh.agree (passed.told sane fresh here right) (same ▸ read)
  | @later p' q' s' t' there' left' between here' right' =>
    obtain ⟨rfl,rfl⟩ := there.unique sane.distinct there' (left.trans left'.symm)
    obtain ⟨rfl,rfl⟩ := here.unique sane.distinct here' (right.trans right'.symm)
    obtain ⟨r',between',okay,defines',reaches⟩ := between.last sane.wired (p := p.next) there.1 defines
    refine clear x read r' (.later there left between' here right) ?_ defines'
    subst right
    rw [passed.same x read]
    exact (Chains.memDefsAt sane.wired sane.distinct fresh here).mpr reaches

theorem Checked.safeOffLoops {a : Analysed} (sane : a.Sane) (fresh : a.chains.Fresh a.graph)
    {u d : Loc} {v : VarId} {value : Expr} (passed : a.Checked u v d value) {p q : Point} {s t : Stmt}
    {b : Bool} (there : a.graph.StmtAt p s) (left : s.loc = d) (act : s.act = .assign v value b)
    (here : a.graph.StmtAt q t) (right : t.loc = u)
    (off : ¬a.graph.Path (fun _ => True) p.next p) : a.graph.Safe d u value := by
  rw [passed.safeIff sane fresh there left act here right]
  intro x read r met member defines
  cases met with
  | @first p' q' r' there' left' onward here' right' =>
    obtain ⟨rfl,rfl⟩ := there.unique sane.distinct there' (left.trans left'.symm)
    have same : v = x := by simpa [Stmt.def?,act,Action.def?] using defines
    exact passed.unread fresh.agree (passed.told sane fresh here right) (same ▸ read)
  | @later p' q' s' t' there' left' between here' right' =>
    obtain ⟨rfl,rfl⟩ := there.unique sane.distinct there' (left.trans left'.symm)
    subst left
    obtain ⟨i,place,okay,before,after⟩ := between
    have numbered : a.graph.StmtAt i r := ⟨before.inRpo sane.wired there.1,place⟩
    obtain ⟨j,defined,back⟩ := fresh.reaches sane.wired there member
    have other : r.loc ≠ paramLoc := fun same =>
      sane.reserved i.node numbered.1 (same ▸ List.mem_map_of_mem (List.mem_of_getElem? place))
    obtain rfl := defined.place sane.distinct numbered rfl other
    have far : a.graph.Path (fun _ => True) p.next i.next :=
      .next (before.mono fun _ _ => trivial) place trivial
    exact off (far.trans (back.mono fun _ _ => trivial))

theorem Checked.kept {a : Analysed} (sane : a.Sane) (fresh : a.chains.Fresh a.graph) {u d : Loc}
    {v : VarId} {value : Expr} (passed : a.Checked u v d value) {V : Type} {m : Meaning V}
    {ρ σ τ : Values V} (trip : a.graph.Trip m d u ρ σ τ) : τ v = σ v := by
  obtain ⟨entry,arrival,there,left,done,onward,here,right⟩ := trip
  rename_i e p q s t ν
  rcases onward.kept v with same | ⟨r,defines,between⟩
  · exact same
  · obtain ⟨r',-,okay,-,reaches⟩ := between.last sane.wired (p := p.next) there.1 defines
    have use : v ∈ t.uses := by
      by_contra unused
      have listed := passed.only
      rw [← right,Chains.defsOfUse,Table.getD,fresh.useDef q t here,if_neg unused] at listed
      contradiction
    have short := Nat.le_of_lt (List.getElem?_eq_some_iff.mp here.2).1
    have listed := (Reaching.memBefore sane.wired here.1 short).mpr reaches
    have sets : (Reaching.before a.graph q).get v = [d] := by
      rw [← passed.only,← right,Chains.defsOfUse,Table.getD,fresh.useDef q t here,if_pos use]
      rfl
    rw [sets,List.mem_singleton] at listed
    exact absurd listed okay

/-- A substitution takes a definition that stands in the graph. The value is at the use what it was
at the definition just when no run between the two, the definition included, carries out an
assignment to an operand; then the value there is the one that the variable had. As long as the
chains are those of the graph, only operands assigned inside a loop around the definition are in
the way. -/
theorem substitutionSafeIff {a : Analysed} (refined : a.Refined) {u d : Loc} {s : Stmt} {v : VarId}
    {value : Expr} (found : a.stmt? u = some s) (picked : a.candidate? u s v = some (d,value)) :
    ∃ p q t r b, a.graph.StmtAt p t ∧ t.loc = d ∧ t.act = .assign v value b ∧
      a.graph.StmtAt q r ∧ r.loc = u ∧
      (a.graph.Safe d u value ↔ ∀ x ∈ value.vars, ∀ w, a.graph.Met d u w → w.def? ≠ some x) ∧
      (a.graph.Safe d u value → value.hasEffects = false → value.readsMemory = false →
        ∀ (V : Type) (m : Meaning V), m.Local → ∀ ρ σ τ, a.graph.Trip m d u ρ σ τ →
          m value τ (σ v)) ∧
      (Chains.ofGraph a.graph = .ok a.chains →
        (a.graph.Safe d u value ↔ ∀ x ∈ value.vars, ∀ w, a.graph.Met d u w →
          w.loc ∈ a.chains.defsOfUse x d → w.def? ≠ some x) ∧
        (¬a.graph.Path (fun _ => True) p.next p → a.graph.Safe d u value) ∧
        ∀ (V : Type) (m : Meaning V) (ρ σ τ : Values V), a.graph.Trip m d u ρ σ τ → τ v = σ v) := by
  have sane := refined.sane
  have passed := checked picked
  obtain ⟨p,t,b,there,left,act⟩ := sane.homed.assignment passed.assigns
  obtain ⟨q,r,here,right,-⟩ := sane.homed.stmtAt found
  refine ⟨p,q,t,r,b,there,left,act,here,right,Graph.safeIff sane.connected,?_,fun ok => ?_⟩
  · intro safe pure blind V m near ρ σ τ trip
    exact safe.meaning sane.distinct pure blind there left act near trip
  · have fresh : a.chains.Fresh a.graph := by
      rcases Chains.ofGraphOk sane.wired sane.distinct with ⟨⟨c,ok',fresh⟩,-⟩ | ⟨⟨f,fault⟩,-⟩
      · cases Except.ok.inj (ok.symm.trans ok')
        exact fresh
      · rw [fault] at ok
        contradiction
    exact ⟨passed.safeIff sane fresh there left act here right,
      passed.safeOffLoops sane fresh there left act here right,
      fun V m ρ σ τ => passed.kept sane fresh⟩

def adding : Graph where
  vars := ⟨#[{},{ register := 1 },{ register := 2 }]⟩
  params := [2]
  entry := some 0
  store := #[
    { num := 0, stmts := [⟨0,.assign 0 (.const "I" 1) false⟩], succs := [1] },
    { num := 1, kind := .cond, succs := [3,2], preds := [0,2], onTrue := some 3, onFalse := some 2,
      stmts := [⟨1,.assign 1 (.binary .add (.var 0) (.const "I" 1) "I") false⟩,
        ⟨2,.branch ⟨.eq,.var 2,none⟩⟩] },
    { num := 2, stmts := [⟨4,.assign 0 (.binary .add (.var 0) (.const "I" 5) "I") false⟩],
      succs := [1,3], preds := [1] },
    { num := 3, kind := .ret, stmts := [⟨3,.ret (some (.var 1))⟩], preds := [1,2] }]
  nodes := [0,1,2,3]
  rpo := [0,1,2,3]
  nextLoc := 6

theorem addingWired : adding.Wired where
  inStore := by decide
  entry := by intro e h; cases h; decide
  empty := by intro h; cases h
  succs := by decide
  preds := by decide
  catchSuccs := by decide
  catchPreds := by decide
  defs := by
    have all : ∀ i ∈ adding.rpo, ∀ s ∈ (adding.node i).stmts,
        s.def?.all (· < adding.vars.size) = true := by decide
    intro i hi s hs v defines
    simpa [defines] using all i hi s hs
  params := by decide

theorem addingConnected : adding.Connected := by
  have first : Relation.ReflTransGen (fun a b => b ∈ (adding.node a).allSuccs) 0 1 :=
    .tail .refl (by decide)
  have loop := Relation.ReflTransGen.tail first (show 2 ∈ (adding.node 1).allSuccs by decide)
  have last := Relation.ReflTransGen.tail first (show 3 ∈ (adding.node 1).allSuccs by decide)
  intro i member
  have numbered : i = 0 ∨ i = 1 ∨ i = 2 ∨ i = 3 := by simpa [adding] using member
  rcases numbered with rfl | rfl | rfl | rfl
  · exact ⟨0,rfl,.refl⟩
  · exact ⟨0,rfl,first⟩
  · exact ⟨0,rfl,loop⟩
  · exact ⟨0,rfl,last⟩

theorem addingMet : adding.Met 1 3 ⟨4,.assign 0 (.binary .add (.var 0) (.const "I" 5) "I") false⟩ := by
  have out : adding.Path (·.loc ≠ 1) ⟨1,1⟩ ⟨2,0⟩ :=
    .edge (.next .stay (show _ = some ⟨2,.branch ⟨.eq,.var 2,none⟩⟩ from rfl) (by decide)) (by decide)
  have leave : adding.Path (·.loc ≠ 1) ⟨2,1⟩ ⟨3,0⟩ := .edge .stay (by decide)
  exact .later (p := ⟨1,0⟩) ⟨by decide,rfl⟩ rfl ⟨⟨2,0⟩,rfl,by decide,out,leave⟩
    (show adding.StmtAt ⟨3,0⟩ ⟨3,.ret (some (.var 1))⟩ from ⟨by decide,rfl⟩) rfl

/-- The substitution is made all the same. -/
theorem substitutionUnsafeAdding : ∃ (a : Analysed) (s : Stmt) (value : Expr), a.Refined ∧ a.stmt? 3 = some s ∧
    a.candidate? 3 s 1 = some (1,value) ∧ ¬a.graph.Safe 1 3 value := by
  have made : (Chains.ofGraph adding).toOption.map (fun c =>
      let picked := (stmt? ⟨adding,c⟩ 3).bind fun s => candidate? ⟨adding,c⟩ 3 s 1
      (picked.map (fun pick => (pick.1,pick.2.vars)),c.defsOfUse 0 1)) =
        some (some (1,[0]),[0,4]) := by decide +kernel
  cases ok : Chains.ofGraph adding with
  | error f => rw [ok] at made; contradiction
  | ok c =>
    rw [ok] at made
    obtain ⟨pair,sets⟩ := Prod.mk.inj (Option.some.inj made)
    obtain ⟨⟨d,value⟩,picked,parts⟩ := Option.map_eq_some_iff.mp pair
    obtain ⟨s,found,picked⟩ := Option.bind_eq_some_iff.mp picked
    obtain ⟨rfl,vars⟩ := Prod.mk.inj parts
    have refined : Refined ⟨adding,c⟩ := .made addingWired (by unfold Graph.LocsDistinct; decide)
      addingConnected (by decide) ok
    refine ⟨⟨adding,c⟩,s,value,refined,found,picked,fun safe => ?_⟩
    obtain ⟨p,q,t,r,b,there,left,act,here,right,all,same,fresh⟩ :=
      substitutionSafeIff refined found picked
    have read : 0 ∈ value.vars := by rw [vars]; decide
    exact (fresh ok).1.mp safe 0 read _ addingMet (by rw [sets]; decide) rfl

end Analysed

end RegCode
