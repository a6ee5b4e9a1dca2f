import RegCode.Proofs.Chains.Unread

/-! Substitution comes to an end. A constant reads nothing. Any other value has one use, and the
definition that goes with it takes its own reads away. So each substitution leaves fewer reads in the
graph, however long it makes the statement that uses the value. -/
namespace RegCode

theorem sumOfMap {α : Type} (f : α → Nat) (xs : List α) : sumOf f xs = (xs.map f).sum := by
  induction xs with
  | nil => rfl
  | cons x xs ih => rw [sumOf,ih,List.map_cons,List.sum_cons]

theorem readsSubst (v : VarId) (value l : List Step) :
    ((l.flatMap (Step.subst v value)).filterMap Step.var?).length + (l.filterMap Step.var?).count v =
      (l.filterMap Step.var?).length + (l.filterMap Step.var?).count v * (value.filterMap Step.var?).length := by
  induction l with
  | nil => simp
  | cons st l ih =>
    rw [List.flatMap_cons,List.filterMap_append,List.length_append]
    cases st with
    | read w =>
      by_cases same : w = v
      · subst same
        simp only [Step.subst,if_true,List.filterMap_cons,Step.var?,List.count_cons_self,List.length_cons,
          Nat.add_mul,Nat.one_mul]
        omega
      · simp only [Step.subst,Step.read.injEq,same,if_false,List.filterMap_cons,List.filterMap_nil,Step.var?,
          List.count_cons_of_ne same,List.length_cons,List.length_nil]
        omega
    | _ =>
      change 0 + _ + _ = _
      rw [Nat.zero_add]
      exact ih

namespace Analysed

variable {a b c : Analysed} {u d : Loc} {t r : Stmt} {v : VarId} {value : Expr} {drop : Bool} {f : Stmt → Stmt}
  {p q : Point} {n : Nat}

theorem useCountStated (a : Analysed) : a.useCount = (a.graph.stated.map fun s => s.uses.length).sum := by
  rw [useCount,Graph.stated]
  induction a.graph.rpo with
  | nil => rfl
  | cons i is ih => rw [sumOf,ih,List.flatMap_cons,List.map_append,List.sum_append,sumOfMap]

theorem Taken.stated (took : a.Taken v d u value c drop f) :
    c.graph.stated = a.graph.stated.filterMap (taken drop d u f) := by
  rw [Graph.stated,Graph.stated,took.rpo,List.filterMap_flatMap]
  exact List.flatMap_congr took.stmts

theorem statedParts (distinct : a.graph.LocsDistinct) (here : a.graph.StmtAt p t) (origin : a.graph.StmtAt q r)
    (apart : r.loc ≠ t.loc) :
    ∃ rest, a.graph.stated.Perm (t :: r :: rest) ∧ ∀ s ∈ rest, s.loc ≠ t.loc ∧ s.loc ≠ r.loc := by
  obtain ⟨front,back,parts⟩ := List.append_of_mem (Graph.memStated.mpr ⟨p,here⟩)
  have first : a.graph.stated.Perm (t :: (front ++ back)) := by
    rw [parts]
    exact List.perm_middle
  have other : r ∈ front ++ back := (List.mem_cons.mp (first.subset (Graph.memStated.mpr ⟨q,origin⟩))).resolve_left
    fun same => apart (same ▸ rfl)
  obtain ⟨front',back',parts'⟩ := List.append_of_mem other
  have whole : a.graph.stated.Perm (t :: r :: (front' ++ back')) := by
    rw [parts'] at first
    exact first.trans (List.perm_middle.cons t)
  have locs : (a.graph.stated.map (·.loc)).Nodup := by
    rw [← Graph.locsStated]
    exact distinct
  have nodup := (whole.map (·.loc)).nodup_iff.mp locs
  simp only [List.map_cons,List.nodup_cons,List.mem_cons,not_or] at nodup
  refine ⟨_,whole,fun s member => ⟨fun same => nodup.1.2 ?_,fun same => nodup.2.1 ?_⟩⟩ <;>
    exact same ▸ List.mem_map_of_mem member

theorem Taken.reads (took : a.Taken v d t.loc value c drop f) (distinct : a.graph.LocsDistinct)
    (here : a.graph.StmtAt p t) (origin : a.graph.StmtAt q r) (loc : r.loc = d) (apart : d ≠ t.loc)
    (reads : r.uses = value.vars) :
    c.useCount + t.uses.count v + (if drop then value.vars.length else 0) =
      a.useCount + t.uses.count v * value.vars.length := by
  subst loc
  obtain ⟨rest,parts,others⟩ := statedParts distinct here origin apart
  have put : (f t).uses.length + t.uses.count v = t.uses.length + t.uses.count v * value.vars.length := by
    have counts := readsSubst v value.steps t.act.steps
    rwa [← took.steps,← Action.usesSteps,← Action.usesSteps,← Expr.varsSteps] at counts
  have kept : rest.filterMap (taken drop r.loc t.loc f) = rest := by
    refine (List.filterMap_congr fun s member => ?_).trans List.filterMap_some
    rw [taken,if_neg fun gone => (others s member).2 gone.2,if_neg (others s member).1]
  have left : taken drop r.loc t.loc f t = some (f t) := by
    rw [taken,if_neg fun gone => apart gone.2.symm,if_pos rfl]
  have before := ((parts.map fun s => s.uses.length).sum_nat)
  have after := (((parts.filterMap (taken drop r.loc t.loc f)).map fun s => s.uses.length).sum_nat)
  rw [useCountStated,useCountStated,took.stated,after,before,List.filterMap_cons_some left]
  cases drop with
  | true =>
    rw [List.filterMap_cons_none (by rw [taken,if_pos ⟨rfl,rfl⟩]),kept]
    simp only [List.map_cons,List.sum_cons,if_pos,reads]
    omega
  | false =>
    rw [List.filterMap_cons_some (b := r) (by rw [taken,if_neg (by simp),if_neg apart]),kept]
    simp only [List.map_cons,List.sum_cons,Bool.false_eq_true,if_false]
    omega

theorem takenLocs (keeps : ∀ s, (f s).loc = s.loc) (ss : List Stmt) :
    (ss.filterMap (taken true d u f)).map (·.loc) = (ss.map (·.loc)).filter (· != d) := by
  induction ss with
  | nil => rfl
  | cons s ss ih =>
    by_cases gone : s.loc = d
    · rw [List.filterMap_cons_none (by rw [taken,if_pos ⟨rfl,gone⟩]),ih,List.map_cons,
        List.filter_cons_of_neg (by simpa using gone)]
    · have stays : taken true d u f s = some (if s.loc = u then f s else s) := by
        rw [taken,if_neg fun h => gone h.2]
      rw [List.filterMap_cons_some stays,List.map_cons,List.map_cons,List.filter_cons_of_pos (by simpa using gone),ih]
      split
      · rw [keeps]
      · rfl

theorem fewPlaces (picked : a.candidate? u t v = some (d,value)) : value.isLeaf = true ∨ t.uses.count v ≤ 1 :=
  (candidatePicked picked).few

theorem Tied.spends (tied : a.Tied) (found : a.stmt? u = some t) (picked : a.candidate? u t v = some (d,value))
    (o : PropagateOptions) (n : Nat) :
    (propagateVar o u (a,n) v).1.useCount < a.useCount ∧
      (value.isConstant = false → (propagateVar o u (a,n) v).1.graph.locs = a.graph.locs.filter (· != d)) := by
  obtain ⟨drop,f,took⟩ := tied.takenTried found picked o n
  generalize (propagateVar o u (a,n) v).1 = c at took
  have passed := checked picked
  have use := tied.candidateReads found picked
  obtain ⟨p,here,rfl⟩ := tied.toGrounded.stmt.mp found
  obtain ⟨q,r,x,origin,rfl,act⟩ := tied.homed.assignment passed.assigns
  have reads : r.uses = value.vars := by
    simp [Stmt.uses,act,Action.uses,Action.exprs,Expr.varsAll]
  have counts := took.reads tied.distinct here origin rfl passed.apart reads
  have some : 0 < t.uses.count v := List.count_pos_iff.mpr use
  refine ⟨?_,fun other => ?_⟩
  · cases constant : value.isConstant with
    | true =>
      have none : value.vars = [] := by
        cases value with
        | const | str => rfl
        | _ => contradiction
      rw [none] at counts
      simp only [List.length_nil,Nat.mul_zero,ite_self] at counts
      omega
    | false =>
      rw [took.drops constant,if_pos rfl] at counts
      rcases fewPlaces picked with leaf | once
      · have short : value.vars.length ≤ 1 := by cases value <;> simp_all [Expr.isLeaf,Expr.vars]
        rcases Nat.le_one_iff_eq_zero_or_eq_one.mp short with none | one
        · rw [none] at counts
          omega
        · rw [one] at counts
          omega
      · obtain single : t.uses.count v = 1 := by omega
        rw [single] at counts
        omega
  · rw [Graph.locsStated,Graph.locsStated,took.stated,took.drops other]
    exact takenLocs took.locs _

structure Spends (before after : Analysed × Nat) : Prop where
  counts : before.2 ≤ after.2
  still : after.2 = before.2 → after.1 = before.1
  tied : before.1.Tied → after.1.Tied
  pays : before.1.Tied → after.1.useCount + after.2 ≤ before.1.useCount + before.2

namespace Spends

variable {x y z : Analysed × Nat}

theorem refl (x : Analysed × Nat) : Spends x x := ⟨Nat.le_refl _,fun _ => rfl,id,fun _ => Nat.le_refl _⟩

theorem trans (first : Spends x y) (second : Spends y z) : Spends x z := by
  refine ⟨Nat.le_trans first.counts second.counts,fun same => ?_,second.tied ∘ first.tied,fun tied => ?_⟩
  · have early : y.2 = x.2 := Nat.le_antisymm (same ▸ second.counts) first.counts
    exact (second.still (same.trans early.symm)).trans (first.still early)
  · exact Nat.le_trans (second.pays (first.tied tied)) (first.pays tied)

theorem fold {α : Type} {step : Analysed × Nat → α → Analysed × Nat} (each : ∀ x i, Spends x (step x i))
    (is : List α) (x : Analysed × Nat) : Spends x (is.foldl step x) := by
  induction is generalizing x with
  | nil => exact refl x
  | cons i is ih => exact (each x i).trans (ih (step x i))

end Spends

theorem spendsVar (o : PropagateOptions) (u : Loc) (x : Analysed × Nat) (v : VarId) :
    Spends x (propagateVar o u x v) := by
  obtain ⟨a,n⟩ := x
  cases found : a.stmt? u with
  | none =>
    rw [show propagateVar o u (a,n) v = (a,n) by simp only [propagateVar,found]]
    exact .refl _
  | some t =>
    cases picked : a.candidate? u t v with
    | none =>
      rw [show propagateVar o u (a,n) v = (a,n) by simp only [propagateVar,found,picked]]
      exact .refl _
    | some candidate =>
      obtain ⟨d,value⟩ := candidate
      have count : (propagateVar o u (a,n) v).2 = n + 1 := by simp only [propagateVar,found,picked]
      refine ⟨by omega,fun same => by omega,fun tied => (tied.tried o u n v).1,fun tied => ?_⟩
      have fewer := (tied.spends found picked o n).1
      dsimp only at fewer ⊢
      omega

theorem spendsRound (o : PropagateOptions) (a : Analysed) : Spends (a,0) (a.propagateRound o) := by
  refine Spends.fold (fun x i => Spends.fold (fun x u => ?_) _ x) a.graph.rpo (a,0)
  unfold propagateStmt
  split
  · exact .refl x
  · split
    · exact Spends.fold (spendsVar o u) _ x
    · exact .refl x

theorem Steps.tiedFrom {fits : Analysed → Loc → VarId → Prop} (steps : Steps fits a b) (tied : a.Tied) : b.Tied := by
  induction steps with
  | none => exact tied
  | swept before ih => exact (keepsEliminateDeadCode _).tied ih
  | tried before o u n v fit ih => exact (ih.tried o u n v).1

theorem Tied.settles (o : PropagateOptions) (fuel : Nat) (tied : a.Tied) (total : Nat) (enough : a.useCount < fuel) :
    ∃ c n, (∀ more, fuel ≤ more → propagateRounds o more a total = (c,n)) ∧ c.propagateRound o = (c,0) ∧
      n + c.useCount ≤ total + a.useCount := by
  induction fuel generalizing a total with
  | zero => contradiction
  | succ fuel ih =>
    obtain ⟨counts,still,keeps,pays⟩ := spendsRound o a
    have unfolded : ∀ more, fuel + 1 ≤ more → ∃ rest, more = rest + 1 ∧ fuel ≤ rest ∧
        propagateRounds o more a total = if (a.propagateRound o).2 = 0 then ((a.propagateRound o).1,total)
          else propagateRounds o rest (a.propagateRound o).1 (total + (a.propagateRound o).2) := fun more le => by
      obtain ⟨rest,rfl⟩ := Nat.exists_eq_add_of_lt le
      exact ⟨fuel + rest,by omega,by omega,by rw [show fuel + rest + 1 = (fuel + rest) + 1 from rfl,propagateRounds]⟩
    have paid := pays tied
    by_cases none : (a.propagateRound o).2 = 0
    · refine ⟨a,total,fun more le => ?_,Prod.ext (still none) none,by omega⟩
      obtain ⟨_,-,-,same⟩ := unfolded more le
      rw [same,if_pos none,still none]
    · obtain ⟨c,n,same,settled,bound⟩ := ih (keeps tied) (total + (a.propagateRound o).2) (by dsimp only at paid; omega)
      refine ⟨c,n,fun more le => ?_,settled,by dsimp only at paid; omega⟩
      obtain ⟨rest,-,short,eq⟩ := unfolded more le
      rw [eq,if_neg none]
      exact same rest short

/-- Without a limit on the rounds substitution ends, after no more substitutions than there are reads to lose.
Every larger number of rounds gives the same, and trying again substitutes nothing. Whatever is met on the way,
the definition of a value that is not constant goes with the substitution, and nothing else. -/
theorem propagateSettles {s : Analysed} {fits : Analysed → Loc → VarId → Prop} (made : s.Made)
    (start : a = s ∨ s.splitLifetimes = .ok a) (steps : Steps fits a b) (o : PropagateOptions)
    (unlimited : o.rounds ≤ 0) :
    let c := (b.propagate o).1
    (b.propagate o).2 + c.useCount ≤ b.useCount ∧
    (∀ rounds, b.useCount < rounds → b.propagateRounds o rounds 0 = b.propagate o) ∧
    c.propagateRound o = (c,0) ∧ c.propagate o = (c,0) ∧
    ∀ x, Steps (fun _ _ _ => True) b x → ∀ u t v d value n, x.stmt? u = some t →
      x.candidate? u t v = some (d,value) → value.isConstant = false →
        d ∈ x.graph.locs ∧ (propagateVar o u (x,n) v).1.graph.locs = x.graph.locs.filter (· != d) := by
  intro c
  have tied : b.Tied := (steps.tied (start.elim (fun same => same ▸ made) made.split)).1
  have whole : ∀ a : Analysed, a.propagate o = a.propagateRounds o (a.useCount + 1) 0 := fun a => by
    rw [propagate,if_pos unlimited]
  obtain ⟨c',n,same,settled,bound⟩ := tied.settles o _ 0 (Nat.lt_succ_self _)
  have ends : b.propagate o = (c',n) := (whole b).trans (same _ (Nat.le_refl _))
  obtain rfl : c' = c := (congrArg Prod.fst ends).symm
  refine ⟨?_,fun rounds more => (same rounds more).trans ends.symm,settled,?_,?_⟩
  · rw [ends]
    omega
  · rw [whole,propagateRounds,settled]
    rfl
  · intro x met u t v d value n found picked other
    have fits := met.tiedFrom tied
    obtain ⟨q,r,_,origin,loc,-⟩ := fits.homed.assignment (checked picked).assigns
    exact ⟨Graph.memLocs.mpr ⟨q,r,origin,loc⟩,(fits.spends found picked o n).2 other⟩

def lengthening : Graph := oneNode [0,1] ⟨#[{},{ register := 1 },{ register := 2 },{ register := 3 }]⟩ [
  ⟨0,.assign 2 (.const "I" 3) false⟩,
  ⟨1,.assign 3 (.binary .add (.binary .add (.var 0) (.var 1) "I") (.var 2) "I") false⟩,
  ⟨2,.ret (some (.var 3))⟩]

/-- Two substitutions take two definitions and two of four reads away. -/
theorem propagateSettlesLengthening : ∃ a : Analysed, a.graph = lengthening ∧ a.Made ∧ a.useCount = 4 ∧
    (a.propagate {}).2 = 2 ∧ (a.propagate {}).1.graph.locs = [2] ∧ (a.propagate {}).1.useCount = 2 ∧
    (a.propagate {}).1.propagate {} = ((a.propagate {}).1,0) ∧
    a.propagateRounds {} 100 0 = a.propagate {} := by
  have run : (Chains.ofGraph lengthening).toOption.map (fun c =>
      let a : Analysed := ⟨lengthening,c⟩
      let r := a.propagate {}
      (a.useCount,r.2,r.1.graph.locs,r.1.useCount)) = some (4,2,[2],2) := by decide +kernel
  cases ok : Chains.ofGraph lengthening with
  | error f => rw [ok] at run; contradiction
  | ok c =>
    rw [ok] at run
    obtain ⟨reads,rest⟩ := Prod.mk.inj (Option.some.inj run)
    obtain ⟨count,rest⟩ := Prod.mk.inj rest
    obtain ⟨locs,left⟩ := Prod.mk.inj rest
    have made : Made ⟨lengthening,c⟩ := oneNodeMade (by decide) (by decide) (by decide) (by decide) ok
    obtain ⟨-,larger,-,again,-⟩ := propagateSettles made (.inl rfl) (Steps.none : Steps (fun _ _ _ => True) _ _) {}
      (by decide)
    exact ⟨⟨lengthening,c⟩,rfl,made,reads,count,locs,left,again,larger 100 (by rw [reads]; decide)⟩

end Analysed

end RegCode
