import RegCode.Proofs.Recovery.Strokes

/-! What writing keeps when there is no protected code: what stands for a node goes on standing for it, what
begins later has a later key, and no part is protected code. -/
namespace RegCode.Recovery

open RegCode.Tree

variable {p : Plan} {f : Frame} {n m t : NodeId} {s s₀ s₁ s₂ s' : State} {own : String}

theorem State.gotoRest (s : State) (n : NodeId) :
    (s.goto n).2.reserved = s.reserved ∧ (s.goto n).2.skipped = s.skipped := by
  unfold goto labelOf
  cases s.placed.get? n with
  | none => exact ⟨rfl,rfl⟩
  | some key =>
    cases named : s.names.get? key <;> simp [named]

structure Grows (s s' : State) : Prop extends Later s s' where
  keys : s.nextKey ≤ s'.nextKey
  newer : ∀ n key, s'.placed.get? n = some key → s.placed.get? n = some key ∨
    ∃ id own, key = .part id own ∧ s.nextKey ≤ id ∧ id < s'.nextKey
  skipped : s'.skipped = s.skipped

structure State.Keyed (s : State) : Prop where
  below : ∀ n key, s.placed.get? n = some key → ∃ id own, key = .part id own ∧ id < s.nextKey
  skipped : s.skipped = []

namespace Grows

theorem quiet (placed : s'.placed = s.placed) (names : s'.names = s.names) (wanted : s'.wanted = s.wanted)
    (keys : s'.nextKey = s.nextKey) (skipped : s'.skipped = s.skipped) : Grows s s' :=
  ⟨.quiet placed names fun _ here => wanted ▸ here,Nat.le_of_eq keys.symm,
    fun _ _ here => .inl (placed ▸ here),skipped⟩

theorem refl (s : State) : Grows s s := .quiet rfl rfl rfl rfl rfl

theorem trans (first : Grows s s₁) (second : Grows s₁ s₂) : Grows s s₂ := by
  refine ⟨first.toLater.trans second.toLater,Nat.le_trans first.keys second.keys,fun n key here => ?_,
    second.skipped.trans first.skipped⟩
  rcases second.newer n key here with before | ⟨id,own,same,above,below⟩
  · refine (first.newer n key before).imp id ?_
    rintro ⟨id,own,same,above,below⟩
    exact ⟨id,own,same,above,Nat.lt_of_lt_of_le below second.keys⟩
  · exact .inr ⟨id,own,same,Nat.le_trans first.keys above,below⟩

theorem keyed (grows : Grows s s') (keyed : s.Keyed) : s'.Keyed := by
  refine ⟨fun n key here => ?_,grows.skipped.trans keyed.skipped⟩
  rcases grows.newer n key here with before | ⟨id,own,same,-,below⟩
  · obtain ⟨id,own,same,below⟩ := keyed.below n key before
    exact ⟨id,own,same,Nat.lt_of_lt_of_le below grows.keys⟩
  · exact ⟨id,own,same,below⟩

theorem begins (s : State) (n : NodeId) (own : String) : Grows s (s.bump.place n (s.key own)) := by
  obtain ⟨keys,skipped,-,-⟩ := s.bump.placeRest n (s.key own)
  have bumped : Later s s.bump := .quiet rfl rfl fun _ => id
  refine ⟨bumped.trans (laterPlace ..),keys ▸ Nat.le_succ _,fun m key here => ?_,skipped⟩
  rw [State.placeGet] at here
  split at here
  · refine .inr ⟨s.nextKey,own,(Option.some.inj here).symm,Nat.le_refl _,?_⟩
    rw [keys]
    exact Nat.lt_succ_self _
  · exact .inl here

theorem stands (grows : Grows s s') (m : NodeId) (more : s.nextKey < s'.nextKey) :
    Grows s (s'.place m (s.key own)) := by
  obtain ⟨keys,skipped,-,-⟩ := s'.placeRest m (s.key own)
  refine ⟨grows.toLater.trans (laterPlace ..),keys ▸ grows.keys,fun k key here => ?_,
    skipped.trans grows.skipped⟩
  rw [State.placeGet] at here
  rw [keys]
  split at here
  · exact .inr ⟨s.nextKey,own,(Option.some.inj here).symm,Nat.le_refl _,more⟩
  · exact grows.newer k key here

theorem nameScope (s : State) (scope : Option Key) : Grows s (s.nameScope scope) := by
  have later := laterNameScope s scope
  cases scope with
  | none => exact .refl s
  | some key => exact ⟨later,Nat.le_refl _,fun _ _ => .inl,rfl⟩

theorem goto (s : State) (n : NodeId) : Grows s (s.goto n).2 := by
  obtain ⟨placed,-,keys,-⟩ := s.gotoLabel n
  exact ⟨laterGoto s n,Nat.le_of_eq keys.symm,fun m key here => .inl (placed ▸ here),(s.gotoRest n).2⟩

theorem setMark (s : State) (n : NodeId) (mark : Mark) : Grows s (s.setMark n mark) := .quiet rfl rfl rfl rfl rfl

theorem statement (s : State) (n : NodeId) (ss : List Stmt) : Grows s (s.statement n ss).2 :=
  (begins s n "").trans (setMark _ n .finished)

theorem lead {pieces : List Piece} {ss : List Stmt} (start : s.lead n ss = (pieces,s₀)) : Grows s s₀ := by
  unfold State.lead at start
  split at start
  · cases start
    exact .refl s
  · cases start
    exact statement s n ss.dropLast

theorem enter (s : State) (n : NodeId) (own : String) (follow : Option NodeId) :
    Grows s (s.enter n own follow) :=
  (begins s n own).trans (.quiet rfl rfl rfl rfl rfl)

theorem leave (s : State) (n : NodeId) (follow : Option NodeId) : Grows s (s.leave n follow) :=
  .quiet rfl rfl rfl rfl rfl

theorem openLoop (s : State) (n : NodeId) : Grows s (s.openLoop n) := begins s n (loopName n)

theorem openTested (s : State) (n latch : NodeId) :
    Grows s (((s.openLoop n).place latch (s.key (loopName n))).setMark latch .entered) :=
  ((openLoop s n).stands latch (by
    rw [State.openLoop,(s.bump.placeRest n (s.key (loopName n))).1]
    exact Nat.lt_succ_self _)).trans (setMark _ latch .entered)

theorem sole (keyed : s.Keyed) (grows : Grows (s.bump.place n (s.key own)) s')
    (here : s'.placed.get? t = some (s.key own)) : t = n := by
  obtain ⟨keys,-⟩ := s.bump.placeRest n (s.key own)
  rcases grows.newer t _ here with before | ⟨id,name,same,above,-⟩
  · rw [State.placeGet] at before
    split at before
    · rename_i both
      exact both.1
    · obtain ⟨id,name,same,below⟩ := keyed.below t _ before
      cases same
      exact absurd below (Nat.lt_irrefl _)
  · cases same
    rw [keys] at above
    exact absurd above (Nat.not_succ_le_self _)

theorem soleTested {latch : NodeId} (keyed : s.Keyed)
    (grows : Grows (((s.openLoop n).place latch (s.key (loopName n))).setMark latch .entered) s')
    (here : s'.placed.get? t = some (s.key (loopName n))) : t = n ∨ t = latch := by
  obtain ⟨keys,-⟩ := (s.openLoop n).placeRest latch (s.key (loopName n))
  obtain ⟨keys',-⟩ := s.bump.placeRest n (s.key (loopName n))
  rcases grows.newer t _ here with before | ⟨id,name,same,above,-⟩
  · have before : ((s.openLoop n).place latch (s.key (loopName n))).placed.get? t = some (s.key (loopName n)) :=
      before
    rw [State.placeGet] at before
    split at before
    · rename_i both
      exact .inr both.1
    · exact .inl (sole keyed (.refl _) before)
  · cases same
    have above : ((s.openLoop n).place latch (s.key (loopName n))).nextKey ≤ s.nextKey := above
    rw [keys,State.openLoop,keys'] at above
    exact absurd above (Nat.not_succ_le_self _)

end Grows

theorem Writes.grows {job : Job} (writes : Writes p job s s') (free : p.graph.regions = #[]) :
    Grows s s' := by
  induction writes with
  | nowhere | falls | nothing | ends | never => exact .refl _
  | inline way rest ih | behind jump way rest ih | on passes rest ih => exact ih
  | breaks way | continues way => exact .nameScope _ _
  | jumps way => exact .goto _ _
  | each first rest ihFirst ihRest => exact ihFirst.trans ihRest
  | last bare noBranch noSwitch alone => exact .statement _ _ _
  | plain bare kind succ rest ih => exact (Grows.statement _ _ _).trans ih
  | branch bare kind sides start left right rest ihLeft ihRight ihRest =>
    exact ((((Grows.lead start).trans (.enter _ _ _ _)).trans (ihLeft.trans ihRight)).trans
      (.leave _ _ _)).trans ihRest
  | switch bare kind start arms rest ihArms ihRest =>
    exact ((((Grows.lead start).trans (.enter _ _ _ _)).trans ihArms).trans (.leave _ _ _)).trans ihRest
  | pretest outside starts settled kind inner rest ihInner ihRest =>
    exact ((((Grows.openLoop _ _).trans (.setMark _ _ _)).trans ihInner).trans (.setMark _ _ _)).trans ihRest
  | posttest outside starts settled kind test inner rest ihInner ihRest =>
    exact (((Grows.openTested _ _ _).trans ihInner).trans (.setMark _ _ _)).trans ihRest
  | endless outside starts settled kind test inner rest ihInner ihRest =>
    exact ((Grows.openLoop _ _).trans ihInner).trans ihRest
  | cleanup outside | catches outside | again outside =>
    rw [noPending free] at outside
    contradiction

def isGuarded : Piece → Bool
  | .guarded .. => true
  | _ => false

theorem unguardedStatement (n : NodeId) (ss : List Stmt) :
    ∀ u ∈ partsAll [(s.statement n ss).1], isGuarded u = false := by
  simp [State.statement,partsAll,parts,isGuarded]

theorem unguardedLead {lead : List Piece} {ss : List Stmt} (start : s.lead n ss = (lead,s₀)) :
    ∀ u ∈ partsAll lead, isGuarded u = false := by
  unfold State.lead at start
  split at start
  · cases start
    exact nofun
  · cases start
    exact unguardedStatement n ss.dropLast

theorem unguardedLoop {key : Key} {kind : LoopKind} {test : Int} {cond : Option Test} {body more : List Piece}
    (inner : ∀ u ∈ partsAll body, isGuarded u = false) (rest : ∀ u ∈ partsAll more, isGuarded u = false) :
    ∀ u ∈ partsAll (.loop key kind test n cond (dropLastContinue body) :: more), isGuarded u = false := by
  have dropped : ∀ u ∈ partsAll (dropLastContinue body), isGuarded u = false := by
    unfold dropLastContinue
    split
    · rename_i l last
      obtain ⟨front,rfl⟩ := List.getLast?_eq_some_iff.mp last
      rw [List.dropLast_concat]
      rw [partsAppend] at inner
      exact fun u member => inner u (List.mem_append_left _ member)
    · exact inner
  rw [partsAll,parts,List.cons_append]
  exact List.forall_mem_cons.mpr ⟨rfl,List.forall_mem_append.mpr ⟨dropped,rest⟩⟩

theorem unguardedArms {arms : List (ArmHead × List Piece)}
    (inner : ∀ u ∈ partsArms arms, isGuarded u = false) :
    ∀ u ∈ partsArms (dropLastBreak arms), isGuarded u = false := by
  induction arms with
  | nil => exact inner
  | cons a arms ih =>
    obtain ⟨h,body⟩ := a
    rw [partsArms] at inner
    obtain ⟨here,rest⟩ := List.forall_mem_append.mp inner
    cases arms with
    | nil =>
      unfold dropLastBreak
      split
      · rename_i l last
        obtain ⟨front,rfl⟩ := List.getLast?_eq_some_iff.mp last
        rw [List.dropLast_concat,partsArms]
        rw [partsAppend] at here
        exact List.forall_mem_append.mpr ⟨fun u member => here u (List.mem_append_left _ member),nofun⟩
      · exact inner
    | cons b arms =>
      have same : dropLastBreak ((h,body) :: b :: arms) = (h,body) :: dropLastBreak (b :: arms) := by
        rw [dropLastBreak]
        simp
      rw [same,partsArms]
      exact List.forall_mem_append.mpr ⟨here,ih rest⟩

theorem Writes.unguarded {job : Job} (writes : Writes p job s s') (free : p.graph.regions = #[]) :
    ∀ u ∈ partsAll job.written, isGuarded u = false := by
  induction writes with
  | nowhere | falls | nothing | ends | never => exact nofun
  | inline way rest ih | behind jump way rest ih | on passes rest ih => exact ih
  | breaks way | continues way => exact List.forall_mem_singleton.mpr rfl
  | jumps way => exact List.forall_mem_singleton.mpr rfl
  | each first rest ihFirst ihRest =>
    rw [Job.written,List.flatten_cons,partsAppend]
    exact List.forall_mem_append.mpr ⟨ihFirst,ihRest⟩
  | last bare noBranch noSwitch alone => exact unguardedStatement _ _
  | plain bare kind succ rest ih =>
    rw [Job.written,← List.singleton_append,partsAppend]
    exact List.forall_mem_append.mpr ⟨unguardedStatement _ _,ih⟩
  | @branch f n cond first second lead onTrue onFalse more s s₀ s₁ s₂ s₃ bare kind sides start left
      right rest ihLeft ihRight ihRest =>
    obtain ⟨c,x,y,-,pieces⟩ := partsBranch (s₀.key "") n cond (p.branchFollows.get? n).isSome onTrue onFalse
    rw [Job.written,partsAppend,partsAppend,pieces]
    exact List.forall_mem_append.mpr ⟨List.forall_mem_append.mpr ⟨unguardedLead start,
      List.forall_mem_cons.mpr ⟨rfl,List.forall_mem_append.mpr ⟨ihLeft,ihRight⟩⟩⟩,ihRest⟩
  | @switch f n lead bodies more s s₀ s₁ s₂ bare kind start arms rest ihArms ihRest =>
    rw [Job.written,← partsSwitch arms] at ihArms
    rw [Job.written,partsAppend,partsAppend]
    refine List.forall_mem_append.mpr ⟨List.forall_mem_append.mpr ⟨unguardedLead start,?_⟩,ihRest⟩
    rw [partsAll,parts,partsAll,List.append_nil]
    exact List.forall_mem_cons.mpr ⟨rfl,unguardedArms ihArms⟩
  | pretest outside starts settled kind inner rest ihInner ihRest => exact unguardedLoop ihInner ihRest
  | posttest outside starts settled kind test inner rest ihInner ihRest =>
    exact unguardedLoop ihInner ihRest
  | endless outside starts settled kind test inner rest ihInner ihRest =>
    exact unguardedLoop ihInner ihRest
  | cleanup outside | catches outside | again outside =>
    rw [noPending free] at outside
    contradiction

end RegCode.Recovery
