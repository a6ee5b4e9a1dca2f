import RegCode.Proofs.Recovery.Labels
import RegCode.Proofs.Recovery.Meeting
import RegCode.Proofs.Recovery.Execution

/-! What is to run around a place, and where the jumps out of the scopes around it lead. -/
namespace RegCode

def Plan.Free (p : Plan) (t : NodeId) : Prop := ∀ a ∈ p.shapes, a.kind = .posttest → a.test ≠ some t

namespace Recovery

variable {w : Draft} {p : Plan} {i j : Nat} {ss ss' : List Scope} {k : Agenda} {f : Frame} {n t : NodeId}
  {s : State} {scope : Option Key} {key other : Key}

def scopeNames (ss : List Scope) : List String := ss.filterMap fun z => z.key?.map Key.own

structure Scoped (ss : List Scope) : Prop where
  names : (scopeNames ss).Nodup
  owned : ∀ z ∈ ss, ∀ key, z.key? = some key → ∃ n, key.own = loopName n ∨ key.own = switchName n

theorem Orderly.owned (orderly : Orderly p ss s) : Scoped ss := by
  have same : scopeNames ss = ss.map Scope.own := by
    refine List.filterMap_eq_map_iff_forall_eq_some.mpr fun z member => ?_
    match z with
    | .loop shape key | .switch m follow key => rfl
    | .guarded r => exact absurd member (orderly.unguarded r)
  refine ⟨same ▸ orderly.names,fun z member key here => ?_⟩
  match z with
  | .loop shape key =>
    cases here
    exact ⟨_,.inl (orderly.loops shape key member).2⟩
  | .switch m follow key =>
    cases here
    exact ⟨m,.inr (orderly.switches m follow key member).2⟩
  | .guarded r => contradiction

theorem Scoped.tail {z : Scope} (owns : Scoped (z :: ss)) : Scoped ss :=
  ⟨owns.names.sublist ((List.sublist_cons_self z ss).filterMap _),
    fun z member => owns.owned z (List.mem_cons_of_mem _ member)⟩

theorem Scoped.first {z : Scope} (owns : Scoped (z :: ss)) (here : z.key? = some key) :
    key.own ∉ scopeNames ss := by
  have names := owns.names
  rw [scopeNames,List.filterMap_cons,here] at names
  exact (List.nodup_cons.mp names).1

theorem Draft.Whole.otherName (whole : w.Whole) {y z : Scope} (owns : Scoped (z :: ss)) (here : z.key? = some key)
    (member : y ∈ ss) (there : y.key? = some other) : w.name key ≠ other.own ∧ other.own ≠ "" := by
  obtain ⟨n,name⟩ := owns.owned y (List.mem_cons_of_mem _ member) other there
  have some : other.own ≠ "" := by
    rcases name with name | name
    · exact name ▸ (namesApart n 0 0).2.2.2.1
    · exact name ▸ (namesApart 0 n 0).2.2.2.2
  refine ⟨fun called => ?_,some⟩
  have named : w.name key ≠ "" := by rwa [called]
  rcases whole.called named with ⟨own,-⟩ | ⟨m,-,own⟩
  · refine owns.first here (List.mem_filterMap.mpr ⟨y,member,?_⟩)
    rw [there,Option.map_some,← called,own]
  · rw [called] at own
    rcases name with name | name
    · exact (namesApart n 0 m).2.1 (name.symm.trans own)
    · exact (namesApart 0 n m).2.2.1 (name.symm.trans own)

theorem SafeIn.mono (safe : SafeIn p ss t) (more : ∀ a key, .loop a key ∈ ss → .loop a key ∈ ss') :
    SafeIn p ss' t := fun a shape kind test => by
  obtain ⟨b,key,member,again⟩ := safe a shape kind test
  exact ⟨b,key,more b key member,again⟩

theorem SafeIn.pastLoop {a : LoopShape} (safe : SafeIn p (.loop a key :: ss) t) (other : t ≠ a.continueAt) :
    SafeIn p ss t := fun b shape kind test => by
  obtain ⟨c,key,member,again⟩ := safe b shape kind test
  rcases List.mem_cons.mp member with same | member
  · cases same
    exact absurd again.symm other
  · exact ⟨c,key,member,again⟩

theorem SafeIn.pastSwitch {follow : Option NodeId} (safe : SafeIn p (.switch n follow key :: ss) t) :
    SafeIn p ss t := safe.mono fun _ _ member => (List.mem_cons.mp member).resolve_left (by simp)

theorem SafeIn.free (safe : SafeIn p ss t) {inLoop inBreakable : Bool}
    (none : jumpOut? t inLoop inBreakable ss = none) : p.Free t := by
  intro a shape kind test
  obtain ⟨b,key,member,again⟩ := safe a shape kind test
  induction ss generalizing inLoop inBreakable with
  | nil => contradiction
  | cons z ss ih =>
    cases z with
    | loop c other =>
      rw [jumpOut?] at none
      split at none
      · contradiction
      · split at none
        · contradiction
        · rename_i apart _
          exact ih (safe.pastLoop apart) none ((List.mem_cons.mp member).resolve_left fun same => by
            cases same
            exact apart again.symm)
    | switch m follow other =>
      rw [jumpOut?] at none
      split at none
      · contradiction
      · exact ih safe.pastSwitch none ((List.mem_cons.mp member).resolve_left (by simp))
    | guarded r =>
      rw [jumpOut?] at none
      refine ih (safe.mono fun _ _ member => (List.mem_cons.mp member).resolve_left (by simp)) none ?_
      exact (List.mem_cons.mp member).resolve_left (by simp)

/-- A jump past a scope that it could mean names the scope that it leaves. -/
theorem jumpNames {inLoop inBreakable : Bool}
    (jump : inBreakable = true ∧ jumpOut? t inLoop inBreakable ss = some (.breakTo scope) ∨
      inLoop = true ∧ jumpOut? t inLoop inBreakable ss = some (.continueTo scope)) :
    ∃ key, scope = some key ∧ ∃ z ∈ ss, z.key? = some key := by
  cases scope with
  | some key => exact ⟨key,rfl,jumpOutAmong (jump.imp And.right And.right)⟩
  | none =>
    exfalso
    induction ss generalizing inLoop inBreakable with
    | nil => simp [jumpOut?] at jump
    | cons z ss ih =>
      cases z with
      | loop a key =>
        simp only [jumpOut?] at jump
        split at jump
        · simp at jump
        · split at jump
          · simp at jump
          · exact ih (jump.imp (fun both => ⟨rfl,both.2⟩) fun both => ⟨rfl,both.2⟩)
      | switch m follow key =>
        simp only [jumpOut?] at jump
        split at jump
        · simp at jump
        · exact ih (jump.imp (fun both => ⟨rfl,both.2⟩) id)
      | guarded r => exact ih jump

theorem routeJump (way : route p s f t = .breakTo scope ∨ route p s f t = .continueTo scope) :
    jumpOut? t false false f.scopes = some (route p s f t) := by
  unfold route at way ⊢
  split at way
  · rcases way with way | way <;> contradiction
  · rename_i ends
    rw [if_neg ends]
    cases jump : jumpOut? t false false f.scopes with
    | some r => rfl
    | none =>
      rw [jump,Option.getD_none] at way
      split at way <;> rcases way with way | way <;> contradiction

theorem routeGoto (way : route p s f t = .goto) : jumpOut? t false false f.scopes = none := by
  unfold route at way
  split at way
  · contradiction
  · cases jump : jumpOut? t false false f.scopes with
    | none => rfl
    | some r =>
      rw [jump,Option.getD_some] at way
      obtain ⟨scope,here | here⟩ := jumpOutRoute jump <;> rw [here] at way <;> contradiction

theorem routeDone (way : route p s f t = .done) : f.stop = some t ∨ f.fall = some t := by
  unfold route at way
  split at way
  · rename_i ends
    simpa using ends
  · cases jump : jumpOut? t false false f.scopes with
    | some r =>
      rw [jump,Option.getD_some] at way
      obtain ⟨scope,here | here⟩ := jumpOutRoute jump <;> rw [here] at way <;> contradiction
    | none =>
      rw [jump,Option.getD_none] at way
      split at way <;> contradiction

def Targets (w : Draft) (p : Plan) (j : Nat) : Prop :=
  ∀ t ∈ p.graph.rpo, p.Free t → ∃ k, w.target t = some k ∧ w.Leads p.graph j k t

/-- What is to run leads on, like the graph, where jumps to labels and out of the scopes lead. -/
inductive Answers (w : Draft) (p : Plan) (j : Nat) : List Scope → Agenda → Prop
  | outermost {k : Agenda} (targets : Targets w p j) : Answers w p j [] k
  | parts {ss : List Scope} {ts k} (rest : Answers w p j ss k) : Answers w p j ss (.parts ts :: k)
  | loop {ss : List Scope} {shape} {key : Key} {kind n c body k}
      (again : w.Leads p.graph j (.loop key kind n c body :: k) shape.continueAt)
      (leaves : ∀ x, shape.follow = some x → w.Leads p.graph j k x) (rest : Answers w p j ss k) :
      Answers w p j (.loop shape key :: ss) (.loop key kind n c body :: k)
  | switch {ss : List Scope} {n : NodeId} {follow} {key : Key} {later k}
      (leaves : ∀ x, follow = some x → SafeIn p ss x → w.Leads p.graph j k x)
      (rest : Answers w p j ss k) : Answers w p j (.switch n follow key :: ss) (.switch key later :: k)

namespace Answers

theorem targets (answers : Answers w p j ss k) : Targets w p j := by
  induction answers with
  | outermost targets => exact targets
  | parts rest ih | loop again leaves rest ih | switch leaves rest ih => exact ih

theorem mono (le : i ≤ j) (answers : Answers w p j ss k) : Answers w p i ss k := by
  induction answers with
  | outermost targets =>
    refine .outermost fun t member free => ?_
    obtain ⟨k,found,leads⟩ := targets t member free
    exact ⟨k,found,leads.mono le⟩
  | parts rest ih => exact .parts ih
  | loop again leaves rest ih => exact .loop (again.mono le) (fun x here => (leaves x here).mono le) ih
  | switch leaves rest ih => exact .switch (fun x here safe => (leaves x here safe).mono le) ih

theorem breaks (answers : Answers w p j ss k) (whole : w.Whole) (owns : Scoped ss) (safe : SafeIn p ss t)
    {inLoop inBreakable : Bool} (jump : jumpOut? t inLoop inBreakable ss = some (.breakTo scope))
    (called : ∀ key, scope = some key → w.name key = key.own) :
    ∃ k', w.breaks (scopeText scope) k = some k' ∧ w.Leads p.graph j k' t := by
  induction answers generalizing inLoop inBreakable with
  | outermost => contradiction
  | parts rest ih => exact ih owns safe jump
  | @loop ss shape key kind n c body k again leaves rest ih =>
    rw [jumpOut?] at jump
    split at jump
    · simp at jump
    · rename_i past
      split at jump
      · rename_i here
        refine ⟨k,?_,leaves t (beq_iff_eq.mp here)⟩
        have same := Route.breakTo.inj (Option.some.inj jump)
        rw [Draft.breaks,if_pos]
        cases inBreakable with
        | false => exact .inl (same ▸ rfl)
        | true => exact .inr (same ▸ called key same.symm)
      · obtain ⟨other,rfl,z,member,there⟩ := jumpNames (.inl ⟨rfl,jump⟩)
        obtain ⟨apart,some⟩ := whole.otherName owns rfl member there
        obtain ⟨k',found,leads⟩ := ih owns.tail (safe.pastLoop past) jump
        refine ⟨k',?_,leads⟩
        have text : scopeText (.some other) = other.own := rfl
        rw [text] at found ⊢
        rw [Draft.breaks,if_neg (not_or.mpr ⟨some,apart⟩)]
        exact found
  | @switch ss n follow key later k leaves rest ih =>
    rw [jumpOut?] at jump
    split at jump
    · rename_i here
      refine ⟨k,?_,leaves t (beq_iff_eq.mp here) safe.pastSwitch⟩
      have same := Route.breakTo.inj (Option.some.inj jump)
      rw [Draft.breaks,if_pos]
      cases inBreakable with
      | false => exact .inl (same ▸ rfl)
      | true => exact .inr (same ▸ called key same.symm)
    · obtain ⟨other,rfl,z,member,there⟩ := jumpNames (.inl ⟨rfl,jump⟩)
      obtain ⟨apart,some⟩ := whole.otherName owns rfl member there
      obtain ⟨k',found,leads⟩ := ih owns.tail safe.pastSwitch jump
      refine ⟨k',?_,leads⟩
      have text : scopeText (.some other) = other.own := rfl
      rw [text] at found ⊢
      rw [Draft.breaks,if_neg (not_or.mpr ⟨some,apart⟩)]
      exact found

theorem continues (answers : Answers w p j ss k) (whole : w.Whole) (owns : Scoped ss)
    {inLoop inBreakable : Bool} (jump : jumpOut? t inLoop inBreakable ss = some (.continueTo scope))
    (called : ∀ key, scope = some key → w.name key = key.own) :
    ∃ k', w.continues (scopeText scope) k = some k' ∧ w.Leads p.graph j k' t := by
  induction answers generalizing inLoop inBreakable with
  | outermost => contradiction
  | parts rest ih => exact ih owns jump
  | @loop ss shape key kind n c body k again leaves rest ih =>
    rw [jumpOut?] at jump
    split at jump
    · rename_i here
      refine ⟨_,?_,here ▸ again⟩
      have same := Route.continueTo.inj (Option.some.inj jump)
      rw [Draft.continues,if_pos]
      cases inLoop with
      | false => exact .inl (same ▸ rfl)
      | true => exact .inr (same ▸ called key same.symm)
    · split at jump
      · simp at jump
      · obtain ⟨other,rfl,z,member,there⟩ := jumpNames (.inr ⟨rfl,jump⟩)
        obtain ⟨apart,some⟩ := whole.otherName owns rfl member there
        obtain ⟨k',found,leads⟩ := ih owns.tail jump
        refine ⟨k',?_,leads⟩
        have text : scopeText (.some other) = other.own := rfl
        rw [text] at found ⊢
        rw [Draft.continues,if_neg (not_or.mpr ⟨some,apart⟩)]
        exact found
  | @switch ss n follow key later k leaves rest ih =>
    rw [jumpOut?] at jump
    split at jump
    · simp at jump
    · obtain ⟨k',found,leads⟩ := ih owns.tail jump
      exact ⟨k',found,leads⟩

end Answers

end Recovery

end RegCode
