import RegCode.Proofs.Recovery.Dispatch
import RegCode.Proofs.Recovery.Once

/-! Where the nodes of structured code are run: each under the protected code around it, innermost first.
Clean-up code is kept with the protected code that runs it. -/
namespace RegCode

structure Cover where
  region : RegionId
  clauses : List Clause
  cleanup : List (Int × List Stmt)
  copies : List (Int × List Stmt)

inductive Deed where
  | code (n : Int) (ss : List Stmt)
  | test (n : Int)
  | guard (c : Cover)

namespace Tree

variable {α β : Type}

def statements? : Tree α → Option (Int × List Stmt)
  | stmts _ n ss => some (n,ss)
  | _ => none

def copied? (c : CatchHead × List (Tree α)) : Option (Int × List Stmt) :=
  match c.2 with
  | [stmts _ n ss] => if n < 0 then some (c.1.node,ss) else none
  | _ => none

def cover (r : RegionId) (cs : List (CatchHead × List (Tree α))) (z : Option (List (Tree α))) : Cover :=
  ⟨r,clauseHeads cs z,(z.getD []).filterMap statements?,cs.filterMap copied?⟩

mutual

def deeds (k : List Cover) : Tree α → List (List Cover × Deed)
  | block _ body => deedsAll k body
  | stmts _ n ss => if n < 0 then [] else [(k,.code n ss)]
  | branch _ n _ t none => (k,.test n) :: deedsAll k t
  | branch _ n _ t (some e) => (k,.test n) :: deedsAll k t ++ deedsAll k e
  | loop _ _ n _ _ body => (nodeIfReal n).map (fun m => (k,.test m)) ++ deedsAll k body
  | switch _ n _ arms => (k,.test n) :: deedsArms k arms
  | guarded _ r body cs z =>
    (k,.guard (cover r cs z)) :: deedsAll (cover r cs z :: k) body ++ deedsCatches k cs
  | goto _ _ | breakTo _ _ | continueTo _ _ => []

def deedsAll (k : List Cover) : List (Tree α) → List (List Cover × Deed)
  | [] => []
  | t :: ts => t.deeds k ++ deedsAll k ts

def deedsArms (k : List Cover) : List (ArmHead × List (Tree α)) → List (List Cover × Deed)
  | [] => []
  | (_,body) :: rest => deedsAll k body ++ deedsArms k rest

def deedsCatches (k : List Cover) : List (CatchHead × List (Tree α)) → List (List Cover × Deed)
  | [] => []
  | (_,body) :: rest => deedsAll k body ++ deedsCatches k rest

end

variable {k : List Cover}

theorem deedsAppend (xs ys : List (Tree α)) : deedsAll k (xs ++ ys) = deedsAll k xs ++ deedsAll k ys := by
  induction xs with
  | nil => rfl
  | cons x xs ih => rw [List.cons_append,deedsAll,deedsAll,ih,List.append_assoc]

theorem deedsZipArms (heads : List ArmHead) (bodies : List (List (Tree α)))
    (same : bodies.length = heads.length) : deedsArms k (heads.zip bodies) = deedsAll k bodies.flatten := by
  induction heads generalizing bodies with
  | nil => rw [List.eq_nil_of_length_eq_zero same]; rfl
  | cons h heads ih =>
    cases bodies with
    | nil => contradiction
    | cons b bodies =>
      rw [List.zip_cons_cons,deedsArms,ih bodies (Nat.succ.inj same),List.flatten_cons,deedsAppend]

theorem deedsZipCatches (heads : List CatchHead) (bodies : List (List (Tree α)))
    (same : bodies.length = heads.length) :
    deedsCatches k (heads.zip bodies) = deedsAll k bodies.flatten := by
  induction heads generalizing bodies with
  | nil => rw [List.eq_nil_of_length_eq_zero same]; rfl
  | cons h heads ih =>
    cases bodies with
    | nil => contradiction
    | cons b bodies =>
      rw [List.zip_cons_cons,deedsCatches,ih bodies (Nat.succ.inj same),List.flatten_cons,deedsAppend]

section
variable (f : α → β)

theorem statementsRelabel (t : Tree α) : (t.relabel f).statements? = t.statements? := by
  cases t with
  | branch l n c a b => cases b <;> rfl
  | guarded l r body cs z => cases z <;> rfl
  | _ => rfl

theorem copiedRelabel (c : CatchHead × List (Tree α)) : copied? (c.1,relabelAll f c.2) = copied? c := by
  obtain ⟨h,body⟩ := c
  cases body with
  | nil => rfl
  | cons t ts =>
    cases ts with
    | cons t' ts => cases t <;> simp [copied?,relabelAll]
    | nil =>
      cases t with
      | branch l n c a b => cases b <;> rfl
      | guarded l r body cs z => cases z <;> rfl
      | _ => rfl

theorem coverRelabel (r : RegionId) (cs : List (CatchHead × List (Tree α))) (z : Option (List (Tree α))) :
    cover r (relabelCatches f cs) (z.map (relabelAll f)) = cover r cs z := by
  have codes : ((z.map (relabelAll f)).getD []).filterMap statements? = (z.getD []).filterMap statements? := by
    cases z with
    | none => rfl
    | some z =>
      simp only [Option.map_some,Option.getD_some,relabelAllMap,List.filterMap_map]
      exact List.filterMap_congr fun t _ => statementsRelabel f t
  have heads : clauseHeads (relabelCatches f cs) (z.map (relabelAll f)) = clauseHeads cs z := by
    have cleanup : sourcesAll ((z.map (relabelAll f)).getD []) = sourcesAll (z.getD []) := by
      cases z with
      | none => rfl
      | some z => exact sourcesRelabelAll f z
    rw [clauseHeads,clauseHeads,cleanup,relabelCatchesMap,List.map_map]
    rfl
  rw [cover,cover,codes,heads,relabelCatchesMap,List.filterMap_map]
  congr 1
  exact List.filterMap_congr fun c _ => copiedRelabel f c

mutual

theorem deedsRelabel : ∀ (k : List Cover) (t : Tree α), (t.relabel f).deeds k = t.deeds k
  | k, block _ body => by simp only [relabel,deeds,deedsRelabelAll k body]
  | _, stmts _ _ _ => rfl
  | k, branch _ _ _ t none => by simp only [relabel,deeds,deedsRelabelAll k t]
  | k, branch _ _ _ t (some e) => by
    simp only [relabel,deeds,deedsRelabelAll k t,deedsRelabelAll k e]
  | k, loop _ _ _ _ _ body => by simp only [relabel,deeds,deedsRelabelAll k body]
  | k, switch _ _ _ arms => by simp only [relabel,deeds,deedsRelabelArms k arms]
  | k, guarded _ r body cs none => by
    have same : cover r (relabelCatches f cs) none = cover r cs none := coverRelabel f r cs none
    simp only [relabel,deeds,same,deedsRelabelAll _ body,deedsRelabelCatches k cs]
  | k, guarded _ r body cs (some z) => by
    have same : cover r (relabelCatches f cs) (some (relabelAll f z)) = cover r cs (some z) :=
      coverRelabel f r cs (some z)
    simp only [relabel,deeds,same,deedsRelabelAll _ body,deedsRelabelCatches k cs]
  | _, goto _ _ => rfl
  | _, breakTo _ _ => rfl
  | _, continueTo _ _ => rfl

theorem deedsRelabelAll : ∀ (k : List Cover) (ts : List (Tree α)), deedsAll k (relabelAll f ts) = deedsAll k ts
  | _, [] => rfl
  | k, t :: ts => by simp only [relabelAll,deedsAll,deedsRelabel k t,deedsRelabelAll k ts]

theorem deedsRelabelArms : ∀ (k : List Cover) (arms : List (ArmHead × List (Tree α))),
    deedsArms k (relabelArms f arms) = deedsArms k arms
  | _, [] => rfl
  | k, (_,body) :: rest => by
    simp only [relabelArms,deedsArms,deedsRelabelAll k body,deedsRelabelArms k rest]

theorem deedsRelabelCatches : ∀ (k : List Cover) (cs : List (CatchHead × List (Tree α))),
    deedsCatches k (relabelCatches f cs) = deedsCatches k cs
  | _, [] => rfl
  | k, (_,body) :: rest => by
    simp only [relabelCatches,deedsCatches,deedsRelabelAll k body,deedsRelabelCatches k rest]

end

end

def Begun (k : List Cover) (ds : List (List Cover × Deed)) : Prop :=
  ∀ x ∈ ds, ∀ c ∈ x.1, c ∈ k ∨ ∃ k', (k',.guard c) ∈ ds

theorem Begun.append {xs ys : List (List Cover × Deed)} (first : Begun k xs) (second : Begun k ys) :
    Begun k (xs ++ ys) := by
  intro x member c inside
  rcases List.mem_append.mp member with member | member
  · exact (first x member c inside).imp_right fun ⟨k',here⟩ => ⟨k',List.mem_append_left _ here⟩
  · exact (second x member c inside).imp_right fun ⟨k',here⟩ => ⟨k',List.mem_append_right _ here⟩

theorem Begun.cons {d : Deed} {ds : List (List Cover × Deed)} (rest : Begun k ds) :
    Begun k ((k,d) :: ds) := by
  intro x member c inside
  rcases List.mem_cons.mp member with rfl | member
  · exact .inl inside
  · exact (rest x member c inside).imp_right fun ⟨k',here⟩ => ⟨k',List.mem_cons_of_mem _ here⟩

theorem Begun.under {c : Cover} {xs ys : List (List Cover × Deed)} (body : Begun (c :: k) xs)
    (rest : Begun k ys) : Begun k ((k,.guard c) :: xs ++ ys) := by
  refine Begun.append (fun x member d inside => ?_) rest
  rcases List.mem_cons.mp member with rfl | member
  · exact .inl inside
  · rcases body x member d inside with here | ⟨k',here⟩
    · rcases List.mem_cons.mp here with rfl | here
      · exact .inr ⟨k,List.mem_cons_self ..⟩
      · exact .inl here
    · exact .inr ⟨k',List.mem_cons_of_mem _ here⟩

theorem Begun.nil : Begun k [] := fun _ member => absurd member List.not_mem_nil

mutual

theorem deedsBegun : ∀ (k : List Cover) (t : Tree α), Begun k (t.deeds k)
  | k, block _ body => deedsBegunAll k body
  | k, stmts _ n ss => by
    rw [deeds]
    split
    · exact .nil
    · exact .cons .nil
  | k, branch _ _ _ t none => (deedsBegunAll k t).cons
  | k, branch _ _ _ t (some e) => ((deedsBegunAll k t).cons).append (deedsBegunAll k e)
  | k, loop _ _ n _ _ body => by
    refine Begun.append (fun x member c inside => ?_) (deedsBegunAll k body)
    obtain ⟨m,-,rfl⟩ := List.mem_map.mp member
    exact .inl inside
  | k, switch _ _ _ arms => (deedsBegunArms k arms).cons
  | k, guarded _ r body cs z => (deedsBegunAll _ body).under (deedsBegunCatches k cs)
  | _, goto _ _ | _, breakTo _ _ | _, continueTo _ _ => .nil

theorem deedsBegunAll : ∀ (k : List Cover) (ts : List (Tree α)), Begun k (deedsAll k ts)
  | _, [] => .nil
  | k, t :: ts => (deedsBegun k t).append (deedsBegunAll k ts)

theorem deedsBegunArms : ∀ (k : List Cover) (arms : List (ArmHead × List (Tree α))),
    Begun k (deedsArms k arms)
  | _, [] => .nil
  | k, (_,body) :: rest => (deedsBegunAll k body).append (deedsBegunArms k rest)

theorem deedsBegunCatches : ∀ (k : List Cover) (cs : List (CatchHead × List (Tree α))),
    Begun k (deedsCatches k cs)
  | _, [] => .nil
  | k, (_,body) :: rest => (deedsBegunAll k body).append (deedsBegunCatches k rest)

end

end Tree

namespace Recovery

open RegCode.Tree

variable {k : List Cover}

theorem deedsDropLast {ps : List Piece} {j : Piece} (last : ps.getLast? = some j) (empty : j.deeds k = []) :
    deedsAll k ps.dropLast = deedsAll k ps := by
  obtain ⟨front,rfl⟩ := List.getLast?_eq_some_iff.mp last
  rw [List.dropLast_concat,deedsAppend,deedsAll,empty]
  exact (List.append_nil _).symm

theorem deedsLoop (key : Key) (kind : LoopKind) (test header : Int) (cond : Option Test) (body : List Piece) :
    deedsAll k [.loop key kind test header cond (dropLastContinue body)] =
      (nodeIfReal test).map (fun m => (k,.test m)) ++ deedsAll k body := by
  have dropped : deedsAll k (dropLastContinue body) = deedsAll k body := by
    unfold dropLastContinue
    split
    · rename_i last
      exact deedsDropLast last rfl
    · rfl
  rw [deedsAll,deeds,dropped]
  exact List.append_nil _

theorem deedsDropBreak (arms : List (ArmHead × List Piece)) :
    deedsArms k (dropLastBreak arms) = deedsArms k arms := by
  induction arms with
  | nil => rfl
  | cons a arms ih =>
    obtain ⟨h,body⟩ := a
    cases arms with
    | nil =>
      unfold dropLastBreak
      split
      · rename_i last
        rw [deedsArms,deedsDropLast last rfl]
        rfl
      · rfl
    | cons b arms =>
      rw [dropLastBreak,deedsArms,deedsArms,ih]
      simp

theorem deedsBranch (key : Key) (n : NodeId) (cond : Test) (meets : Bool) (onTrue onFalse : List Piece) :
    deedsAll k (branchPieces key n cond meets onTrue onFalse) =
      (k,.test n) :: (deedsAll k onTrue ++ deedsAll k onFalse) := by
  unfold branchPieces
  split
  · rename_i empty
    rw [List.isEmpty_iff.mp empty]
    simp [deedsAll,deeds]
  · split
    · rename_i empty
      rw [List.isEmpty_iff.mp empty]
      simp [deedsAll,deeds]
    · split <;> simp [deedsAll,deeds]

theorem deedsSwitch {p : Plan} {f : Frame} {n : NodeId} {s s₁ s₂ : State} {bodies : List (List Piece)}
    (arms : Writes p (.each (switchJobs p f n s) bodies) s₁ s₂) (key : Key) (value : Option Expr) :
    deedsAll k [Tree.switch key n value (writtenArms p f n bodies)] =
      (k,.test n) :: deedsAll k bodies.flatten := by
  have same : bodies.length = ((switchArms p f n).map (·.head)).length := by
    rw [bodiesLength arms,switchJobs,armJobsLength,List.length_map]
  rw [deedsAll,deeds,writtenArms,deedsDropBreak,deedsZipArms _ _ same]
  exact List.append_nil _

theorem deedsStatement (s : State) (n : NodeId) (ss : List Stmt) : deedsAll k [(s.statement n ss).1] =
    [(k,.code n (ss.filter fun t => !s.skipped.contains t.loc))] := by
  simp [State.statement,deedsAll,deeds]

theorem deedsGuarded (key : Key) (r : RegionId) (body : List Piece) (cs : List (CatchHead × List Piece))
    (z : Option (List Piece)) : deedsAll k [.guarded key r body cs z] =
      (k,.guard (cover r cs z)) :: deedsAll (cover r cs z :: k) body ++ deedsCatches k cs := by
  rw [deedsAll,deeds]
  exact List.append_nil _

theorem deedsRepeatClauses (g : Graph) (c : Clauses) (s : State) :
    deedsCatches k ((repeatClauses g c).from s).1 = [] := by
  cases c with
  | cleanup entry => rfl
  | catches heads =>
    show deedsCatches k ((jumpClauses heads).from s).1 = []
    induction heads generalizing s with
    | nil => rfl
    | cons h heads ih =>
      have piece : (s.goto h.node).1 = .goto (.aim h.node) (s.labelOf h.node).1 := rfl
      simp only [jumpClauses,fromBind,fromPure,fromModifyGet,piece,deedsCatches,deedsAll,deeds,ih,
        List.append_nil]

end Recovery

end RegCode
