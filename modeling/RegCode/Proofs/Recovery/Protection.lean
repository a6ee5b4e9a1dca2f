import RegCode.Proofs.Recovery.Standing
import Mathlib

/-! The protection that structured code gives to the nodes of its graph. -/
namespace RegCode

open RegCode.Tree

namespace Tree

variable {α : Type}

/-- Statements, a branch or a switch of a node. -/
def IsCodeOf (n : NodeId) : Tree α → Prop
  | stmts _ m _ | branch _ m _ _ _ | switch _ m _ _ => m = n
  | _ => False

end Tree

/-- Something in the node can raise. -/
def Node.Raises (n : Node) : Prop := ∃ s ∈ n.stmts, s.canThrow = true

namespace LoopShape

variable {g : Graph} {l : Loop} {shape : LoopShape}

theorem pretestHeader (found : pretest? g l = some shape) :
    shape.loop = l ∧ shape.kind = .pretest ∧ (g.node l.header).kind = .cond := by
  unfold pretest? at found
  dsimp only at found
  split at found
  · contradiction
  · rename_i cond
    obtain ⟨t,-,found⟩ := Option.bind_eq_some_iff.mp found
    obtain ⟨f,-,found⟩ := Option.bind_eq_some_iff.mp found
    split at found
    · contradiction
    · cases Option.some.inj found
      exact ⟨rfl,rfl,by simpa using cond⟩

theorem posttestLatch (found : posttest? g l = some shape) :
    shape.loop = l ∧ shape.kind = .posttest ∧
      ∀ t, shape.test = some t → (g.node t).kind = .cond ∧ t ≠ l.header := by
  unfold posttest? at found
  split at found
  · dsimp only at found
    split at found
    · contradiction
    · rename_i latch _ proper
      have form : shape.loop = l ∧ shape.kind = .posttest ∧ shape.test = some latch := by
        split at found
        case' isFalse => split at found
        case isFalse.isFalse => contradiction
        all_goals
          obtain ⟨out,-,found⟩ := Option.bind_eq_some_iff.mp found
          split at found
          · contradiction
          · cases Option.some.inj found
            exact ⟨rfl,rfl,rfl⟩
      refine ⟨form.1,form.2.1,fun t same => ?_⟩
      cases Option.some.inj (form.2.2.symm.trans same)
      exact ⟨not_not.mp fun other => proper (.inr other),fun here => proper (.inl here)⟩
  · contradiction

theorem ofLoopForm (g : Graph) (policy : LoopPolicy) (l : Loop) :
    ofLoop g policy l = endless g l ∨ pretest? g l = some (ofLoop g policy l) ∨
      posttest? g l = some (ofLoop g policy l) := by
  unfold ofLoop
  cases policy <;> cases pre : pretest? g l <;> cases post : posttest? g l <;> simp

end LoopShape

namespace Recovery

theorem tested (g : Graph) (d : Dominators) (policy : Policy) : Tested (Plan.ofGraph g d policy) := by
  intro shape member
  obtain ⟨l,-,rfl⟩ := List.mem_map.mp member
  rcases LoopShape.ofLoopForm g policy.loop l with form | form | form
  · rw [form]
    exact ⟨nofun,nofun⟩
  · obtain ⟨loop,kind,cond⟩ := LoopShape.pretestHeader form
    rw [loop,kind]
    exact ⟨fun _ => cond,nofun⟩
  · obtain ⟨loop,kind,test⟩ := LoopShape.posttestLatch form
    rw [loop,kind]
    exact ⟨nofun,fun _ => test⟩

variable {p : Plan}

theorem remainsStand {ns : List NodeId} {out : List Piece} {s s' : State} (shaped : p.graph.Shaped)
    (tested : Tested p) (remains : Remains p ns out s s') (known : Known p s) :
    StandAll p none out ∧ Known p s' := by
  induction remains with
  | none => exact ⟨.nil,known⟩
  | met met rest ih => exact ih known
  | more free here rest ih =>
    obtain ⟨stands,known₁⟩ := here.places shaped tested rfl (known.same rfl)
    obtain ⟨others,known₂⟩ := ih known₁
    exact ⟨stands.append others,known₂⟩

theorem draftStands {entry : NodeId} {w : Draft} (shaped : p.graph.Shaped) (tested : Tested p)
    (drafted : Drafted p entry w) : StandAll p none w.body := by
  obtain ⟨out,rest,s,here,remains,body⟩ := drafted
  have known : Known p {} := fun r c found => nomatch found
  obtain ⟨stands,known₁⟩ := here.places shaped tested rfl known
  rw [body]
  exact stands.append (remainsStand shaped tested remains known₁).1

end Recovery

namespace Graph

open Recovery

def written (g : Graph) (d : Dominators) (policy : Policy) : Draft :=
  match g.entry with
  | none => ⟨[],{}⟩
  | some entry => draft (Plan.ofGraph g d policy) (Recovery.depth (Plan.ofGraph g d policy)) entry

theorem recoverWritten (g : Graph) (d : Dominators) (policy : Policy) : ∃ r,
    g.recover d policy = .ok r ∧ r.root = (Tree.block Key.none (g.written d policy).body).relabel
      (fun key => (g.written d policy).state.names.getD key "") ∧
    (g.written d policy = ⟨[],{}⟩ ∨
      (∃ entry, Drafted (Plan.ofGraph g d policy) entry (g.written d policy)) ∧
        ∀ n ∈ g.rpo, (g.written d policy).state.mark n = .finished) := by
  cases start : g.entry with
  | none =>
    have same : g.written d policy = ⟨[],{}⟩ := by rw [written,start]
    refine ⟨⟨.block "" [],0,0,0⟩,by simp only [recover,start],?_,.inl same⟩
    rw [same]
    rfl
  | some entry =>
    obtain ⟨w,same⟩ : ∃ w, draft (Plan.ofGraph g d policy) (Recovery.depth (Plan.ofGraph g d policy))
      entry = w := ⟨_,rfl⟩
    have drafted := drafted (p := Plan.ofGraph g d policy) (Nat.le_refl _) entry
    have whole : g.written d policy = w := by rw [written,start]; exact same
    rw [same] at drafted
    obtain ⟨out,rest,s,here,remains,-⟩ := id drafted
    have unentered : ∀ m, s.mark m ≠ .entered := by
      intro m entered
      rcases here.covers.1.marks m with same | finished
      · rw [same] at entered
        contradiction
      · rw [finished] at entered
        contradiction
    have done := remains.wrote.2 unentered
    have none : g.rpo.find? (fun n => w.state.mark n != .finished) = none :=
      List.find?_eq_none.mpr fun n member => by simpa using done n member
    have code : g.recover d policy = .ok
        { root := (Tree.block .none w.body).relabel fun key => w.state.names.getD key ""
          gotos := w.state.gotos
          irreducible := (Plan.ofGraph g d policy).loops.irreducible.length
          loops := (Plan.ofGraph g d policy).loops.loops.length } := by
      simp only [recover,start,same,none]
    rw [whole]
    exact ⟨_,code,rfl,.inr ⟨⟨entry,drafted⟩,done⟩⟩

theorem recoverDrafted (g : Graph) (d : Dominators) (policy : Policy) :
    ∃ r body names, g.recover d policy = .ok r ∧
      r.root = (Tree.block Key.none body).relabel names ∧
      (body = [] ∨ ∃ entry s, Drafted (Plan.ofGraph g d policy) entry ⟨body,s⟩) := by
  obtain ⟨r,code,root,made⟩ := g.recoverWritten d policy
  refine ⟨r,_,_,code,root,?_⟩
  rcases made with blank | ⟨⟨entry,drafted⟩,-⟩
  · exact .inl (by rw [blank])
  · exact .inr ⟨entry,_,drafted⟩

theorem recoverPlaces {m : Method} {g : Graph} (made : ofMethod m = .ok g) (d : Dominators)
    (policy : Policy) : ∃ r, g.splitTests.simplify.recover d policy = .ok r ∧
      ∀ y ∈ r.root.within none, Placed (Plan.ofGraph g.splitTests.simplify d policy) y.1 y.2 := by
  obtain ⟨r,body,names,code,root,drafted⟩ := recoverDrafted g.splitTests.simplify d policy
  have stands : StandAll (Plan.ofGraph g.splitTests.simplify d policy) none body := by
    rcases drafted with rfl | ⟨entry,s,drafted⟩
    · exact .nil
    · exact draftStands (shapedOfMethod made) (tested _ d policy) drafted
  refine ⟨r,code,fun y member => ?_⟩
  rw [root,withinRelabel] at member
  obtain ⟨z,inside,rfl⟩ := List.mem_map.mp member
  refine placedRelabel.mpr ?_
  rcases List.mem_cons.mp inside with rfl | inside
  · trivial
  · exact standAllWithin.mp stands z inside

theorem Shaped.quiet {g : Graph} (shaped : g.Shaped) {n : NodeId} (cond : (g.node n).kind = .cond) :
    ¬(g.node n).Raises := by
  rintro ⟨s,member,raises⟩
  have short := shaped.alone n (.inl cond)
  obtain ⟨k,only⟩ : ∃ k, (g.node n).stmts = [k] := by
    cases stmts : (g.node n).stmts with
    | nil =>
      rw [stmts] at member
      contradiction
    | cons k rest =>
      rw [stmts,List.length_cons] at short
      exact ⟨k,by rw [List.eq_nil_of_length_eq_zero (Nat.le_zero.mp (Nat.le_of_succ_le_succ short))]⟩
  rw [only] at member
  cases List.mem_singleton.mp member
  have quiet := shaped.tests n cond s.act (by rw [only]; rfl)
  rw [Stmt.canThrow,quiet] at raises
  contradiction

end Graph

def Method.recovered? (m : Method) (policy : Policy) : Option (Graph × Recovered) :=
  (Graph.ofMethod m).toOption.bind fun g =>
    (g.splitTests.simplify.recover (Dominators.ofGraph g.splitTests.simplify) policy).toOption.map
      fun r => (g,r)

theorem toOptionSome {ε α : Type} {x : Except ε α} {a : α} (same : x.toOption = some a) : x = .ok a := by
  cases x with
  | error e => contradiction
  | ok b => exact congrArg Except.ok (Option.some.inj same)

theorem recoveredAny {m : Method} {policy : Policy} {check : Graph × Recovered → Bool}
    (found : (m.recovered? policy).any check = true) : ∃ g r, Graph.ofMethod m = .ok g ∧
      g.splitTests.simplify.recover (Dominators.ofGraph g.splitTests.simplify) policy = .ok r ∧
      check (g,r) = true := by
  obtain ⟨⟨g,r⟩,here,passes⟩ := (Option.any_eq_true ..).mp found
  obtain ⟨g',made,found⟩ := Option.bind_eq_some_iff.mp here
  obtain ⟨r',code,same⟩ := Option.map_eq_some_iff.mp found
  cases same
  exact ⟨g,r,toOptionSome made,toOptionSome code,passes⟩

def Instruction.callOf (offset : Int) (name : String) : Instruction :=
  { family := .invoke, invoke := .static, width := 3, mnemonic := "invoke-static", offset,
    method := some ⟨"LTest;",name,[],"V"⟩ }

def Instruction.leave (offset : Int) : Instruction :=
  { family := .returnVoid, mnemonic := "return-void", offset }

def Instruction.receive (offset : Int) : Instruction :=
  { family := .moveException, mnemonic := "move-exception", offset, regs := [0] }

def Instruction.raise (offset : Int) : Instruction :=
  { family := .throw, mnemonic := "throw", offset, regs := [0] }

def Method.short (code : List Instruction) (tries : List TryRange) : Method where
  owner := "LTest;"
  name := "f"
  descriptor := "()V"
  access := ⟨9⟩
  registers := 1
  index := 0
  line := 0
  code
  tries
  overlaps := []

def Method.rescued : Method := .short
  [.callOf 0 "g",.callOf 3 "done",.leave 6,.receive 7,.callOf 8 "done",.raise 11,.leave 12]
  [⟨0,3,[⟨"",7⟩]⟩,⟨7,12,[⟨"",12⟩]⟩]

namespace Graph

def exposes (g : Graph) : Tree String → Bool
  | .guarded _ q _ _ (some z) => (List.range g.store.size).any fun n =>
    (sourcesAll z).contains (n : Int) && (g.node n).stmts.any Stmt.canThrow &&
      (g.node n).region != g.parentOf q
  | _ => false

set_option maxRecDepth 100000 in
theorem rescuedExposes : (Method.rescued.recovered? {}).any (fun x => (x.2.root.within none).any fun y =>
    x.1.splitTests.simplify.exposes y.2) = true := by
  simp only [Method.recovered?,ofMethod,Block.split,Block.starts,TryTable.ascending,simplify,renumber,
    reversePostorder,Flow.exploreNested,sortByHalves]
  decide +kernel

/-- Outside of clean-up code, the innermost protected body around the code of a node is that of the
region of the node. -/
theorem recoverContained {m : Method} {g : Graph} (made : ofMethod m = .ok g) (d : Dominators)
    (policy : Policy) : ∃ r, g.splitTests.simplify.recover d policy = .ok r ∧
      ∀ x t, (x,t) ∈ r.root.within none → ∀ n, t.IsCodeOf n →
        x = (g.splitTests.simplify.node n).region := by
  obtain ⟨r,code,places⟩ := recoverPlaces made d policy
  refine ⟨r,code,fun x t member n here => ?_⟩
  have placed := places (x,t) member
  cases t with
  | stmts l k ss => exact (placed n here).symm
  | branch l k c a b => exact (placed n here).symm
  | switch l k v arms => exact (placed n here).symm
  | _ => exact here.elim

theorem recoverContainedRescued : ∃ g, ofMethod .rescued = .ok g ∧
    ∃ r, g.splitTests.simplify.recover (Dominators.ofGraph g.splitTests.simplify) {} = .ok r ∧
      ∀ x t, (x,t) ∈ r.root.within none → ∀ n, t.IsCodeOf n →
        x = (g.splitTests.simplify.node n).region := by
  obtain ⟨g,r,made,-,-⟩ := recoveredAny rescuedExposes
  exact ⟨g,made,recoverContained made _ {}⟩

/-- What is raised in the test of a loop or in clean-up code reaches the handlers of its node. -/
def Protects (g : Graph) (x : Option RegionId) : Tree String → Prop
  | .loop _ _ k _ _ _ => ∀ n : NodeId, k = n → (g.node n).Raises → (g.node n).region = x
  | .guarded _ _ _ _ cleanup => ∀ z ∈ cleanup, ∀ n : NodeId, (n : Int) ∈ sourcesAll z →
    (g.node n).Raises → (g.node n).region = x
  | _ => True

/-- Tests of loops cannot raise, and a loop stands under the protection of its header. Clean-up code
of a region, which can, stands under that of the region around it: what it raises reaches the
handlers of its node just when the node lies in that region. -/
theorem recoverProtects {m : Method} {g : Graph} (made : ofMethod m = .ok g) (d : Dominators)
    (policy : Policy) : ∃ r, g.splitTests.simplify.recover d policy = .ok r ∧
      ∀ x t, (x,t) ∈ r.root.within none →
        (∀ l kind k h c body, t = .loop l kind k h c body →
          (∀ n : NodeId, h = n → (g.splitTests.simplify.node n).region = x) ∧
          ∀ n : NodeId, k = n → ¬(g.splitTests.simplify.node n).Raises) ∧
        (g.splitTests.simplify.Protects x t ↔
          ∀ l q body cs z, t = .guarded l q body cs (some z) → ∀ n : NodeId, (n : Int) ∈ sourcesAll z →
            (g.splitTests.simplify.node n).Raises →
            (g.splitTests.simplify.node n).region = g.splitTests.simplify.parentOf q) := by
  obtain ⟨r,code,places⟩ := recoverPlaces made d policy
  refine ⟨r,code,fun x t member => ⟨fun l kind k h c body same => ?_,?_⟩⟩
  · subst same
    obtain ⟨header,test⟩ := places _ member
    exact ⟨header,fun n same => (shapedOfMethod made).quiet (test n same)⟩
  · have placed := places (x,t) member
    cases t with
    | loop l kind k h c body =>
      refine ⟨fun _ _ _ _ _ _ => nofun,fun _ n same raises => ?_⟩
      exact absurd raises ((shapedOfMethod made).quiet (placed.2 n same))
    | guarded l q body cs cleanup =>
      obtain rfl : g.splitTests.simplify.parentOf q = x := placed.2.1
      constructor
      · intro protects l' q' body' cs' z same
        cases same
        exact protects z rfl
      · intro holds z same
        cases same
        exact holds l q body cs z rfl
    | _ => exact ⟨fun _ _ _ _ _ _ => nofun,fun _ => trivial⟩

/-- The clean-up code of `rescued` lies outside of its own protection. -/
theorem recoverProtectsRescued : ∃ g r x t, ofMethod .rescued = .ok g ∧
    g.splitTests.simplify.recover (Dominators.ofGraph g.splitTests.simplify) {} = .ok r ∧
    (x,t) ∈ r.root.within none ∧ ¬g.splitTests.simplify.Protects x t := by
  obtain ⟨g,r,made,code,exposed⟩ := recoveredAny rescuedExposes
  obtain ⟨⟨x,t⟩,member,exposed⟩ := List.any_eq_true.mp exposed
  obtain ⟨r',code',protection⟩ := recoverProtects made (Dominators.ofGraph g.splitTests.simplify) {}
  obtain rfl := Except.ok.inj (code.symm.trans code')
  refine ⟨g,r,x,t,made,code,member,fun holds => ?_⟩
  match t,exposed with
  | .guarded l q body cs (some z),exposed =>
    obtain ⟨n,-,all⟩ := List.any_eq_true.mp exposed
    simp only [Bool.and_eq_true,List.contains_iff_mem,bne_iff_ne] at all
    obtain ⟨⟨inside,raises⟩,other⟩ := all
    exact other ((protection x _ member).2.mp holds l q body cs z rfl n inside
      (List.any_eq_true.mp raises))

end Graph

end RegCode
