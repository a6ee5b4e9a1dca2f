import RegCode.Proofs.Recovery.Carrying

/-! Clean-up code is run once on each way out of what it protects, where it stands for the start of a node that
is come to from there only. It is not where some other way leads to that node. -/
namespace RegCode

open RegCode.Tree Recovery

/-! ### A check for tidy code -/

namespace Action

def alike : Action → Action → Bool
  | assign v a d,assign w b e => v == w && a == b && d == e
  | declare v,declare w => v == w
  | invoke a,invoke b => a == b
  | storeField r (some o) a,storeField q (some u) b => r == q && o == u && a == b
  | storeField r none a,storeField q none b => r == q && a == b
  | storeElement a i x,storeElement b j y => a == b && i == j && x == y
  | fill a xs,fill b ys => a == b && xs == ys
  | monitor d a,monitor e b => d == e && a == b
  | _,_ => false

end Action

namespace Recovery

variable {w : Draft} {p : Plan} {c : Cover} {e x : NodeId} {r : RegionId}

namespace Draft

end Draft

end Recovery

namespace Graph

variable {g : Graph} {policy : Policy} {entry : NodeId}

theorem Readied.kept (readied : g.Readied) (closed : ∀ n ∈ g.rpo, (g.node n).Closed)
    (ends : ∀ n ∈ g.rpo, (g.node n).Ends)
    (drafted : Drafted (Plan.ofGraph g (Dominators.ofGraph g) policy) entry (g.written (Dominators.ofGraph g) policy))
    (member : entry ∈ g.rpo)
    (tidy : (g.written (Dominators.ofGraph g) policy).Tidy (Plan.ofGraph g (Dominators.ofGraph g) policy)) :
    Recovery.Kept (g.written (Dominators.ofGraph g) policy) (Plan.ofGraph g (Dominators.ofGraph g) policy) := by
  have took := draftTook (k := []) readied.shaped (tested g (Dominators.ofGraph g) policy) drafted
  have guards := draftInGraph (readied.listed policy) readied.shaped drafted member []
  obtain ⟨natural,-⟩ := LoopForest.naturalOfGraph readied.ranked readied.edged
  refine
    { listed := readied.listed policy
      shaped := readied.shaped
      tested := tested g (Dominators.ofGraph g) policy
      fits := fun a inside => ?_
      closed
      ends
      whole := g.wholeWritten (Dominators.ofGraph g) policy
      tidy
      right := fun c covered => ?_
      used := fun c covered => ?_
      own := fun n inside ss code => ?_ }
  · obtain ⟨l,found,rfl⟩ := List.mem_map.mp inside
    exact LoopShape.fitsOfLoop ends (natural l found) policy.loop
  · obtain ⟨k,guard⟩ := Draft.coversMem.mp covered
    exact (took.guards k c guard).1
  · obtain ⟨k,guard⟩ := Draft.coversMem.mp covered
    exact guards k c guard
  · obtain ⟨⟨k,d⟩,here,rfl⟩ := List.mem_map.mp code
    exact took.own readied guards tidy inside here

end Graph

/-- A call in a branch. From the second instruction on, clean-up code stands inside of the branch. -/
def Method.branching (start : Int) : Method := { Method.short
  [.ifZero 0 "if-eqz" .eq 1 5,.callOf 2 "g",.callOf 5 "done",.leave 8,.receive 9,.callOf 10 "done",.raise 13]
  [⟨start,5,[⟨"",9⟩]⟩] with descriptor := "(I)V", registers := 2 }

def Turnout.of (equal raises : Bool) : Turnout where
  holds c := if equal then c.op == .eq || c.op == .le || c.op == .ge else c.op == .ne || c.op == .gt || c.op == .ge
  value _ := 0
  negated c := by
    obtain ⟨op,left,right⟩ := c
    cases equal <;> cases op <;> rfl
  raises
  fits _ := true
  throwable := rfl

namespace Graph

def labels? (g : Graph) (es : List Turnout) : Option (List Label) :=
  g.entry.bind fun n => trace g.turn 30 (g.start n) es

theorem labelsTraces {g : Graph} {es : List Turnout} {ls : List Label} (done : g.labels? es = some ls) :
    ∃ entry, g.entry = some entry ∧ Traces g.turn (g.start entry) es ls := by
  obtain ⟨entry,start,traced⟩ := Option.bind_eq_some_iff.mp done
  exact ⟨entry,start,30,traced⟩

set_option maxRecDepth 100000 in
theorem branchingStrays : ((Method.branching 2).recovered? {}).any (fun x =>
    let g := x.1.splitTests.simplify
    let w := g.written (Dominators.ofGraph g) {}
    (g.labels? [.of true false,.of true false]).any (·.length == 3) &&
      (trace w.turn 30 (push w.body []) [.of true false,.of true false]).any (·.length == 2)) = true := by
  simp only [Method.recovered?,ofMethod,Block.split,Block.starts,TryTable.ascending,simplify,renumber,
    reversePostorder,Flow.exploreNested,sortByHalves]
  decide +kernel

/-- Round the protected code of the branch, nothing runs what clean-up code stands for. -/
theorem branchingLost : ∃ g r, ofMethod (.branching 2) = .ok g ∧
    g.splitTests.simplify.recover (Dominators.ofGraph g.splitTests.simplify) {} = .ok r ∧
    ∃ entry es ls, g.splitTests.simplify.entry = some entry ∧
      Traces g.splitTests.simplify.turn (g.splitTests.simplify.start entry) es ls ∧
      ¬Traces (g.splitTests.simplify.written (Dominators.ofGraph g.splitTests.simplify) {}).turn
        (push (g.splitTests.simplify.written (Dominators.ofGraph g.splitTests.simplify) {}).body []) es ls := by
  obtain ⟨g,r,made,code,check⟩ := recoveredAny branchingStrays
  obtain ⟨long,short⟩ := Bool.and_eq_true_iff.mp check
  obtain ⟨ls,done,length⟩ := (Option.any_eq_true ..).mp long
  obtain ⟨entry,start,traces⟩ := labelsTraces done
  obtain ⟨ls',done',length'⟩ := (Option.any_eq_true ..).mp short
  refine ⟨g,r,made,code,entry,_,ls,start,traces,fun also => ?_⟩
  rw [Traces.unique also ⟨30,done'⟩,beq_iff_eq.mp length'] at length
  contradiction

end Graph

end RegCode
