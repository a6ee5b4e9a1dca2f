import RegCode.Proofs.Recovery.Bound

/-! Structured code holds every node of its graph, counts its jumps to labels, and does not depend
on how deep writing was allowed to go. -/
namespace RegCode

namespace Tree

variable {α β : Type} (f : α → β)

theorem relabelAllMap (ts : List (Tree α)) : relabelAll f ts = ts.map (relabel f) := by
  induction ts with
  | nil => rfl
  | cons t ts ih => rw [relabelAll,ih,List.map_cons]

theorem relabelCatchesMap (cs : List (CatchHead × List (Tree α))) :
    relabelCatches f cs = cs.map fun c => (c.1,relabelAll f c.2) := by
  induction cs with
  | nil => rfl
  | cons c cs ih => rw [relabelCatches,ih,List.map_cons]

mutual

theorem sourcesRelabel : ∀ t : Tree α, (t.relabel f).sources = t.sources
  | block _ body => by simp only [relabel,sources,sourcesRelabelAll body]
  | stmts _ _ _ => rfl
  | branch _ _ _ t none => by simp only [relabel,sources,sourcesRelabelAll t]
  | branch _ _ _ t (some e) => by
    simp only [relabel,sources,sourcesRelabelAll t,sourcesRelabelAll e]
  | loop _ _ _ _ _ body => by simp only [relabel,sources,sourcesRelabelAll body]
  | switch _ _ _ arms => by simp only [relabel,sources,sourcesRelabelArms arms]
  | guarded _ _ body cs none => by
    simp only [relabel,sources,sourcesRelabelAll body,sourcesRelabelCatches cs]
  | guarded _ _ body cs (some z) => by
    simp only [relabel,sources,sourcesRelabelAll body,sourcesRelabelCatches cs,sourcesRelabelAll z]
  | goto _ _ | breakTo _ _ | continueTo _ _ => rfl

theorem sourcesRelabelAll : ∀ ts : List (Tree α), sourcesAll (relabelAll f ts) = sourcesAll ts
  | [] => rfl
  | t :: ts => by simp only [relabelAll,sourcesAll,sourcesRelabel t,sourcesRelabelAll ts]

theorem sourcesRelabelArms : ∀ arms : List (ArmHead × List (Tree α)),
    sourcesArms (relabelArms f arms) = sourcesArms arms
  | [] => rfl
  | (_,body) :: rest => by
    simp only [relabelArms,sourcesArms,sourcesRelabelAll body,sourcesRelabelArms rest]

theorem sourcesRelabelCatches : ∀ cs : List (CatchHead × List (Tree α)),
    sourcesCatches (relabelCatches f cs) = sourcesCatches cs
  | [] => rfl
  | (_,body) :: rest => by
    simp only [relabelCatches,sourcesCatches,sourcesRelabelAll body,sourcesRelabelCatches rest]

end

mutual

theorem kindsRelabel : ∀ t : Tree α, (t.relabel f).kinds = t.kinds
  | block _ body => by simp only [relabel,kinds,kindsRelabelAll body]
  | stmts _ _ _ => rfl
  | branch _ _ _ t none => by simp only [relabel,kinds,kindsRelabelAll t]
  | branch _ _ _ t (some e) => by simp only [relabel,kinds,kindsRelabelAll t,kindsRelabelAll e]
  | loop _ _ _ _ _ body => by simp only [relabel,kinds,kindsRelabelAll body]
  | switch _ _ _ arms => by simp only [relabel,kinds,kindsRelabelArms arms]
  | guarded _ _ body cs none => by
    simp only [relabel,kinds,kindsRelabelAll body,kindsRelabelCatches cs]
  | guarded _ _ body cs (some z) => by
    simp only [relabel,kinds,kindsRelabelAll body,kindsRelabelCatches cs,kindsRelabelAll z]
  | goto _ _ | breakTo _ _ | continueTo _ _ => rfl

theorem kindsRelabelAll : ∀ ts : List (Tree α), kindsAll (relabelAll f ts) = kindsAll ts
  | [] => rfl
  | t :: ts => by simp only [relabelAll,kindsAll,kindsRelabel t,kindsRelabelAll ts]

theorem kindsRelabelArms : ∀ arms : List (ArmHead × List (Tree α)),
    kindsArms (relabelArms f arms) = kindsArms arms
  | [] => rfl
  | (_,body) :: rest => by
    simp only [relabelArms,kindsArms,kindsRelabelAll body,kindsRelabelArms rest]

theorem kindsRelabelCatches : ∀ cs : List (CatchHead × List (Tree α)),
    kindsCatches (relabelCatches f cs) = kindsCatches cs
  | [] => rfl
  | (_,body) :: rest => by
    simp only [relabelCatches,kindsCatches,kindsRelabelAll body,kindsRelabelCatches rest]

end

end Tree

namespace Recovery

open RegCode.Tree

variable {p : Plan}

inductive Remains (p : Plan) : List NodeId → List Piece → State → State → Prop where
  | none {s} : Remains p [] [] s s
  | met {n ns out s s'} (met : s.mark n ≠ .unvisited) (rest : Remains p ns out s s') :
      Remains p (n :: ns) out s s'
  | more {n ns out outs s s₁ s₂} (free : s.mark n = .unvisited)
      (here : Writes p (.emit {} n out) (s.want n) s₁) (rest : Remains p ns outs s₁ s₂) :
      Remains p (n :: ns) (out ++ outs) s s₂

theorem Remains.wrote {ns : List NodeId} {out : List Piece} {s s' : State}
    (remains : Remains p ns out s s') : Wrote s (sourcesAll out) (jumpCount out) s' ∧
      ((∀ m, s.mark m ≠ .entered) → ∀ n ∈ ns, s'.mark n = .finished) := by
  induction remains with
  | none => exact ⟨.quiet rfl rfl,fun _ n member => absurd member List.not_mem_nil⟩
  | @met n ns out s s' met rest ih =>
    refine ⟨ih.1,fun whole m member => ?_⟩
    rcases List.mem_cons.mp member with rfl | member
    · refine ih.1.finished ?_
      cases mark : s.mark m with
      | unvisited => exact absurd mark met
      | entered => exact absurd mark (whole m)
      | finished => rfl
    · exact ih.2 whole m member
  | @more n ns out outs s s₁ s₂ free here rest ih =>
    have wanted : Wrote s [] 0 (s.want n) := .quiet rfl rfl
    obtain ⟨wrote,finished⟩ := here.covers
    have all := (wanted.trans wrote).trans ih.1
    rw [List.nil_append,Nat.zero_add,← sourcesAppend,← jumpCountAppend] at all
    refine ⟨all,fun whole m member => ?_⟩
    rcases List.mem_cons.mp member with rfl | member
    · exact ih.1.finished finished
    · refine ih.2 (fun k entered => ?_) m member
      rcases wrote.marks k with same | finished
      · exact whole k (same.symm.trans entered)
      · rw [finished] at entered
        contradiction

def Drafted (p : Plan) (entry : NodeId) (w : Draft) : Prop :=
  ∃ out rest s, Writes p (.emit {} entry out) {} s ∧ Remains p p.graph.rpo rest s w.state ∧
    w.body = out ++ rest

theorem needDepth {s : State} {f : Frame} {n : NodeId} (free : s.mark n = .unvisited) :
    need p f n s ≤ depth p := by
  have few : unmet p s ≤ p.graph.store.size + p.shapes.length := by
    refine List.countP_le_length.trans ?_
    rw [starters,List.length_append,List.length_range,List.length_map]
  have most := Nat.mul_le_mul_right (width p) few
  have enough := needFree (p := p) (f := f) free
  have bound : depth p = (p.graph.store.size + p.shapes.length) * width p + width p :=
    Nat.succ_mul ..
  rw [bound]
  have wide : width p = p.graph.regions.size + 3 := rfl
  omega

theorem remainsOfCode {fuel : Nat} (enough : depth p ≤ fuel) (ns : List NodeId) (s : State) :
    Remains p ns ((writeRest p fuel ns).from s).1 s ((writeRest p fuel ns).from s).2 := by
  induction ns generalizing s with
  | nil => exact .none
  | cons n ns ih =>
    by_cases free : s.mark n = .unvisited
    · obtain ⟨out,s₁,code,here⟩ := emitWorks p fuel {} n (s.want n)
        (Nat.le_trans (needDepth free) enough)
      have all : (writeRest p fuel (n :: ns)).from s =
          (out ++ ((writeRest p fuel ns).from s₁).1,((writeRest p fuel ns).from s₁).2) := by
        simp only [writeRest,fromBind,fromGet,free,if_true,fromModify,code,fromPure]
      rw [all]
      exact .more free here (ih s₁)
    · have all : (writeRest p fuel (n :: ns)).from s = (writeRest p fuel ns).from s := by
        simp only [writeRest,fromBind,fromGet,free,if_false]
      rw [all]
      exact .met free (ih s)

theorem drafted {fuel : Nat} (enough : depth p ≤ fuel) (entry : NodeId) :
    Drafted p entry (draft p fuel entry) := by
  have free : ({} : State).mark entry = .unvisited := rfl
  obtain ⟨out,s₁,code,here⟩ := emitWorks p fuel {} entry {} (Nat.le_trans (needDepth free) enough)
  have all : (writeAll p fuel entry).from {} = (out ++ ((writeRest p fuel p.graph.rpo).from s₁).1,
      ((writeRest p fuel p.graph.rpo).from s₁).2) := by
    simp only [writeAll,fromBind,fromPure,code]
  have made : draft p fuel entry = ⟨((writeAll p fuel entry).from {}).1,
    ((writeAll p fuel entry).from {}).2⟩ := rfl
  rw [made,all]
  exact ⟨out,_,s₁,here,remainsOfCode enough _ s₁,rfl⟩

theorem emitStable {a b : Nat} {f : Frame} {n : NodeId} {s : State} (left : need p f n s ≤ a)
    (right : need p f n s ≤ b) : (emit p a f n).from s = (emit p b f n).from s := by
  obtain ⟨out,s',code,writes⟩ := emitWorks p a f n s left
  obtain ⟨out',s'',code',writes'⟩ := emitWorks p b f n s right
  obtain ⟨fuel,same,same'⟩ := (writes.code.and writes'.code).exists
  rw [code,code',← same,← same']

theorem draftStable {fuel : Nat} (enough : depth p ≤ fuel) (entry : NodeId) :
    draft p fuel entry = draft p (depth p) entry := by
  have rest : ∀ (ns : List NodeId) (s : State),
      (writeRest p fuel ns).from s = (writeRest p (depth p) ns).from s := by
    intro ns
    induction ns with
    | nil => exact fun _ => rfl
    | cons n ns ih =>
      intro s
      by_cases free : s.mark n = .unvisited
      · have here := needDepth (p := p) (f := {}) (s := s.want n) free
        have same := emitStable (Nat.le_trans here enough) here
        simp only [writeRest,fromBind,fromGet,free,if_true,fromModify,fromPure,same,ih]
      · simp only [writeRest,fromBind,fromGet,free,if_false,ih]
  have here := needDepth (p := p) (f := {}) (s := {}) (n := entry) rfl
  have same := emitStable (Nat.le_trans here enough) here
  have all : (writeAll p fuel entry).from {} = (writeAll p (depth p) entry).from {} := by
    simp only [writeAll,fromBind,fromPure,same,rest]
  exact congrArg (fun w : List Piece × State => Draft.mk w.1 w.2) all

end Recovery

/-- Every graph has a tree, under every choice. It does not depend on how deep writing may go, as
long as that is deep enough; every node of the graph stands in it; and it counts its jumps to
labels. -/
theorem Graph.recoverComplete (g : Graph) (blank : g.entry = none → g.rpo = []) (d : Dominators)
    (policy : Policy) :
    (∃ r, g.recover d policy = .ok r ∧ (∀ n ∈ g.rpo, (n : Int) ∈ r.root.sources) ∧
      r.gotos = r.root.kinds.count .goto) ∧
    ∀ entry fuel, Recovery.depth (Plan.ofGraph g d policy) ≤ fuel →
      Recovery.draft (Plan.ofGraph g d policy) fuel entry =
        Recovery.draft (Plan.ofGraph g d policy) (Recovery.depth (Plan.ofGraph g d policy)) entry := by
  refine ⟨?_,fun entry fuel enough => Recovery.draftStable enough entry⟩
  cases start : g.entry with
  | none =>
    refine ⟨⟨.block "" [],0,0,0⟩,by simp only [recover,start],?_,rfl⟩
    rw [blank start]
    exact fun n member => absurd member List.not_mem_nil
  | some entry =>
    obtain ⟨out,rest,s,here,remains,body⟩ :=
      Recovery.drafted (p := Plan.ofGraph g d policy) (Nat.le_refl _) entry
    obtain ⟨wrote,-⟩ := here.covers
    obtain ⟨more,finished⟩ := remains.wrote
    have all := wrote.trans more
    rw [← Tree.sourcesAppend,← Tree.jumpCountAppend,← body] at all
    have whole : ∀ m, s.mark m ≠ .entered := by
      intro m entered
      rcases wrote.marks m with same | finished
      · rw [same] at entered
        contradiction
      · rw [finished] at entered
        contradiction
    have done := finished whole
    have none : g.rpo.find? (fun n => (Recovery.draft (Plan.ofGraph g d policy)
        (Recovery.depth (Plan.ofGraph g d policy)) entry).state.mark n != .finished) = none := by
      rw [List.find?_eq_none]
      intro n member
      simpa using done n member
    refine ⟨_,by simp only [recover,start,none]; rfl,fun n member => ?_,?_⟩
    · rw [Tree.sourcesRelabel,Tree.sources]
      exact (all.sources n (done n member)).resolve_left fun same => nomatch same
    · rw [Tree.kindsRelabel,Tree.kinds,List.count_cons_of_ne (by decide)]
      exact all.jumps.trans (Nat.zero_add _)

def Graph.crossing : Graph where
  vars := ⟨#[{}]⟩
  params := [0]
  entry := some 0
  store := #[
    { num := 0, kind := .cond, stmts := [⟨0,.branch ⟨.eq,.var 0,none⟩⟩], succs := [1,2],
      onTrue := some 1, onFalse := some 2 },
    { num := 1, stmts := [⟨1,.assign 0 (.const "I" 1) false⟩], succs := [2], preds := [0,2] },
    { num := 2, kind := .cond, stmts := [⟨2,.branch ⟨.lt,.var 0,none⟩⟩], succs := [1,3],
      preds := [0,1], onTrue := some 1, onFalse := some 3 },
    { num := 3, kind := .ret, stmts := [⟨3,.ret (some (.var 0))⟩], preds := [2] }]
  nodes := [0,1,2,3]
  rpo := [0,1,2,3]
  nextLoc := 4

theorem Graph.recoverCompleteCrossing : (crossing.entry = none → crossing.rpo = []) ∧
    ∃ r, crossing.recover (Dominators.ofGraph crossing) {} = .ok r ∧
      (∀ n ∈ crossing.rpo, (n : Int) ∈ r.root.sources) ∧ r.gotos = r.root.kinds.count .goto := by
  have blank : crossing.entry = none → crossing.rpo = [] := fun h => nomatch h
  obtain ⟨r,code,sources,jumps⟩ :=
    (recoverComplete crossing blank (Dominators.ofGraph crossing) {}).1
  exact ⟨blank,r,code,sources,jumps⟩

end RegCode
