import RegCode.Decompile
import RegCode.Proofs.Chains.Lines
import RegCode.Proofs.Flow.Shielding
import RegCode.Proofs.Flow.Variables

/-! Graphs of methods whose names have no line break. Lowering takes names from the instructions, and what
follows it on the way to a tree moves statements about. -/
namespace RegCode

namespace Stmt

theorem constructorLine {s : Stmt} (line : s.act.OneLine) {v : VarId} {owner : String} {args : List Expr}
    (call : s.constructorCall? = some (v,owner,args)) : (Expr.newObject owner args true).OneLine := by
  unfold constructorCall? at call
  split at call
  · rename_i m w args act
    split at call
    · cases call
      rw [act] at line
      exact ⟨line.1.owner,line.2.2⟩
    · contradiction
  · contradiction

theorem foldConstructorsLine {ss : List Stmt} (lines : ∀ s ∈ ss, s.act.OneLine) :
    ∀ s ∈ foldConstructors ss, s.act.OneLine := by
  intro s member
  rcases foldConstructorsMem member with old | ⟨t,there,v,owner,args,call,rfl⟩
  · exact lines s old
  · exact constructorLine (lines t there) call

end Stmt

namespace Lower

variable {α β : Type} {m : Method} {i : Instruction}

def Yields (P : α → Prop) (w : Lowering α) : Prop := ∀ t a t', Does w t a t' → P a

namespace Yields

variable {P : α → Prop} {Q : β → Prop}

theorem pure {a : α} (holds : P a) : Yields P (Pure.pure a : Lowering α) := by
  intro t b t' did
  obtain ⟨rfl,-⟩ := doesPure.mp did
  exact holds

theorem bind {w : Lowering α} {k : α → Lowering β} (first : Yields P w) (second : ∀ a, P a → Yields Q (k a)) :
    Yields Q (w >>= k) := by
  intro t b t' did
  obtain ⟨a,t₁,here,rest⟩ := doesBind.mp did
  exact second a (first t a t₁ here) t₁ b t' rest

theorem after {w : Lowering α} {k : α → Lowering β} (second : ∀ a, Yields Q (k a)) : Yields Q (w >>= k) :=
  bind (P := fun _ => True) (fun _ _ _ _ => trivial) fun a _ => second a

theorem reject (i : Instruction) (cause : LowerCause) : Yields P (Lower.reject i cause : Lowering α) :=
  fun _ _ _ did => absurd did didReject

theorem read (r : Int) : Yields Expr.OneLine (Lower.read r) := after fun _ => pure trivial

theorem readAll (rs : List Int) : Yields Expr.AllOneLine (Lower.readAll rs) := by
  induction rs with
  | nil => exact pure trivial
  | cons r rs ih => exact bind (read r) fun _ first => bind ih fun _ rest => pure ⟨first,rest⟩

theorem assign (r : Int) {value : Lowering Expr} (yields : Yields Expr.OneLine value) :
    Yields Action.OneLine (Lower.assign r value) := after fun _ => bind yields fun _ line => pure line

theorem fieldOf (line : i.OneLine) : Yields FieldRef.OneLine (Lower.fieldOf i) := by
  unfold Lower.fieldOf
  split
  · rename_i f some
    exact pure (line.field f some)
  · exact reject i _

theorem call (line : i.OneLine) : Yields Expr.OneLine (Lower.call i) := by
  unfold Lower.call
  split
  · exact bind (readAll _) fun _ lines => pure ⟨line.ref,lines⟩
  · split
    · exact reject i _
    · rename_i ref some
      have ref := line.method ref some
      dsimp only
      split
      · split
        · exact reject i _
        · exact bind (readAll _) fun _ lines => pure ⟨ref,lines⟩
      · split
        · exact reject i _
        · refine bind (read _) fun _ receiver => ?_
          split
          · exact reject i _
          · exact bind (readAll _) fun _ lines => pure ⟨ref,receiver,lines⟩

theorem caughtLine (method : m.OneLine) (offset : Int) : Text.OneLine (caughtType m offset) := by
  have types : ∀ h ∈ (m.tries.flatMap (·.handlers)).filter (·.target == offset), Text.OneLine h.type := by
    intro h member
    obtain ⟨t,range,held⟩ := List.mem_flatMap.mp (List.mem_filter.mp member).1
    exact method.types t range h held
  unfold caughtType
  split
  · decide
  · rename_i h hs same
    have first := types h (same ▸ List.mem_cons_self ..)
    refine List.foldlRecOn hs _ (motive := Text.OneLine) first fun type line k _ => ?_
    split
    · exact line
    · decide

theorem operate (method : m.OneLine) (line : i.OneLine) (a b c : Int) :
    Yields Action.OneLine (Lower.operate m i a b c) := by
  have one : ∀ {γ : Type} {R : γ → Prop} r (f : Expr → γ), (∀ e, e.OneLine → R (f e)) →
      Yields R (do return f (← Lower.read r)) := fun r f lines => bind (read r) fun e own => pure (lines e own)
  have two : ∀ {γ : Type} {R : γ → Prop} q r (f : Expr → Expr → γ), (∀ l e, l.OneLine → e.OneLine → R (f l e)) →
      Yields R (do let l ← Lower.read q; let e ← Lower.read r; Pure.pure (f l e)) :=
    fun q r f lines => bind (read q) fun l left => one r _ fun e right => lines l e left right
  unfold Lower.operate
  split
  case h_1 => exact assign _ (read _)
  case h_2 => exact assign _ (pure (caughtLine method _))
  case h_3 =>
    refine one _ _ fun e own x same => ?_
    cases same
    exact own
  case h_4 | h_5 => exact assign _ (pure (show Text.OneLine _ by decide))
  case h_6 => exact assign _ (pure trivial)
  case h_7 => exact assign _ (pure line.ref)
  case h_8 | h_9 | h_15 | h_16 | h_17 | h_18 => exact one _ _ fun _ own => own
  case h_10 => exact assign _ (one _ _ fun _ own => ⟨line.ref,own⟩)
  case h_11 => exact assign _ (one _ _ fun _ own => ⟨own,line.ref⟩)
  case h_12 => exact assign _ (one _ _ fun _ own => own)
  case h_13 => exact assign _ (pure ⟨line.ref,trivial⟩)
  case h_14 => exact assign _ (one _ _ fun _ own => ⟨line.ref,own⟩)
  case h_19 => exact assign _ (two _ _ _ fun _ _ left right => ⟨left,right,line.type,line.bias⟩)
  case h_20 => exact two _ _ _ fun _ _ left right => ⟨left,right⟩
  case h_21 => exact one _ _ fun _ own => own
  case h_22 => exact assign _ (two _ _ _ fun _ _ array index => ⟨array,index,line.type⟩)
  case h_23 => exact bind (read _) fun _ array => two _ _ _ fun _ _ index value => ⟨array,index,value⟩
  case h_24 => exact bind (fieldOf line) fun _ ref => assign _ (one _ _ fun _ own => ⟨ref,own⟩)
  case h_25 =>
    refine bind (fieldOf line) fun _ ref => two _ _ _ fun _ _ object value => ⟨ref,fun x same => ?_,value⟩
    cases same
    exact object
  case h_26 => exact bind (fieldOf line) fun _ ref => assign _ (pure ref)
  case h_27 => exact bind (fieldOf line) fun _ ref => one _ _ fun _ value => ⟨ref,nofun,value⟩
  case h_28 => exact assign _ (one _ _ fun _ own => ⟨own,line.type⟩)
  case h_29 => exact assign _ (one _ _ fun _ own => ⟨line.toType,own⟩)
  case h_30 => exact assign _ (two _ _ _ fun _ _ left right => ⟨left,right,line.type⟩)
  case h_31 =>
    refine assign _ (one _ _ fun e own => ?_)
    have int : Text.OneLine "I" := by decide
    split <;> exact ⟨by assumption,by assumption,int⟩
  case h_32 => exact reject i _

theorem single (method : m.OneLine) (line : i.OneLine) :
    Yields (fun a => ∀ x ∈ a, x.OneLine) (Lower.single m i) := by
  unfold Lower.single
  split
  · exact pure nofun
  · exact pure nofun
  · refine pure fun x same => ?_
    cases same
    exact nofun
  · split
    · exact reject i _
    · refine bind (operate method line _ _ _) fun a own => pure fun x same => ?_
      cases same
      exact own

theorem actions (method : m.OneLine) {is : List Instruction} (lines : ∀ i ∈ is, i.OneLine) :
    Yields (fun as => ∀ a ∈ as, a.OneLine) (Lower.actions m is) := by
  induction is using Lower.actions.induct with
  | case1 => exact pure fun _ none => absurd none List.not_mem_nil
  | case2 i rest family ih | case3 i rest family ih =>
    obtain ⟨first,later⟩ := List.forall_mem_cons.mp lines
    unfold Lower.actions
    simp only [family]
    refine bind (call first) fun e own => ?_
    cases rest with
    | nil => exact pure (List.forall_mem_singleton.mpr own)
    | cons next rest =>
      dsimp only at ih ⊢
      split
      · split
        · exact reject next _
        · exact after fun v => bind (ih.1 (List.forall_mem_cons.mp later).2) fun more rest =>
            pure (List.forall_mem_cons.mpr ⟨own,rest⟩)
      · exact bind (ih.2 later) fun more rest => pure (List.forall_mem_cons.mpr ⟨own,rest⟩)
  | case4 i rest family =>
    unfold Lower.actions
    simp only [family]
    exact reject i _
  | case5 i rest notCall notArray notResult ih =>
    obtain ⟨first,later⟩ := List.forall_mem_cons.mp lines
    unfold Lower.actions
    split
    · exact absurd ‹_› notCall
    · exact absurd ‹_› notArray
    · exact absurd ‹_› notResult
    · refine bind (single method first) fun a own => bind (ih later) fun more rest => pure ?_
      exact List.forall_mem_append.mpr ⟨fun x member => own x (Option.mem_toList.mp member),rest⟩

theorem block (method : m.OneLine) {is : List Instruction} (lines : ∀ i ∈ is, i.OneLine) :
    Yields (fun ss => ∀ s ∈ ss, s.act.OneLine) (Lower.block m is) :=
  bind (actions method lines) fun _ acts => pure (Stmt.foldConstructorsLine (List.forall_mem_map.mpr acts))

end Yields

end Lower

namespace VarTable.OneLine

variable {t u : VarTable}

theorem registers (grown : t.Registers u) (line : t.OneLine) : u.OneLine :=
  grown.keeps (fun _ r line => line.register r) line

theorem param (line : t.OneLine) (r : Int) {type : String} (new : Text.OneLine type) (this : Bool) :
    (t.param r type this).1.OneLine := by
  unfold VarTable.param
  refine (line.register r).set _ ?_
  split
  · exact ⟨new,show Text.OneLine "this" by decide⟩
  · exact ⟨new,by simp +decide⟩

theorem seeded (line : t.OneLine) (r : Int) {given : List (String × Bool)}
    (types : ∀ x ∈ given, Text.OneLine x.1) : (Flow.seedParams t r given).1.OneLine := by
  induction given generalizing t r with
  | nil => exact line
  | cons x given ih =>
    obtain ⟨first,rest⟩ := List.forall_mem_cons.mp types
    exact ih (line.param r first x.2) _ rest

end VarTable.OneLine

namespace Graph

variable {m : Method} {g h : Graph}

theorem parametersLine (method : m.OneLine) : (Flow.parameters m).1.OneLine := by
  refine VarTable.OneLine.empty.seeded _ (List.forall_mem_append.mpr ⟨?_,?_⟩)
  · split
    · exact fun _ none => absurd none List.not_mem_nil
    · exact List.forall_mem_singleton.mpr method.owner
  · exact List.forall_mem_map.mpr method.paramTypes

namespace OneLine

theorem edit (line : g.OneLine) (i : NodeId) {f : Node → Node} (same : ∀ n : Node, (f n).stmts = n.stmts) :
    (g.modify i f).OneLine := line.modify i fun n all => same n ▸ all

theorem editAll (line : g.OneLine) (is : List NodeId) {f : Node → Node} (same : ∀ n : Node, (f n).stmts = n.stmts) :
    (g.modifyAll is f).OneLine :=
  List.foldlRecOn is _ (motive := Graph.OneLine) line fun _ line i _ => line.edit i same

theorem addEdge (line : g.OneLine) (i j : NodeId) : (g.addEdge i j).OneLine := by
  refine edit (edit line i ?_) j ?_ <;> exact fun _ => rfl

theorem addCatchEdge (line : g.OneLine) (i j : NodeId) : (g.addCatchEdge i j).OneLine := by
  refine edit (edit line i ?_) j ?_ <;> exact fun _ => rfl

theorem addNode (line : g.OneLine) {n : Node} (new : ∀ s ∈ n.stmts, s.act.OneLine) : (g.addNode n).1.OneLine := by
  refine ⟨fun i => ?_,line.vars,line.types⟩
  rw [nodeAddNode]
  split
  · exact new
  · exact line.acts i

theorem removeNode (line : g.OneLine) (i : NodeId) : (g.removeNode i).OneLine := by
  have start : Graph.OneLine { g with nodes := without i g.nodes } := ⟨line.acts,line.vars,line.types⟩
  unfold Graph.removeNode
  refine editAll (editAll (editAll (editAll start _ ?_) _ ?_) _ ?_) _ ?_ <;> exact fun _ => rfl

theorem numberFrom (line : g.OneLine) (k : Nat) (is : List NodeId) : (g.numberFrom k is).OneLine := by
  induction is generalizing g k with
  | nil => exact line
  | cons i is ih =>
    refine ih (edit line i ?_) _
    exact fun _ => rfl

theorem renumber (line : g.OneLine) : g.renumber.OneLine := by
  unfold Graph.renumber
  split
  · exact line
  · dsimp only
    have gone : ∀ {g : Graph} i, g.OneLine → ((g.modify i fun n => { n with num := -1 }).removeNode i).OneLine := by
      intro g i line
      refine removeNode (edit line i ?_) i
      exact fun _ => rfl
    have numbered := numberFrom (List.foldlRecOn (g.nodes.filter fun i => !g.reversePostorder.contains i) _
      (motive := Graph.OneLine) line fun _ line i _ => gone i line) 0 g.reversePostorder
    exact ⟨numbered.acts,numbered.vars,numbered.types⟩

theorem withRegions (line : g.OneLine) {rs : Array Region}
    (types : ∀ r ∈ rs, ∃ q ∈ g.regions, r.handlers.map CatchEntry.type = q.handlers.map CatchEntry.type) :
    Graph.OneLine { g with regions := rs } := by
  refine ⟨line.acts,line.vars,fun r member => ?_⟩
  obtain ⟨q,old,same⟩ := types r member
  have lines := List.forall_mem_map.mpr (line.types q old)
  rw [← same] at lines
  exact List.forall_mem_map.mp lines

end OneLine

open RegCode.Flow in
theorem guardLine (line : g.OneLine) : (guardEntry g).OneLine := by
  unfold guardEntry
  split
  · exact line
  · dsimp only
    split
    · exact line
    · rename_i e _ _
      have added := (line.addNode (n := { start := (g.node e).start }) nofun).addEdge g.store.size e
      exact ⟨added.acts,added.vars,added.types⟩

open RegCode.Flow in
theorem numberLine (line : g.OneLine) : (numberStatements g).OneLine := by
  refine List.foldlRecOn g.nodes _ (motive := Graph.OneLine) line fun h line i _ => ?_
  have acts : ∀ k, ∀ s ∈ numberStmts k (h.node i).stmts, s.act.OneLine := by
    intro k
    rw [← List.forall_mem_map (f := Stmt.act),numberStmtsActs,List.forall_mem_map]
    exact line.acts i
  have numbered := line.modify i (f := fun n => { n with stmts := numberStmts h.nextLoc (h.node i).stmts })
    fun _ _ => acts _
  exact ⟨numbered.acts,numbered.vars,numbered.types⟩

open RegCode.Flow in
theorem drawnLine (method : m.OneLine) {blocks met : List Block} {b : Builder}
    (drawn : Drawn m blocks met met.length b) (code : ∀ k ∈ blocks, k.insts ⊆ m.code)
    (vars : b.graph.vars.OneLine) : b.graph.OneLine := by
  refine ⟨fun i => ?_,vars,fun r member => ?_⟩
  · by_cases inside : i < b.graph.store.size
    · obtain ⟨k,met_,ss,lowered,among⟩ := drawn.origin inside
      have insts := code k (drawn.standing.known.inside k met_)
      exact fun s stands => Lower.Yields.block method (fun i member => method.code i (insts member)) _ _ _ lowered s
        (among s stands)
    · rw [nodeOutside (Nat.le_of_not_lt inside)]
      exact fun _ none => absurd none List.not_mem_nil
  · obtain ⟨k,inside,rfl⟩ := Array.mem_iff_getElem.mp member
    obtain ⟨key,found⟩ := drawn.standing.tabled.all k inside
    obtain ⟨t,range,-,q,there,lists⟩ := drawn.standing.tabled.keyed key k found
    obtain rfl := Option.some.inj ((Array.getElem?_eq_getElem inside).symm.trans there)
    intro c held
    obtain ⟨n,here,rfl⟩ := List.mem_iff_getElem.mp held
    have given := lists.length_eq ▸ here
    exact (lists.get here given).1 ▸ method.types t range _ (List.getElem_mem given)

open RegCode.Flow in
theorem lineOfMethod (method : m.OneLine) (made : ofMethod m = .ok g) : g.OneLine := by
  have empty : ∀ {vars params}, vars.OneLine → Graph.OneLine { vars, params } := fun vars =>
    ⟨fun _ _ none => absurd none List.not_mem_nil,vars,by simp⟩
  rcases ofMethodParts made with ⟨-,rfl⟩ | ⟨-,rfl⟩ | ⟨first,rest,u,b,blocks,queued,rfl⟩
  · exact empty .empty
  · exact empty (parametersLine method)
  · obtain ⟨more,drawn⟩ := didBuildQueueDrawn queued (.start m (List.mem_cons_self ..) rfl rfl rfl) rfl
    have vars : b.graph.vars.OneLine := (parametersLine method).registers (Keeping.buildQueue m _ _ _ _ queued).vars
    have line := guardLine (drawnLine method drawn (blocks ▸ fun k => Block.splitInsts) vars)
    refine (numberLine (g := linkRegions _) (line.withRegions fun r member => ?_)).renumber
    obtain ⟨q,old,rfl⟩ := Array.mem_map.mp member
    exact ⟨q,old,rfl⟩

namespace OneLine

theorem splitTest (line : g.OneLine) (i : NodeId) : (g.splitTest i).OneLine := by
  rcases g.splitTestBody i with ⟨same,-⟩ | ⟨last,ends,-,-,same⟩
  · rwa [same]
  · have member : last ∈ (g.node i).stmts := List.mem_of_getLast? ends
    have parted : (g.parted i last).OneLine :=
      (line.addNode (n := g.front i) fun s held => line.acts i s (List.mem_of_mem_dropLast held)).modify i
        fun _ _ => List.forall_mem_singleton.mpr (line.acts i last member)
    have detoured : (g.detoured i last).OneLine := by
      unfold detoured
      refine addEdge (edit (editAll (editAll parted _ ?_) _ ?_) i ?_) _ i <;> exact fun _ => rfl
    have body : (g.splitBody i last).OneLine := by
      have handled : ∀ hs, ((g.detoured i last).addCatchEdges g.store.size hs).OneLine := fun hs =>
        List.foldlRecOn hs _ (motive := Graph.OneLine) detoured fun _ line h _ => line.addCatchEdge _ h
      unfold splitBody
      dsimp only
      split
      · exact handled _
      · refine edit (editAll (handled _) _ ?_) i ?_ <;> exact fun _ => rfl
    have led : Graph.OneLine { g.splitBody i last with
        regions := ((g.splitBody i last).redirect i g.store.size).regions } := by
      refine body.withRegions fun r there => ?_
      obtain ⟨q,old,rfl⟩ := Array.mem_map.mp there
      refine ⟨q,old,?_⟩
      rw [List.map_map]
      refine List.map_congr_left fun h _ => ?_
      unfold Function.comp redirectHandler
      split <;> rfl
    rw [same]
    exact ⟨led.acts,led.vars,led.types⟩

theorem splitTests (line : g.OneLine) : g.splitTests.OneLine :=
  List.foldlRecOn g.nodes _ (motive := Graph.OneLine) line fun _ line i _ => line.splitTest i

theorem merge (line : g.OneLine) (i j : NodeId) : (g.merge i j).OneLine := by
  have joined := line.modify i
    (f := fun n => { n with stmts := n.stmts ++ (g.node j).stmts, kind := (g.node j).kind, succs := [] })
    fun n all => List.forall_mem_append.mpr ⟨all,line.acts j⟩
  have taken : ∀ {g : Graph} t, g.OneLine →
      ((g.modify t fun n => { n with preds := without j n.preds }).addEdge i t).OneLine := by
    intro g t line
    refine addEdge (edit line t ?_) i t
    exact fun _ => rfl
  have caught : ∀ {g : Graph} h, g.OneLine →
      ((g.modify h fun n => { n with catchPreds := without j n.catchPreds }).addCatchEdge i h).OneLine := by
    intro g h line
    refine addCatchEdge (edit line h ?_) i h
    exact fun _ => rfl
  have folded := List.foldlRecOn (g.node j).catchSuccs _ (motive := Graph.OneLine)
    (List.foldlRecOn (g.node j).succs _ (motive := Graph.OneLine) joined fun _ line t _ => taken t line)
    fun _ line h _ => caught h line
  have cut := folded.edit j (f := fun n => { n with succs := [], catchSuccs := [], preds := [] }) fun _ => rfl
  exact ⟨cut.acts,cut.vars,cut.types⟩

theorem bypass (line : g.OneLine) (i j : NodeId) : (g.bypass i j).OneLine := by
  have left := line.edit j (f := fun s => { s with preds := without i s.preds }) fun _ => rfl
  have led : ∀ {g : Graph} p, g.OneLine →
      ((g.modify p (Node.retarget i j)).modify j fun s => { s with preds := insertOnce p s.preds }).OneLine := by
    intro g p line
    refine edit (edit line p ?_) j ?_ <;> exact fun _ => rfl
  have caught := (List.foldlRecOn (g.node i).preds _ (motive := Graph.OneLine) left fun _ line p _ =>
    led p line).editAll (g.node i).catchSuccs (f := fun h => { h with catchPreds := without i h.catchPreds })
      fun _ => rfl
  have cut := caught.edit i (f := fun n => { n with preds := [], succs := [], catchSuccs := [] }) fun _ => rfl
  exact ⟨cut.acts,cut.vars,cut.types⟩

theorem simplify (line : g.OneLine) : g.simplify.OneLine :=
  keptSimplify (P := Graph.OneLine) (fun _ i j line _ _ => line.merge i j) (fun _ i j line _ _ => line.bypass i j)
    (fun _ line => line.renumber) line

end OneLine

end Graph

namespace Decompile

variable {α β : Type}

def Gives (P : α → Prop) (w : Stages α) : Prop := ∀ dumps a, (w.run.run dumps).1 = .ok a → P a

namespace Gives

variable {P : α → Prop} {Q : β → Prop}

theorem pure {a : α} (holds : P a) : Gives P (Pure.pure a) := by
  intro dumps b same
  cases same
  exact holds

theorem liftFault {ε : Type} {f : ε → DecompileFault} {x : Except ε α} (holds : ∀ a, x = .ok a → P a) :
    Gives P (Decompile.liftFault f x) := by
  cases x with
  | error e => exact fun _ _ same => nomatch same
  | ok a => exact pure (holds a rfl)

theorem bind {w : Stages α} {k : α → Stages β} (first : Gives P w) (later : ∀ a, P a → Gives Q (k a)) :
    Gives Q (w >>= k) := by
  intro dumps b same
  rw [ExceptT.run_bind,StateT.run_bind] at same
  have here := first dumps
  generalize w.run.run dumps = out at here same
  obtain ⟨a,dumps'⟩ := out
  cases a with
  | error f => contradiction
  | ok a => exact later a (here a rfl) dumps' b same

theorem after {w : Stages α} {k : α → Stages β} (later : ∀ a, Gives Q (k a)) : Gives Q (w >>= k) :=
  bind (P := fun _ => True) (fun _ _ _ => trivial) fun a _ => later a

end Gives

theorem refineLine (c : Config) {g : Graph} (line : g.OneLine) :
    Gives (fun a => a.graph.OneLine) (refine c g) := by
  have finish : ∀ {a : Analysed}, a.graph.OneLine → a.eliminateDeadCode.1.graph.OneLine := fun line =>
    Analysed.Pass.deadCode.oneLine line
  have rest : ∀ {a : Analysed}, a.graph.OneLine → Gives (fun b => b.graph.OneLine) (if c.propagate then do
      return (a.propagate c.propagateOptions).1.eliminateDeadCode.1 else return a) := by
    intro a line
    split
    · exact .pure (finish ((Analysed.Pass.propagate c.propagateOptions).oneLine line))
    · exact .pure line
  unfold refine
  refine .after fun chains => ?_
  dsimp only
  split
  · refine .bind (.liftFault fun a split => ?_) fun a line => rest (finish line)
    exact (Analysed.Pass.lifetimes split).oneLine line
  · exact .bind (P := fun a => a.graph.OneLine) (.pure line) fun a line => rest (finish line)

theorem declareLine {a : Analysed} (line : a.graph.OneLine) : (declare a).OneLine :=
  (Analysed.Pass.declarations _ _).oneLine (Analysed.Pass.types.oneLine line)

theorem runLine (c : Config) {m : Method} (method : m.OneLine) : Gives (fun d => d.graph.OneLine ∧
    ∀ r ∈ d.tree, d.graph.recover (Dominators.ofGraph d.graph) c.policy = .ok r) (run c m) := by
  unfold run
  refine .after fun _ => .bind (.liftFault fun g made => Graph.lineOfMethod method made) fun g line => ?_
  split
  · exact .pure ⟨line,nofun⟩
  · refine .after fun _ => .bind (refineLine c line) fun a line => .after fun _ => ?_
    refine .bind (.liftFault fun r made => made) fun r made => .after fun _ => .pure ?_
    refine ⟨(declareLine line).splitTests.simplify,fun r' same => ?_⟩
    cases same
    exact made

end Decompile

end RegCode
