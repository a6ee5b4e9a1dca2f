import RegCode.Recovery
import Mathlib.Order.Filter.AtTopBot.Basic

/-! What writing does, one rule for each way in which code is written, without a bound on how deep
it goes. Whatever the rules derive is what the code writes under every bound that is large enough. -/
namespace RegCode.Recovery

def Writing.from {α : Type} (w : Writing α) (s : State) : α × State := w.run s

section
variable {α β : Type}

theorem fromPure (a : α) (s : State) : Writing.from (pure a) s = (a,s) := by rfl

theorem fromBind (w : Writing α) (k : α → Writing β) (s : State) :
    Writing.from (w >>= k) s = (k (w.from s).1).from (w.from s).2 := by rfl

theorem fromGet (s : State) : Writing.from get s = (s,s) := by rfl

theorem fromModify (f : State → State) (s : State) : Writing.from (modify f) s = ((),f s) := by rfl

theorem fromModifyGet (f : State → α × State) (s : State) :
    Writing.from (modifyGet f) s = f s := by rfl

end

inductive Job where
  | emit (f : Frame) (n : NodeId) (out : List Piece)
  | go (f : Frame) (t : Option NodeId) (out : List Piece)
  | goOn (f : Frame) (lead : List Piece) (follow : Option NodeId) (more : List Piece)
  | each (jobs : List (Frame × NodeId)) (outs : List (List Piece))

def shapeAt? (p : Plan) (f : Frame) (n : NodeId) : Option LoopShape :=
  (p.shape? n).filter fun _ => !isLoopOpen f.scopes n

def Bare (p : Plan) (f : Frame) (n : NodeId) : Prop :=
  pendingRegion? p f n = none ∧ shapeAt? p f n = none

namespace State

def enter (n : NodeId) (own : String) (follow : Option NodeId) (s : State) : State :=
  ((s.bump.place n (s.key own)).setMark n .entered).reserve follow

def leave (n : NodeId) (follow : Option NodeId) (s : State) : State :=
  (s.release follow).setMark n .finished

def openLoop (n : NodeId) (s : State) : State := s.bump.place n (s.key (loopName n))

def openGuard (n : NodeId) (follow : Option NodeId) (s : State) : State :=
  (s.bump.place n (s.key "")).reserve follow

def cleaned (r : RegionId) (entry : NodeId) (copy : List Loc) (key : Key) (s : State) : State :=
  (((s.openRegion r (.cleanup entry)).skip copy).place entry key).setMark entry .finished

end State

def sideFrame (f : Frame) (follow : Option NodeId) : Frame :=
  if follow.isSome then { f with stop := follow, fall := none } else f

def loopScopes (f : Frame) (shape : LoopShape) (n : NodeId) (s : State) : List Scope :=
  .loop shape (s.key (loopName n)) :: f.scopes

def switchFollow (p : Plan) (f : Frame) (n : NodeId) : Option NodeId := (p.switchFollows.get? n).or f.stop

def switchArms (p : Plan) (f : Frame) (n : NodeId) : List Arm :=
  armsOf p.graph (p.graph.node n) (switchFollow p f n)

def switchJobs (p : Plan) (f : Frame) (n : NodeId) (s : State) : List (Frame × NodeId) :=
  armJobs (.switch n (switchFollow p f n) (s.key (switchName n)) :: f.scopes) (switchArms p f n)

def writtenArms (p : Plan) (f : Frame) (n : NodeId) (bodies : List (List Piece)) :
    List (ArmHead × List Piece) :=
  dropLastBreak (((switchArms p f n).map (·.head)).zip bodies)

def ownGroups (p : Plan) (r : RegionId) : List Group :=
  groupHandlers p.policy.handlers (ownHandlers p.graph r)

def guardFollow (p : Plan) (s : State) (f : Frame) (r : RegionId) : Option NodeId :=
  followOfRegion p s f r ((ownGroups p r).map (·.entry))

def insideGuard (f : Frame) (r : RegionId) (follow : Option NodeId) : Frame :=
  { scopes := .guarded r :: f.scopes, stop := follow }

def outsideGuard (f : Frame) (follow : Option NodeId) : Frame := { scopes := f.scopes, stop := follow }

inductive Writes (p : Plan) : Job → State → State → Prop where
  | nowhere {f s} : Writes p (.go f none []) s s
  | inline {f t out s s'} (way : route p s f t = .inline) (rest : Writes p (.emit f t out) s s') :
      Writes p (.go f (some t) out) s s'
  | falls {f t s} (way : route p s f t = .done) : Writes p (.go f (some t) []) s s
  | breaks {f t scope s} (way : route p s f t = .breakTo scope) :
      Writes p (.go f (some t) [.breakTo .none (scopeText scope)]) s (s.nameScope scope)
  | continues {f t scope s} (way : route p s f t = .continueTo scope) :
      Writes p (.go f (some t) [.continueTo .none (scopeText scope)]) s (s.nameScope scope)
  | jumps {f t s} (way : route p s f t = .goto) :
      Writes p (.go f (some t) [(s.goto t).1]) s (s.goto t).2
  | nothing {s} : Writes p (.each [] []) s s
  | each {f t jobs out outs s s₁ s₂} (first : Writes p (.go f (some t) out) s s₁)
      (rest : Writes p (.each jobs outs) s₁ s₂) : Writes p (.each ((f,t) :: jobs) (out :: outs)) s s₂
  | ends {f lead s} : Writes p (.goOn f lead none []) s s
  | never {f lead t s} (jump : Tree.endsInJump lead = true) (way : route p s f t ≠ .inline) :
      Writes p (.goOn f lead (some t) []) s s
  | behind {f lead t more s s'} (jump : Tree.endsInJump lead = true)
      (way : route p s f t = .inline) (rest : Writes p (.emit f t more) s s') :
      Writes p (.goOn f lead (some t) more) s s'
  | on {f lead t more s s'} (passes : Tree.endsInJump lead = false)
      (rest : Writes p (.go f (some t) more) s s') : Writes p (.goOn f lead (some t) more) s s'
  | last {f n s} (bare : Bare p f n) (noBranch : (p.graph.node n).kind ≠ .cond)
      (noSwitch : (p.graph.node n).kind ≠ .switch)
      (alone : ∀ t, (p.graph.node n).kind = .stmt → (p.graph.node n).succs ≠ [t]) :
      Writes p (.emit f n [(s.statement n (p.graph.node n).stmts).1]) s
        (s.statement n (p.graph.node n).stmts).2
  | plain {f n t out s s'} (bare : Bare p f n) (kind : (p.graph.node n).kind = .stmt)
      (succ : (p.graph.node n).succs = [t])
      (rest : Writes p (.go f (some t) out) (s.statement n (p.graph.node n).stmts).2 s') :
      Writes p (.emit f n ((s.statement n (p.graph.node n).stmts).1 :: out)) s s'
  | branch {f n cond first second lead onTrue onFalse more s s₀ s₁ s₂ s₃} (bare : Bare p f n)
      (kind : (p.graph.node n).kind = .cond)
      (sides : orient p s f (p.graph.node n) (p.branchFollows.get? n) = (cond,first,second))
      (start : s.lead n (p.graph.node n).stmts = (lead,s₀))
      (left : Writes p (.go (sideFrame f (p.branchFollows.get? n)) first onTrue)
        (s₀.enter n "" (p.branchFollows.get? n)) s₁)
      (right : Writes p (.go (sideFrame f (p.branchFollows.get? n)) second onFalse) s₁ s₂)
      (rest : Writes p (.goOn f (lead ++ branchPieces (s₀.key "") n cond
        (p.branchFollows.get? n).isSome onTrue onFalse) (p.branchFollows.get? n) more)
        (s₂.leave n (p.branchFollows.get? n)) s₃) :
      Writes p (.emit f n (lead ++ branchPieces (s₀.key "") n cond
        (p.branchFollows.get? n).isSome onTrue onFalse ++ more)) s s₃
  | switch {f n lead bodies more s s₀ s₁ s₂} (bare : Bare p f n)
      (kind : (p.graph.node n).kind = .switch)
      (start : s.lead n (p.graph.node n).stmts = (lead,s₀))
      (arms : Writes p (.each (switchJobs p f n s₀) bodies)
        (s₀.enter n (switchName n) (switchFollow p f n)) s₁)
      (rest : Writes p (.goOn f (lead ++ [.switch (s₀.key (switchName n)) n
        (switchValue (p.graph.node n)) (writtenArms p f n bodies)]) (switchFollow p f n) more)
        (s₁.leave n (switchFollow p f n)) s₂) :
      Writes p (.emit f n (lead ++ [.switch (s₀.key (switchName n)) n
        (switchValue (p.graph.node n)) (writtenArms p f n bodies)] ++ more)) s s₂
  | pretest {f n found shape body more s s₁ s₂} (outside : pendingRegion? p f n = none)
      (starts : shapeAt? p f n = some found) (settled : settleShape p s found = shape)
      (kind : shape.kind = .pretest)
      (inner : Writes p (.go { scopes := loopScopes f shape n s, stop := some n } (some shape.start)
        body) ((s.openLoop n).setMark n .entered) s₁)
      (rest : Writes p (.goOn f [.loop (s.key (loopName n)) .pretest n n
        (some (loopTest p.graph n shape.start)) (dropLastContinue body)] shape.follow more)
        (s₁.setMark n .finished) s₂) :
      Writes p (.emit f n (.loop (s.key (loopName n)) .pretest n n
        (some (loopTest p.graph n shape.start)) (dropLastContinue body) :: more)) s s₂
  | posttest {f n found shape latch body more s s₁ s₂} (outside : pendingRegion? p f n = none)
      (starts : shapeAt? p f n = some found) (settled : settleShape p s found = shape)
      (kind : shape.kind = .posttest) (test : shape.test = some latch)
      (inner : Writes p (.emit { scopes := loopScopes f shape n s, stop := some latch } n body)
        (((s.openLoop n).place latch (s.key (loopName n))).setMark latch .entered) s₁)
      (rest : Writes p (.goOn f [.loop (s.key (loopName n)) .posttest latch n
        (some (loopTest p.graph latch n)) (dropLastContinue body)] shape.follow more)
        (s₁.setMark latch .finished) s₂) :
      Writes p (.emit f n (.loop (s.key (loopName n)) .posttest latch n
        (some (loopTest p.graph latch n)) (dropLastContinue body) :: more)) s s₂
  | endless {f n found shape body more s s₁ s₂} (outside : pendingRegion? p f n = none)
      (starts : shapeAt? p f n = some found) (settled : settleShape p s found = shape)
      (kind : shape.kind ≠ .pretest) (test : shape.kind = .posttest → shape.test = none)
      (inner : Writes p (.emit { scopes := loopScopes f shape n s } n body) (s.openLoop n) s₁)
      (rest : Writes p (.goOn f [.loop (s.key (loopName n)) .endless (-1) n none
        (dropLastContinue body)] shape.follow more) s₁ s₂) :
      Writes p (.emit f n (.loop (s.key (loopName n)) .endless (-1) n none
        (dropLastContinue body) :: more)) s s₂
  | cleanup {f n r entry code copy body more s s₁ s₂} (outside : pendingRegion? p f n = some r)
      (first : s.regions.get? r = none)
      (clean : cleanup? p r (ownGroups p r) (guardFollow p s f r) = some (entry,code,copy))
      (inner : Writes p (.emit (insideGuard f r (guardFollow p s f r)) n body)
        ((s.openGuard n (guardFollow p s f r)).cleaned r entry copy (s.key "")) s₁)
      (rest : Writes p (.goOn f [.guarded (s.key "") r body [] (some [.stmts .none entry code])]
        (guardFollow p s f r) more) (s₁.release (guardFollow p s f r)) s₂) :
      Writes p (.emit f n (.guarded (s.key "") r body [] (some [.stmts .none entry code]) :: more))
        s s₂
  | catches {f n r heads body bodies more s s₀ s₁ s₂ s₃} (outside : pendingRegion? p f n = some r)
      (first : s.regions.get? r = none)
      (noCleanup : cleanup? p r (ownGroups p r) (guardFollow p s f r) = none)
      (clauses : (openClauses p.graph (ownGroups p r)).from (s.openGuard n (guardFollow p s f r)) =
        (heads,s₀))
      (inner : Writes p (.emit (insideGuard f r (guardFollow p s f r)) n body)
        (s₀.openRegion r (.catches heads)) s₁)
      (handlers : Writes p (.each (heads.map fun h =>
        (outsideGuard f (guardFollow p s f r),h.node)) bodies) s₁ s₂)
      (rest : Writes p (.goOn f [.guarded (s.key "") r body (heads.zip bodies) none]
        (guardFollow p s f r) more) (s₂.release (guardFollow p s f r)) s₃) :
      Writes p (.emit f n (.guarded (s.key "") r body (heads.zip bodies) none :: more)) s s₃
  | again {f n r c catches body more s s₀ s₁ s₂} (outside : pendingRegion? p f n = some r)
      (known : s.regions.get? r = some c)
      (clauses : (repeatClauses p.graph c).from (s.openGuard n (followOfRegion p s f r [])) =
        (catches,s₀))
      (inner : Writes p (.emit (insideGuard f r (followOfRegion p s f r [])) n body) s₀ s₁)
      (rest : Writes p (.goOn f [.guarded (s.key "") r body catches none]
        (followOfRegion p s f r []) more) (s₁.release (followOfRegion p s f r [])) s₂) :
      Writes p (.emit f n (.guarded (s.key "") r body catches none :: more)) s s₂

/-! The code follows the rules. -/

variable {p : Plan} {e : Emit} {f : Frame} {n : NodeId} {s : State}

theorem headerOfShapeAt {shape : LoopShape} (starts : shapeAt? p f n = some shape) :
    shape.loop.header = n ∧ isLoopOpen f.scopes n = false := by
  obtain ⟨found,isOpen⟩ := Option.filter_eq_some_iff.mp starts
  exact ⟨by simpa using List.find?_some found,by simpa using isOpen⟩

theorem loopOfSettled (p : Plan) (s : State) (shape : LoopShape) :
    (settleShape p s shape).loop = shape.loop := by
  unfold settleShape
  split
  · split <;> rfl
  · rfl

theorem stepBare (bare : Bare p f n) : step p e f n =
    match (p.graph.node n).kind with
    | .cond => branch p e f n
    | .switch => switch p e f n
    | _ => plain p e f n := by
  obtain ⟨outside,closed⟩ := bare
  rw [shapeAt?] at closed
  cases kind : (p.graph.node n).kind <;> simp only [step,outside,closed,kind]

theorem stepPlain (bare : Bare p f n) {t : NodeId} (kind : (p.graph.node n).kind = .stmt)
    (succ : (p.graph.node n).succs = [t]) : (step p e f n).from s =
      let piece := s.statement n (p.graph.node n).stmts
      let rest := (go p e f (some t)).from piece.2
      (piece.1 :: rest.1,rest.2) := by
  simp only [stepBare bare,kind,plain,succ,fromBind,fromPure,fromModifyGet]

theorem stepLast (bare : Bare p f n) (noBranch : (p.graph.node n).kind ≠ .cond)
    (noSwitch : (p.graph.node n).kind ≠ .switch)
    (alone : ∀ t, (p.graph.node n).kind = .stmt → (p.graph.node n).succs ≠ [t]) :
    (step p e f n).from s = ([(s.statement n (p.graph.node n).stmts).1],
      (s.statement n (p.graph.node n).stmts).2) := by
  have here : step p e f n = plain p e f n := by
    rw [stepBare bare]
    split <;> first | contradiction | rfl
  rw [here]
  simp only [plain,fromBind,fromModifyGet]
  rfl

theorem stepBranch (bare : Bare p f n) (kind : (p.graph.node n).kind = .cond) :
    (step p e f n).from s =
      let follow := p.branchFollows.get? n
      let sides := orient p s f (p.graph.node n) follow
      let lead := s.lead n (p.graph.node n).stmts
      let left := (go p e (sideFrame f follow) sides.2.1).from (lead.2.enter n "" follow)
      let right := (go p e (sideFrame f follow) sides.2.2).from left.2
      (goOn p e f (lead.1 ++ branchPieces (lead.2.key "") n sides.1 follow.isSome left.1 right.1)
        follow).from (right.2.leave n follow) := by
  simp only [stepBare bare,kind,branch,freshKey,fromBind,fromGet,fromModify,fromModifyGet]
  rfl

theorem stepSwitch (bare : Bare p f n) (kind : (p.graph.node n).kind = .switch) :
    (step p e f n).from s =
      let follow := switchFollow p f n
      let lead := s.lead n (p.graph.node n).stmts
      let arms := (goEach p e (switchJobs p f n lead.2)).from (lead.2.enter n (switchName n) follow)
      (goOn p e f (lead.1 ++ [.switch (lead.2.key (switchName n)) n
        (switchValue (p.graph.node n)) (writtenArms p f n arms.1)]) follow).from
          (arms.2.leave n follow) := by
  simp only [stepBare bare,kind,switch,freshKey,fromBind,fromModify,fromModifyGet]
  rfl

theorem stepLoop (outside : pendingRegion? p f n = none) {shape : LoopShape}
    (starts : shapeAt? p f n = some shape) : step p e f n = loop p e f shape := by
  rw [shapeAt?] at starts
  simp only [step,outside,starts]

theorem stepPretest (outside : pendingRegion? p f n = none) {found shape : LoopShape}
    (starts : shapeAt? p f n = some found) (settled : settleShape p s found = shape)
    (kind : shape.kind = .pretest) : (step p e f n).from s =
      let inner := (go p e { scopes := loopScopes f shape n s, stop := some n }
        (some shape.start)).from ((s.openLoop n).setMark n .entered)
      (goOn p e f [.loop (s.key (loopName n)) .pretest n n
        (some (loopTest p.graph n shape.start)) (dropLastContinue inner.1)] shape.follow).from
          (inner.2.setMark n .finished) := by
  have header := (headerOfShapeAt starts).1
  simp only [stepLoop outside starts,loop,freshKey,fromBind,fromGet,fromModify,fromModifyGet,settled,
    header,kind,fromPure]
  rfl

theorem stepPosttest (outside : pendingRegion? p f n = none) {found shape : LoopShape}
    (starts : shapeAt? p f n = some found) (settled : settleShape p s found = shape)
    (kind : shape.kind = .posttest) {latch : NodeId} (test : shape.test = some latch) :
    (step p e f n).from s =
      let inner := (e { scopes := loopScopes f shape n s, stop := some latch } n).from
        (((s.openLoop n).place latch (s.key (loopName n))).setMark latch .entered)
      (goOn p e f [.loop (s.key (loopName n)) .posttest latch n
        (some (loopTest p.graph latch n)) (dropLastContinue inner.1)] shape.follow).from
          (inner.2.setMark latch .finished) := by
  have header := (headerOfShapeAt starts).1
  simp only [stepLoop outside starts,loop,freshKey,fromBind,fromGet,fromModify,fromModifyGet,settled,
    header,kind,test,fromPure]
  rfl

theorem stepEndless (outside : pendingRegion? p f n = none) {found shape : LoopShape}
    (starts : shapeAt? p f n = some found) (settled : settleShape p s found = shape)
    (kind : shape.kind ≠ .pretest) (test : shape.kind = .posttest → shape.test = none) :
    (step p e f n).from s =
      let inner := (e { scopes := loopScopes f shape n s } n).from (s.openLoop n)
      (goOn p e f [.loop (s.key (loopName n)) .endless (-1) n none (dropLastContinue inner.1)]
        shape.follow).from inner.2 := by
  have header := (headerOfShapeAt starts).1
  simp only [stepLoop outside starts,loop,freshKey,fromBind,fromGet,fromModify,fromModifyGet,settled,
    header]
  cases form : shape.kind with
  | pretest => exact absurd form kind
  | posttest =>
    simp only [test form,fromBind,fromPure]
    rfl
  | endless =>
    simp only [fromBind,fromPure]
    rfl

theorem stepCleanup {r : RegionId} (outside : pendingRegion? p f n = some r)
    (first : s.regions.get? r = none) {entry : NodeId} {code : List Stmt} {copy : List Loc}
    (clean : cleanup? p r (ownGroups p r) (guardFollow p s f r) = some (entry,code,copy)) :
    (step p e f n).from s =
      let follow := guardFollow p s f r
      let inner := (e (insideGuard f r follow) n).from
        ((s.openGuard n follow).cleaned r entry copy (s.key ""))
      (goOn p e f [.guarded (s.key "") r inner.1 [] (some [.stmts .none entry code])] follow).from
        (inner.2.release follow) := by
  rw [guardFollow,ownGroups] at clean
  simp only [step,outside,fromBind,fromGet,first,guarded,freshKey,fromModifyGet,fromModify,clean,
    guardFollow,ownGroups,insideGuard,State.openGuard,State.cleaned]

theorem stepCatches {r : RegionId} (outside : pendingRegion? p f n = some r)
    (first : s.regions.get? r = none)
    (noCleanup : cleanup? p r (ownGroups p r) (guardFollow p s f r) = none) :
    (step p e f n).from s =
      let follow := guardFollow p s f r
      let heads := (openClauses p.graph (ownGroups p r)).from (s.openGuard n follow)
      let inner := (e (insideGuard f r follow) n).from (heads.2.openRegion r (.catches heads.1))
      let handlers := (goEach p e (heads.1.map fun h => (outsideGuard f follow,h.node))).from inner.2
      (goOn p e f [.guarded (s.key "") r inner.1 (heads.1.zip handlers.1) none] follow).from
        (handlers.2.release follow) := by
  rw [guardFollow,ownGroups] at noCleanup
  simp only [step,outside,fromBind,fromGet,first,guarded,freshKey,fromModifyGet,fromModify,
    noCleanup,guardFollow,ownGroups,insideGuard,outsideGuard,State.openGuard]

theorem stepAgain {r : RegionId} (outside : pendingRegion? p f n = some r) {c : Clauses}
    (known : s.regions.get? r = some c) : (step p e f n).from s =
      let follow := followOfRegion p s f r []
      let clauses := (repeatClauses p.graph c).from (s.openGuard n follow)
      let inner := (e (insideGuard f r follow) n).from clauses.2
      (goOn p e f [.guarded (s.key "") r inner.1 clauses.1 none] follow).from
        (inner.2.release follow) := by
  simp only [step,outside,fromBind,fromGet,known,guardedAgain,freshKey,fromModifyGet,fromModify]
  rfl

def Job.Code (p : Plan) (e : Emit) : Job → State → State → Prop
  | .emit f n out, s, s' => (step p e f n).from s = (out,s')
  | .go f t out, s, s' => (Recovery.go p e f t).from s = (out,s')
  | .goOn f lead follow more, s, s' => (Recovery.goOn p e f lead follow).from s = (lead ++ more,s')
  | .each jobs outs, s, s' => (goEach p e jobs).from s = (outs,s')

theorem goAt {t : NodeId} : (go p e f (some t)).from s =
    match route p s f t with
    | .inline => (e f t).from s
    | .done => ([],s)
    | .breakTo scope => ([.breakTo .none (scopeText scope)],s.nameScope scope)
    | .continueTo scope => ([.continueTo .none (scopeText scope)],s.nameScope scope)
    | .goto => ([(s.goto t).1],(s.goto t).2) := by
  simp only [go,fromBind,fromGet]
  cases route p s f t <;> rfl

theorem goOnAt {lead : List Piece} {t : NodeId} : (goOn p e f lead (some t)).from s =
    if Tree.endsInJump lead then
      if route p s f t = .inline then (lead ++ ((e f t).from s).1,((e f t).from s).2) else (lead,s)
    else (lead ++ ((go p e f (some t)).from s).1,((go p e f (some t)).from s).2) := by
  simp only [goOn]
  split
  · show Writing.from (if route p s f t = .inline then do return lead ++ (← e f t)
      else return lead) s = _
    split <;> rfl
  · rfl

theorem emitOfStep {r : List Piece × State}
    (steps : ∀ᶠ fuel in Filter.atTop, (step p (emit p fuel) f n).from s = r) :
    ∀ᶠ fuel in Filter.atTop, (emit p fuel f n).from s = r := by
  obtain ⟨k,steps⟩ := Filter.eventually_atTop.mp steps
  refine Filter.eventually_atTop.mpr ⟨k + 1,fun fuel le => ?_⟩
  cases fuel with
  | zero => exact absurd le (Nat.not_succ_le_zero k)
  | succ fuel => exact steps fuel (Nat.le_of_succ_le_succ le)

theorem Writes.code {job : Job} {s s' : State} (writes : Writes p job s s') :
    ∀ᶠ fuel in Filter.atTop, job.Code p (emit p fuel) s s' := by
  induction writes with
  | nowhere => exact .of_forall fun _ => rfl
  | inline way rest ih =>
    filter_upwards [emitOfStep ih] with fuel code
    simp only [Job.Code,goAt,way,code]
  | falls way => exact .of_forall fun _ => by rw [Job.Code,goAt,way]
  | breaks way => exact .of_forall fun _ => by rw [Job.Code,goAt,way]
  | continues way => exact .of_forall fun _ => by rw [Job.Code,goAt,way]
  | jumps way => exact .of_forall fun _ => by rw [Job.Code,goAt,way]
  | nothing => exact .of_forall fun _ => rfl
  | each first rest ihFirst ihRest =>
    filter_upwards [ihFirst,ihRest] with fuel head tail
    simp only [Job.Code] at head tail
    simp only [Job.Code,goEach,fromBind,fromPure,head,tail]
  | ends => exact .of_forall fun _ => by simp [Job.Code,goOn,fromPure]
  | never jump way =>
    exact .of_forall fun _ => by rw [Job.Code,goOnAt,if_pos jump,if_neg way,List.append_nil]
  | behind jump way rest ih =>
    filter_upwards [emitOfStep ih] with fuel code
    rw [Job.Code,goOnAt,if_pos jump,if_pos way,code]
  | on passes rest ih =>
    filter_upwards [ih] with fuel code
    simp only [Job.Code] at code
    rw [Job.Code,goOnAt,if_neg (by simp [passes]),code]
  | last bare noBranch noSwitch alone =>
    exact .of_forall fun _ => by rw [Job.Code,stepLast bare noBranch noSwitch alone]
  | plain bare kind succ rest ih =>
    filter_upwards [ih] with fuel code
    simp only [Job.Code] at code
    simp only [Job.Code,stepPlain bare kind succ,code]
  | branch bare kind sides start left right rest ihLeft ihRight ihRest =>
    filter_upwards [ihLeft,ihRight,ihRest] with fuel left right rest
    simp only [Job.Code] at left right rest
    simp only [Job.Code,stepBranch bare kind,sides,start,left,right,rest]
  | switch bare kind start arms rest ihArms ihRest =>
    filter_upwards [ihArms,ihRest] with fuel arms rest
    simp only [Job.Code] at arms rest
    simp only [Job.Code,stepSwitch bare kind,start,arms,rest]
  | pretest outside starts settled kind inner rest ihInner ihRest =>
    filter_upwards [ihInner,ihRest] with fuel inner rest
    simp only [Job.Code] at inner rest
    simp only [Job.Code,stepPretest outside starts settled kind,inner,rest]
    rfl
  | posttest outside starts settled kind test inner rest ihInner ihRest =>
    filter_upwards [emitOfStep ihInner,ihRest] with fuel inner rest
    simp only [Job.Code] at rest
    simp only [Job.Code,stepPosttest outside starts settled kind test,inner,rest]
    rfl
  | endless outside starts settled kind test inner rest ihInner ihRest =>
    filter_upwards [emitOfStep ihInner,ihRest] with fuel inner rest
    simp only [Job.Code] at rest
    simp only [Job.Code,stepEndless outside starts settled kind test,inner,rest]
    rfl
  | cleanup outside first clean inner rest ihInner ihRest =>
    filter_upwards [emitOfStep ihInner,ihRest] with fuel inner rest
    simp only [Job.Code] at rest
    simp only [Job.Code,stepCleanup outside first clean,inner,rest]
    rfl
  | catches outside first noCleanup clauses inner handlers rest ihInner ihHandlers ihRest =>
    filter_upwards [emitOfStep ihInner,ihHandlers,ihRest] with fuel inner handlers rest
    simp only [Job.Code] at handlers rest
    simp only [Job.Code,stepCatches outside first noCleanup,clauses,inner,handlers,rest]
    rfl
  | again outside known clauses inner rest ihInner ihRest =>
    filter_upwards [emitOfStep ihInner,ihRest] with fuel inner rest
    simp only [Job.Code] at rest
    simp only [Job.Code,stepAgain outside known,clauses,inner,rest]
    rfl

end RegCode.Recovery
