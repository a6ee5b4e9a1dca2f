import RegCode.Proofs.Flow.Construction
import RegCode.Proofs.Flow.Cutting
import RegCode.Proofs.Flow.Finishing

/-! Where building a graph stops. In verified code every offset that is looked up has its block, every list of
operands is as long as it is read, and all that can go wrong is that an instruction has no meaning. -/
namespace RegCode
namespace Flow

variable {blocks : List Block} {α β : Type}

def Queued (blocks : List Block) (b : Builder) : Prop :=
  ∀ k ∈ b.queue, k ∈ blocks ∧ (b.known.lookup k.start).isSome = true

def Refused (m : Method) (f : BuildFault) : Prop := ∃ g, f = .lower g ∧ Lower.Made.Within m.code g

def ProceedsAt (m : Method) (blocks : List Block) (b : Builder) (w : Building α) (gives : α → Prop) : Prop :=
  (∀ a b', Does w b a b' → Queued blocks b' ∧ gives a) ∧ ∀ f, w.run b = .error f → Refused m f

def Proceeds (m : Method) (blocks : List Block) (w : Building α) (gives : α → Prop) : Prop :=
  ∀ b, Queued blocks b → ProceedsAt m blocks b w gives

variable {m : Method} {b c : Builder} {P : α → Prop} {Q : β → Prop}

theorem ProceedsAt.bind {w : Building α} {k : α → Building β} (first : ProceedsAt m blocks b w P)
    (second : ∀ a, P a → Proceeds m blocks (k a) Q) : ProceedsAt m blocks b (w >>= k) Q := by
  constructor
  · intro a b' did
    obtain ⟨x,b₁,here,rest⟩ := doesBind.mp did
    obtain ⟨queued,gives⟩ := first.1 x b₁ here
    exact (second x gives b₁ queued).1 a b' rest
  · intro f fails
    rcases errorOfBind fails with here | ⟨⟨x,b₁⟩,here,later⟩
    · exact first.2 f here
    · obtain ⟨queued,gives⟩ := first.1 x b₁ here
      exact (second x gives b₁ queued).2 f later

theorem ProceedsAt.get {k : Builder → Building β} (next : ProceedsAt m blocks b (k b) Q) :
    ProceedsAt m blocks b (MonadState.get >>= k) Q := next

theorem ProceedsAt.set {k : PUnit → Building β} (next : ProceedsAt m blocks c (k ⟨⟩) Q) :
    ProceedsAt m blocks b (MonadStateOf.set c >>= k) Q := next

namespace Proceeds

theorem pure {a : α} (gives : P a) : Proceeds m blocks (Pure.pure a) P := fun b queued =>
  ⟨fun _ _ did => by
    obtain ⟨rfl,rfl⟩ := doesPure.mp did
    exact ⟨queued,gives⟩,nofun⟩

theorem bind {w : Building α} {k : α → Building β} (first : Proceeds m blocks w P)
    (second : ∀ a, P a → Proceeds m blocks (k a) Q) : Proceeds m blocks (w >>= k) Q :=
  fun b queued => (first b queued).bind second

theorem after {w : Building α} {k : α → Building β} (first : Proceeds m blocks w P)
    (second : ∀ a, Proceeds m blocks (k a) Q) : Proceeds m blocks (w >>= k) Q := first.bind fun a _ => second a

theorem edit (f : Graph → Graph) : Proceeds m blocks (modifyGraph f) fun _ => True := fun b queued =>
  ⟨fun _ _ did => by
    obtain rfl := doesModifyGraph.mp did
    exact ⟨queued,trivial⟩,nofun⟩

theorem visit (offset : Int) : Proceeds m blocks (Flow.visit blocks offset) fun t =>
    (∃ k ∈ blocks, k.start = offset) → t.isSome = true := by
  intro b queued
  refine .get ?_
  cases known : b.known.lookup offset with
  | some i => exact pure (fun _ => rfl) b queued
  | none =>
    cases found : blocks.find? (·.start == offset) with
    | none =>
      refine pure (fun stands => ?_) b queued
      obtain ⟨k,member,same⟩ := stands
      exact absurd same (by simpa using List.find?_eq_none.mp found k member)
    | some block =>
      have start : block.start = offset := by simpa using List.find?_some found
      refine .set (pure (fun _ => rfl) _ fun k member => ?_)
      rcases List.mem_append.mp member with old | new
      · obtain ⟨inside,has⟩ := queued k old
        refine ⟨inside,?_⟩
        rw [List.lookup_cons]
        split
        · rfl
        · exact has
      · obtain rfl := List.mem_singleton.mp new
        exact ⟨List.mem_of_find?_eq_some found,by simp [start]⟩

theorem require {offset : Int} {t : Option NodeId} (there : t.isSome = true) :
    Proceeds m blocks (Flow.require offset t) fun _ => True := by
  obtain ⟨i,rfl⟩ := Option.isSome_iff_exists.mp there
  exact pure trivial

theorem link (n : NodeId) (t : Option NodeId) : Proceeds m blocks (Flow.link n t) fun _ => True := by
  cases t with
  | none => exact pure trivial
  | some t => exact edit (·.addEdge n t)

theorem linkCases (n : NodeId) (keys : List (Int × Int)) (cases : List SwitchCase) :
    Proceeds m blocks (Flow.linkCases blocks n keys cases) fun _ => True := by
  induction keys generalizing cases with
  | nil => exact pure trivial
  | cons k keys ih =>
    refine (visit _).bind fun t _ => ?_
    cases t with
    | none => exact ih cases
    | some t => exact (edit _).after fun _ => ih _

theorem weaken {w : Building α} (proceeds : Proceeds m blocks w P) : Proceeds m blocks w fun _ => True :=
  fun b queued => ⟨fun a b' did => ⟨((proceeds b queued).1 a b' did).1,trivial⟩,(proceeds b queued).2⟩

theorem visitNext (k : Block) : Proceeds m blocks (Flow.visitNext blocks k) fun _ => True := by
  unfold Flow.visitNext
  split
  · split
    · exact (visit _).weaken
    · exact pure trivial
  · exact pure trivial

end Proceeds

section
variable (valid : m.verify = .ok ()) (fits : m.Fits) (clear : m.Clear) {k : Block} (member : k ∈ Block.split m)
include valid fits clear member

theorem fallStart {last : Instruction} (ends : k.last? = some last) (runs : last.family.isTerminator = false) :
    ∃ o, k.fall = some o ∧ ∃ c ∈ Block.split m, c.start = o := by
  cases fall : k.fall with
  | some o =>
    refine ⟨o,rfl,Block.leadsStart valid fits clear member ?_⟩
    exact List.mem_append_right _ (by simp [fall])
  | none =>
    have stops := (Block.splitStops valid fits member).mp fall last ends
    rw [runs] at stops
    contradiction

theorem proceedsLinkNode (n : NodeId) {last : Instruction} (ends : k.last? = some last) :
    Proceeds m (Block.split m) (linkNode (Block.split m) n k last) fun _ => True := by
  unfold linkNode
  split
  case h_1 | h_2 | h_3 => exact .edit _
  case h_4 => exact (Proceeds.visit _).bind fun t _ => .link n t
  case h_5 family | h_6 family =>
    obtain ⟨o,fall,stands⟩ := fallStart valid fits clear member ends (by rw [family]; rfl)
    have target : ∃ c ∈ Block.split m, c.start = last.target := by
      refine Block.leadsStart valid fits clear member (List.mem_append_left _ ?_)
      rw [(Block.splitEnds member ends).1]
      simp [Instruction.targets,family]
    refine (Proceeds.visit _).bind fun t there => ?_
    unfold visitFall
    rw [fall]
    refine (Proceeds.visit o).bind fun f falls => ?_
    split
    · exact (Proceeds.edit _).after fun _ => .link n t
    · exact (Proceeds.require (there target)).after fun i => (Proceeds.require (falls stands)).after fun j =>
        (Proceeds.edit _).after fun _ => (Proceeds.edit _).after fun _ => .edit _
  case h_7 | h_8 =>
    refine (Proceeds.linkCases n _ []).after fun cases => (Proceeds.edit _).after fun _ =>
      (Proceeds.visit _).bind fun f _ => ?_
    cases f with
    | none => exact .pure trivial
    | some f => exact (Proceeds.edit _).after fun _ => .edit _
  case h_9 => exact (Proceeds.visitNext k).after fun t => .link n t

omit valid fits clear member in
theorem proceedsEnterHandlers {blocks : List Block} {hs : List Handler}
    (stand : ∀ h ∈ hs, ∃ c ∈ blocks, c.start = h.target) :
    Proceeds m blocks (enterHandlers blocks hs) fun _ => True := by
  induction hs with
  | nil => exact .pure trivial
  | cons h hs ih =>
    obtain ⟨first,later⟩ := List.forall_mem_cons.mp stand
    exact (Proceeds.visit _).bind fun t there => (Proceeds.require (there first)).after fun i =>
      (Proceeds.edit _).after fun _ => (ih later).after fun _ => .pure trivial

theorem proceedsRegionOf {t : TryRange} (range : t ∈ m.tries) :
    Proceeds m (Block.split m) (regionOf (Block.split m) t) fun _ => True := by
  have enter : Proceeds m (Block.split m) (enterHandlers (Block.split m) t.handlers) fun _ => True :=
    proceedsEnterHandlers fun h listed =>
      Block.handlerStart valid fits clear range (Block.codeOf member) listed
  intro b queued
  refine .get ?_
  dsimp only
  cases b.regions.lookup (handlersKey t.handlers) with
  | some r => exact Proceeds.pure trivial b queued
  | none => exact (enter b queued).bind fun handlers _ c queued' => .get (.set (Proceeds.pure trivial _ queued'))

theorem proceedsProtect (n : NodeId) :
    Proceeds m (Block.split m) (protect m (Block.split m) n k) fun _ => True := by
  unfold protect
  split
  · exact .pure trivial
  · rename_i t found
    exact (proceedsRegionOf valid fits clear member (List.mem_of_find?_eq_some found)).after fun r =>
      (Proceeds.edit _).after fun _ => .edit _

omit clear in
theorem proceedsLowerBlock : Proceeds m (Block.split m) (lowerBlock m k) fun _ => True := by
  intro b queued
  refine .get ?_
  dsimp only
  cases lowered : (Lower.block m k.insts).run b.graph.vars with
  | ok parts => exact .set (Proceeds.pure trivial _ queued)
  | error f =>
    refine ⟨nofun,fun g fails => ?_⟩
    cases fails
    obtain ⟨before,after,parts⟩ := Block.splitWithin valid fits member
    refine ⟨f,rfl,?_⟩
    rw [parts]
    exact (((Lower.Made.block m k.insts).refuses lowered).behind before).ahead after

theorem proceedsBuildNode : Proceeds m (Block.split m) (buildNode m (Block.split m) k) fun _ => True := by
  intro b queued
  refine .get ?_
  cases b.known.lookup k.start with
  | none => exact Proceeds.pure trivial b queued
  | some n =>
    obtain ⟨last,ends,-⟩ := Block.lastOf valid fits member
    dsimp only
    rw [ends]
    exact (proceedsLowerBlock valid fits member).after (fun stmts => (Proceeds.edit _).after fun _ =>
      (proceedsLinkNode valid fits clear member n ends).after fun _ =>
        proceedsProtect valid fits clear member n) b queued

omit member in
theorem proceedsBuildQueue (fuel : Nat) :
    Proceeds m (Block.split m) (buildQueue m (Block.split m) fuel) fun _ => True := by
  induction fuel with
  | zero => exact .pure trivial
  | succ fuel ih =>
    intro b queued
    refine .get ?_
    cases queue : b.queue with
    | nil => exact Proceeds.pure trivial b queued
    | cons k rest =>
      have inside := (queued k (by simp [queue])).1
      refine .set ((proceedsBuildNode valid fits clear inside).after (fun _ => ih) _ fun l member => ?_)
      exact queued l (by simp [queue,member])

omit member in
theorem proceedsFrom (first : Block) (fuel : Nat) (vars : VarTable) (params : List VarId) :
    ProceedsAt m (Block.split m) { graph := { vars, params } } (do
      let entry ← visit (Block.split m) first.start
      modifyGraph fun g => { g with entry }
      buildQueue m (Block.split m) fuel) fun _ => True :=
  (Proceeds.visit _).after (fun _ => (Proceeds.edit _).after fun _ =>
    proceedsBuildQueue valid fits clear fuel) _ nofun

end

end Flow

namespace Lower

theorem operateReads (m : Method) {i : Instruction} (a : Int) {b b' c c' : Int}
    (second : 1 < leastRegisters i → b = b') (third : 2 < leastRegisters i → c = c') :
    operate m i a b c = operate m i a b' c' := by
  cases family : i.family <;> simp only [leastRegisters,family] at second third <;> simp only [operate,family]
  all_goals try rw [second (by decide)]
  all_goals try rw [third (by decide)]
  -- what is left is an operation, which has its second operand twice or a third one
  cases twice : i.twoAddress
  · rw [second (by simp [twice]),third (by simp [twice])]
  · rw [second (by simp [twice])]
    simp

theorem operateOwn (m : Method) {i : Instruction} (enough : leastRegisters i ≤ i.regs.length) (d : Int) :
    operate m i (i.regs[0]?.getD 0) (i.regs[1]?.getD 0) (i.regs[2]?.getD 0) =
      operate m i (i.regs[0]?.getD d) (i.regs[1]?.getD d) (i.regs[2]?.getD d) := by
  have there : ∀ k, k < leastRegisters i → i.regs[k]?.getD 0 = i.regs[k]?.getD d := by
    intro k less
    rw [List.getElem?_eq_getElem (Nat.lt_of_lt_of_le less enough)]
    rfl
  have some : 0 < leastRegisters i := by
    unfold leastRegisters
    split <;> first | decide | (split <;> decide)
  rw [there 0 some]
  exact operateReads m _ (there 1) (there 2)

end Lower

/-- What building takes for granted of a block of the method. -/
structure Block.Buildable (m : Method) (k : Block) : Prop where
  filled : k.insts ≠ []
  leads : ∀ o ∈ k.leads, ∃ c ∈ split m, c.start = o
  falls : ∀ last, k.last? = some last → last.family.isTerminator = false → k.fall.isSome = true
  tests : ∀ last, k.last? = some last → Lower.IsTest last →
    ∀ vars ss vars', Does (Lower.block m k.insts) vars ss vars' → ss ≠ []
  switches : ∀ i ∈ k.insts, i.family = .packedSwitch ∨ i.family = .sparseSwitch →
    ∃ t, i.switch = some t ∧ t.keys.length = t.targets.length

section
variable {m : Method} (valid : m.verify = .ok ()) (fits : m.Fits)
include valid

theorem Verify.switchOf {i : Instruction} (member : i ∈ m.code)
    (switches : i.family = .packedSwitch ∨ i.family = .sparseSwitch) :
    ∃ t, i.switch = some t ∧ t.keys.length = t.targets.length := by
  obtain ⟨prev,fed⟩ := (checked valid).fed i member
  unfold operands at fed
  rcases switches with family | family
  all_goals
    simp only [family] at fed
    cases table : i.switch with
    | none => simp [table] at fed
    | some t =>
      refine ⟨t,rfl,?_⟩
      by_contra other
      simp [table,other] at fed

include fits

theorem Block.buildable (clear : m.Clear) {k : Block} (member : k ∈ split m) : k.Buildable m where
  filled := by
    obtain ⟨last,ends,-⟩ := lastOf valid fits member
    intro none
    simp [last?,none] at ends
  leads o out := leadsStart valid fits clear member out
  falls last ends runs := by
    obtain ⟨o,fall,-⟩ := Flow.fallStart valid fits clear member ends runs
    simp [fall]
  tests last ends test vars ss vars' did := by
    obtain ⟨s,final,-⟩ := Lower.didBlock ends test did
    intro none
    simp [none] at final
  switches i inside switches := by
    obtain ⟨before,after,parts⟩ := splitWithin valid fits member
    exact Verify.switchOf valid (parts ▸ by simp [inside]) switches

end

def Method.resultless : Method where
  owner := "LTest;"
  name := "f"
  descriptor := "()V"
  access := ⟨9⟩
  registers := 0
  index := 0
  line := 0
  code := [
    { family := .invoke, width := 3, invoke := .static, type := "I", mnemonic := "invoke-static",
      method := some ⟨"LTest;","g",[],"I"⟩ },
    { family := .moveResult, mnemonic := "move-result", offset := 3 },
    { family := .returnVoid, mnemonic := "return-void", offset := 4 }]
  tries := []
  overlaps := []

def Method.straying : Method where
  owner := "LTest;"
  name := "f"
  descriptor := "()V"
  access := ⟨9⟩
  registers := 1
  index := 0
  line := 0
  code := [
    { family := .ifZero, width := 2, mnemonic := "if-eqz", regs := [0], target := -2 },
    { width := Text.maxInt64 - 2, mnemonic := "nop", offset := 2 },
    { width := Text.maxInt64, mnemonic := "nop", offset := Text.maxInt64 },
    { family := .returnVoid, width := 5, mnemonic := "return-void", offset := -2 }]
  tries := []
  overlaps := []

namespace Graph

variable {m : Method}

/-- Building the graph of verified code ends with a graph that has an entry, or with an instruction that cannot
be lowered. The one fault that is not noticed by then is a result that is taken into no register. No other list of
operands is read beyond its end, and every block that is asked for is there. -/
theorem buildsOrRefuses (valid : m.verify = .ok ()) (fits : m.Fits) (clear : m.Clear) :
    ((∃ g, ofMethod m = .ok g ∧ (m.hasCode = true → g.entry.isSome = true)) ∨
      ∃ f, ofMethod m = .error (.lower f) ∧ (f.cause = .noResultRegister →
        ∃ before i j after, m.code = before ++ i :: j :: after ∧
          (i.family = .invoke ∨ i.family = .filledNewArray) ∧ j.family = .moveResult ∧ j.regs = [] ∧
          f.offset = j.offset)) ∧
      (∀ i, Lower.leastRegisters i ≤ i.regs.length → ∀ d,
        Lower.operate m i (i.regs[0]?.getD 0) (i.regs[1]?.getD 0) (i.regs[2]?.getD 0) =
          Lower.operate m i (i.regs[0]?.getD d) (i.regs[1]?.getD d) (i.regs[2]?.getD d)) ∧
      (∀ k ∈ Block.split m, k.Buildable m) ∧
      (∀ t ∈ m.tries, ∀ h ∈ t.handlers, m.hasCode = true → ∃ c ∈ Block.split m, c.start = h.target) ∧
      (∀ first rest, Block.split m = first :: rest → ∀ fuel vars params u b,
        Does (do
          let entry ← Flow.visit (Block.split m) first.start
          Flow.modifyGraph fun g => { g with entry }
          Flow.buildQueue m (Block.split m) fuel : Flow.Building Unit) { graph := { vars, params } } u b →
        Flow.Queued (Block.split m) b) := by
  have code : m.hasCode = true → m.code ≠ [] := by simp [Method.hasCode]
  refine ⟨?_,fun i enough d => Lower.operateOwn m enough d,fun k => Block.buildable valid fits clear,
    fun t range h listed has => Block.handlerStart valid fits clear range (code has) listed,
    fun first rest blocks fuel vars params u b did =>
      ((Flow.proceedsFrom valid fits clear first fuel vars params).1 u b did).1⟩
  cases made : ofMethod m with
  | ok g =>
    refine .inl ⟨g,rfl,fun has => ?_⟩
    rcases finishedOfMethod made with ⟨none,-⟩ | ⟨first,rest,more,b,-,-,-,finished⟩
    · have whole := Block.splitWhole valid fits
      rw [none] at whole
      exact absurd whole.symm (code has)
    · rcases finished.front with ⟨entry,-⟩ | ⟨entry,-⟩ <;> simp [entry]
  | error f =>
    refine .inr ?_
    unfold ofMethod at made
    split at made
    · contradiction
    · dsimp only at made
      split at made
      · contradiction
      · rename_i first rest blocks
        have proceeds := (Flow.proceedsFrom valid fits clear first (first :: rest).length
          (Flow.parameters m).1 (Flow.parameters m).2).2
        rw [blocks] at made proceeds
        rcases errorOfBind made with fails | ⟨_,-,done⟩
        · obtain ⟨g,same,within⟩ := proceeds f fails
          exact ⟨g,congrArg _ same,within⟩
        · contradiction

theorem faultOf {x : Except BuildFault Graph} {fault : BuildFault} (found : (match x with
    | .error f => decide (f = fault)
    | .ok _ => false) = true) : x = .error fault := by
  cases x with
  | ok g => contradiction
  | error f => exact congrArg _ (of_decide_eq_true found)

/-- Of `polling` there is a graph. There is none of `resultless`, for want of a register, nor of `straying`, in which a
block is missing. -/
theorem buildsOrRefusesResultless :
    (∃ g, ofMethod .polling = .ok g ∧ g.entry.isSome = true) ∧
      (Method.resultless.verify = .ok () ∧ Method.resultless.Fits ∧ Method.resultless.Clear ∧
        ofMethod .resultless = .error (.lower ⟨3,.noResultRegister⟩)) ∧
      Method.straying.verify = .ok () ∧ Method.straying.Clear ∧ ¬Method.straying.Fits ∧
        ofMethod .straying = .error (.noBlock (-2)) := by
  have clear : Method.polling.Clear := by unfold Method.Clear; decide
  have fits : Method.polling.Fits := by unfold Method.Fits; decide
  have stops : (match ofMethod .resultless with
      | .error f => decide (f = .lower ⟨3,.noResultRegister⟩)
      | .ok _ => false) = true ∧ (match ofMethod .straying with
      | .error f => decide (f = .noBlock (-2))
      | .ok _ => false) = true := by
    simp -zeta only [ofMethod,Block.split,Block.starts,TryTable.ascending,renumber,reversePostorder,
      Flow.exploreNested,sortByHalves]
    decide +kernel
  refine ⟨?_,⟨by rfl,by unfold Method.Fits; decide,by unfold Method.Clear; decide,faultOf stops.1⟩,by rfl,
    by unfold Method.Clear; decide,by unfold Method.Fits; decide,faultOf stops.2⟩
  rcases (buildsOrRefuses (by rfl) fits clear).1 with ⟨g,made,entry⟩ | ⟨f,made,-⟩
  · exact ⟨g,made,entry rfl⟩
  · have built : (ofMethod .polling).isOk = true := by
      simp -zeta only [ofMethod,Block.split,Block.starts,TryTable.ascending,renumber,reversePostorder,
        Flow.exploreNested,sortByHalves]
      decide +kernel
    rw [made] at built
    contradiction

end Graph
end RegCode
