import RegCode.Decompile
import RegCode.Layout

/-! What work on a method does not look at: the places of things in the source, the labels of data, and
the width that an array is declared with. -/
namespace RegCode

open Text

def Instruction.bare (i : Instruction) : Instruction :=
  { i with line := 0, payload := "", array := i.array.map fun a => ⟨0,a.values⟩ }

def Method.bare (m : Method) : Method :=
  { m with index := 0, line := 0, overlaps := [], code := m.code.map Instruction.bare }

def Block.bare (b : Block) : Block := { b with insts := b.insts.map Instruction.bare }

variable {m : Method}

namespace Method

theorem bareHasCode (m : Method) : m.bare.hasCode = m.hasCode := by
  rw [hasCode,hasCode,bare,List.isEmpty_map]

theorem bareCodeEnd (m : Method) : m.bare.codeEnd = m.codeEnd := by
  rw [codeEnd,codeEnd,bare,List.getLast?_map,Option.map_map]
  rfl

theorem bareSearch (code : Array Instruction) (offset : Int) (lo hi : Nat) :
    searchOffset (code.map Instruction.bare) offset lo hi = searchOffset code offset lo hi := by
  fun_induction searchOffset code offset lo hi with
  | case1 lo hi less mid here ih =>
    rw [searchOffset,if_pos less]
    dsimp only
    rw [Array.getElem?_map,Option.any_map]
    exact (if_pos here).trans ih
  | case2 lo hi less mid later ih =>
    rw [searchOffset,if_pos less]
    dsimp only
    rw [Array.getElem?_map,Option.any_map]
    exact (if_neg later).trans ih
  | case3 lo hi none => rw [searchOffset,if_neg none]

theorem barePosition (code : Array Instruction) (offset : Int) :
    positionAt? (code.map Instruction.bare) offset = positionAt? code offset := by
  unfold positionAt?
  dsimp only
  rw [Array.size_map,bareSearch,Array.getElem?_map]
  cases code[searchOffset code offset 0 code.size]? <;> rfl

end Method

namespace Verify

theorem bareLayout (expected : Int) (is : List Instruction) :
    layout expected (is.map Instruction.bare) = layout expected is := by
  induction is generalizing expected with
  | nil => rfl
  | cons i is ih =>
    rw [List.map_cons,layout,layout,ih]
    rfl

theorem bareBoundary (m : Method) (offset : Int) : isBoundary m.bare offset = isBoundary m offset := by
  rw [isBoundary,isBoundary,Method.bare,List.any_map]
  rfl

theorem bareBranches (m : Method) (i : Instruction) : branches m.bare i.bare = branches m i := by
  unfold branches
  simp only [bareBoundary]
  rfl

theorem bareOperands (m : Method) (prev : Option Instruction) (i : Instruction) :
    operands m.bare (prev.map Instruction.bare) i.bare = operands m prev i := by
  unfold operands
  rw [Option.any_map,show i.bare.array.isSome = i.array.isSome from Option.isSome_map ..]
  rfl

theorem bareInstructions (m : Method) (prev : Option Instruction) (is : List Instruction) :
    instructions m.bare (prev.map Instruction.bare) (is.map Instruction.bare) = instructions m prev is := by
  induction is generalizing prev with
  | nil => rfl
  | cons i is ih =>
    rw [List.map_cons,instructions,instructions,bareBranches,bareOperands,← ih (some i)]
    rfl

theorem bareEnding (m : Method) : ending m.bare = ending m := by
  unfold ending
  rw [Method.bare,List.getLast?_map]
  cases m.code.getLast? <;> rfl

theorem bareRange (m : Method) (t : TryRange) : tryRange m.bare t = tryRange m t := by
  unfold tryRange
  simp only [bareBoundary,Method.bareCodeEnd]

theorem bareViolation (m : Method) : violation m.bare = violation m := by
  unfold violation
  have instructions : Verify.instructions m.bare none (m.code.map Instruction.bare) =
      Verify.instructions m none m.code := bareInstructions m none m.code
  rw [bareEnding,funext (bareRange m),show m.bare.code = m.code.map Instruction.bare from rfl,bareLayout,
    instructions]
  cases m.code <;> rfl

end Verify

theorem Method.bareVerify (m : Method) : m.bare.verify = m.verify := by
  unfold Method.verify
  rw [Verify.bareViolation]
  rfl

namespace Block

theorem bareStarts (m : Method) : starts m.bare = starts m := by
  have leaders : leaders m.bare = leaders m := by
    unfold Block.leaders
    rw [Method.bare,List.head?_map,Option.map_map,List.flatMap_map]
    rfl
  unfold starts
  rw [leaders,show m.bare.code.toArray = m.code.toArray.map Instruction.bare by
    rw [Method.bare,List.map_toArray]]
  simp only [Method.barePosition]
  congr 1
  funext off
  cases Method.positionAt? m.code.toArray off with
  | none => rfl
  | some i =>
    simp only [Option.bind_eq_bind,Option.bind_some,Array.getElem?_map]
    cases m.code.toArray[i]? <;> rfl

theorem bareBuild (m : Method) (code : Array Instruction) (id : Nat) (start stop : Int) :
    build m.bare (code.map Instruction.bare) id start stop = (build m code id start stop).bare := by
  unfold build
  rw [Method.barePosition,Method.bareCodeEnd]
  cases Method.positionAt? code start with
  | none => rfl
  | some i =>
    simp only [Array.toList_map,List.map_drop.symm,List.takeWhile_map,List.getLast?_map,Option.any_map,
      Option.map_map]
    rfl

theorem bareBuildAll (m : Method) (code : Array Instruction) (id : Nat) (starts : List Int) :
    buildAll m.bare (code.map Instruction.bare) id starts = (buildAll m code id starts).map Block.bare := by
  fun_induction buildAll m code id starts with
  | case1 => rfl
  | case2 id start => rw [buildAll,bareBuild,Method.bareCodeEnd,List.map_singleton]
  | case3 id start stop rest ih => rw [buildAll,bareBuild,ih,List.map_cons]

theorem bareSplit (m : Method) : split m.bare = (split m).map Block.bare := by
  unfold split
  rw [Method.bareHasCode]
  split
  · rw [bareStarts,← bareBuildAll,show m.bare.code.toArray = m.code.toArray.map Instruction.bare by
      rw [Method.bare,List.map_toArray]]
  · rfl

end Block

namespace Lower

theorem bareOperate (m : Method) (i : Instruction) (a b c : Int) :
    operate m.bare i.bare a b c = operate m i a b c := by
  have values : (i.bare.array.map ArrayData.values).getD [] = (i.array.map ArrayData.values).getD [] := by
    rw [Instruction.bare,Option.map_map]
    rfl
  unfold operate
  rw [values]
  rfl

theorem bareSingle (m : Method) (i : Instruction) : single m.bare i.bare = single m i := by
  unfold single
  simp only [bareOperate]
  rfl

theorem bareActions (m : Method) :
    ∀ is : List Instruction, actions m.bare (is.map Instruction.bare) = actions m is
  | [] => rfl
  | [i] => by
    rw [List.map_singleton,actions.eq_def m.bare [_],actions.eq_def m [_]]
    dsimp only
    rw [bareSingle]
    rfl
  | i :: next :: rest => by
    have tail := bareActions m (next :: rest)
    have later := bareActions m rest
    rw [List.map_cons] at tail
    rw [List.map_cons,List.map_cons,actions.eq_def m.bare (_ :: _ :: _),actions.eq_def m (_ :: _ :: _)]
    dsimp only
    rw [bareSingle,tail,later]
    rfl

theorem bareBlock (m : Method) (is : List Instruction) :
    block m.bare (is.map Instruction.bare) = block m is := by
  unfold block
  rw [bareActions]

end Lower

namespace Flow

def Builder.bare (b : Builder) : Builder := { b with queue := b.queue.map Block.bare }

def Bared {α : Type} (work bare : Building α) : Prop :=
  ∀ b, bare.run b.bare = (work.run b).map fun r => (r.1,r.2.bare)

namespace Bared

variable {α β : Type} {work bare : Building α}

theorem pure (a : α) : Bared (Pure.pure a) (Pure.pure a) := fun _ => rfl

theorem bind {next next' : α → Building β} (first : Bared work bare)
    (later : ∀ a, Bared (next a) (next' a)) : Bared (work >>= next) (bare >>= next') := by
  intro b
  rw [StateT.run_bind,StateT.run_bind,first b]
  cases work.run b with
  | error f => rfl
  | ok r => exact later r.1 r.2

theorem throw (f : BuildFault) : Bared (throw f : Building α) (throw f) := fun _ => rfl

theorem modifyGraph (f : Graph → Graph) : Bared (modifyGraph f) (modifyGraph f) := fun _ => rfl

theorem get {next next' : Builder → Building β}
    (later : ∀ b, (next' b.bare).run b.bare = ((next b).run b).map fun r => (r.1,r.2.bare)) :
    Bared (MonadState.get >>= next) (MonadState.get >>= next') := later

end Bared

variable {blocks : List Block}

theorem bareVisit (blocks : List Block) (offset : Int) :
    Bared (visit blocks offset) (visit (blocks.map Block.bare) offset) := by
  refine .get fun b => ?_
  rw [show b.bare.known = b.known from rfl]
  cases b.known.lookup offset with
  | some i => rfl
  | none =>
    rw [List.find?_map]
    dsimp only
    rw [show ((fun c : Block => c.start == offset) ∘ Block.bare) = fun c => c.start == offset from rfl]
    cases blocks.find? fun c => c.start == offset with
    | none => rfl
    | some block =>
      simp only [Option.map_some,StateT.run_bind]
      change Except.ok _ = Except.ok _
      simp [Builder.bare]

theorem bareFall (blocks : List Block) (b : Block) :
    Bared (visitFall blocks b) (visitFall (blocks.map Block.bare) b.bare) := bareVisit blocks _

theorem bareNext (blocks : List Block) (b : Block) :
    Bared (visitNext blocks b) (visitNext (blocks.map Block.bare) b.bare) := by
  unfold visitNext
  rw [show b.bare.fall = b.fall from rfl]
  split
  · split
    · exact bareVisit blocks _
    · exact .pure none
  · exact .pure none

theorem bareRequire (offset : Int) (i : Option NodeId) : Bared (require offset i) (require offset i) := by
  cases i with
  | none => exact .throw _
  | some i => exact .pure i

theorem bareLink (n : NodeId) (target : Option NodeId) : Bared (link n target) (link n target) := by
  cases target with
  | none => exact .pure ()
  | some t => exact .modifyGraph (·.addEdge n t)

theorem bareLowerBlock (m : Method) (b : Block) : Bared (lowerBlock m b) (lowerBlock m.bare b.bare) := by
  refine .get fun s => ?_
  rw [show b.bare.insts = b.insts.map Instruction.bare from rfl,Lower.bareBlock]
  dsimp only
  rw [show s.bare.graph = s.graph from rfl]
  cases (Lower.block m b.insts).run s.graph.vars <;> rfl

theorem bareLinkCases (blocks : List Block) (n : NodeId) (keyed : List (Int × Int))
    (cases_ : List SwitchCase) :
    Bared (linkCases blocks n keyed cases_) (linkCases (blocks.map Block.bare) n keyed cases_) := by
  induction keyed generalizing cases_ with
  | nil => exact .pure _
  | cons k keyed ih =>
    refine (bareVisit blocks k.2).bind fun t => ?_
    cases t with
    | none => exact ih _
    | some t => exact (Bared.modifyGraph _).bind fun _ => ih _

theorem bareLinkNode (blocks : List Block) (n : NodeId) (b : Block) (last : Instruction) :
    Bared (linkNode blocks n b last) (linkNode (blocks.map Block.bare) n b.bare last.bare) := by
  unfold linkNode
  rw [show last.bare.family = last.family from rfl]
  split
  case h_1 | h_2 | h_3 => exact .modifyGraph _
  case h_4 => exact (bareVisit blocks _).bind fun t => bareLink n t
  case h_5 | h_6 =>
    refine (bareVisit blocks _).bind fun t => (bareFall blocks b).bind fun f => ?_
    split
    · exact (Bared.modifyGraph _).bind fun _ => bareLink n t
    · exact (bareRequire _ t).bind fun _ => (bareRequire _ f).bind fun _ =>
        (Bared.modifyGraph _).bind fun _ => (Bared.modifyGraph _).bind fun _ => .modifyGraph _
  case h_7 | h_8 =>
    refine (bareLinkCases blocks n _ []).bind fun _ => (Bared.modifyGraph _).bind fun _ =>
      (bareFall blocks b).bind fun f => ?_
    cases f with
    | none => exact .pure ()
    | some f => exact (Bared.modifyGraph _).bind fun _ => .modifyGraph _
  case h_9 => exact (bareNext blocks b).bind fun t => bareLink n t

theorem bareEnterHandlers (blocks : List Block) (hs : List Handler) :
    Bared (enterHandlers blocks hs) (enterHandlers (blocks.map Block.bare) hs) := by
  induction hs with
  | nil => exact .pure []
  | cons h hs ih =>
    exact (bareVisit blocks _).bind fun i => (bareRequire _ i).bind fun _ =>
      (Bared.modifyGraph _).bind fun _ => ih.bind fun _ => .pure _

theorem bareRegionOf (blocks : List Block) (t : TryRange) :
    Bared (regionOf blocks t) (regionOf (blocks.map Block.bare) t) := by
  refine .get fun b => ?_
  rw [show b.bare.regions = b.regions from rfl]
  split
  · rfl
  · exact ((bareEnterHandlers blocks t.handlers).bind fun hs => .get fun b => rfl) b

theorem bareProtect (m : Method) (blocks : List Block) (n : NodeId) (b : Block) :
    Bared (protect m blocks n b) (protect m.bare (blocks.map Block.bare) n b.bare) := by
  unfold protect
  rw [show m.bare.tries = m.tries from rfl,show b.bare.start = b.start from rfl]
  split
  · exact .pure ()
  · exact (bareRegionOf blocks _).bind fun _ => (Bared.modifyGraph _).bind fun _ => .modifyGraph _

theorem bareBuildNode (m : Method) (blocks : List Block) (b : Block) :
    Bared (buildNode m blocks b) (buildNode m.bare (blocks.map Block.bare) b.bare) := by
  refine .get fun s => ?_
  rw [show s.bare.known = s.known from rfl,show b.bare.start = b.start from rfl]
  split
  · rfl
  · rename_i n known
    have last : b.bare.last? = b.last?.map Instruction.bare := List.getLast?_map
    refine ((bareLowerBlock m b).bind fun _ => (Bared.modifyGraph _).bind fun _ => ?_) s
    rw [last]
    cases b.last? with
    | none => exact (Bared.throw _).bind fun _ => bareProtect m blocks n b
    | some i => exact (bareLinkNode blocks n b i).bind fun _ => bareProtect m blocks n b

theorem bareQueue (m : Method) (blocks : List Block) (fuel : Nat) :
    Bared (buildQueue m blocks fuel) (buildQueue m.bare (blocks.map Block.bare) fuel) := by
  induction fuel with
  | zero => exact .pure ()
  | succ fuel ih =>
    refine .get fun s => ?_
    cases queue : s.queue with
    | nil =>
      rw [show s.bare.queue = [] by rw [Builder.bare,queue]; rfl]
      rfl
    | cons b rest =>
      rw [show s.bare.queue = b.bare :: rest.map Block.bare by rw [Builder.bare,queue]; rfl]
      exact ((bareBuildNode m blocks b).bind fun _ => ih) { s with queue := rest }

end Flow

open RegCode.Flow in
theorem Graph.bareOfMethod (m : Method) : Graph.ofMethod m.bare = Graph.ofMethod m := by
  unfold Graph.ofMethod
  rw [Method.bareHasCode,Block.bareSplit,show parameters m.bare = parameters m from rfl]
  split
  · rfl
  · dsimp only
    cases blocks : Block.split m with
    | nil => rfl
    | cons first rest =>
      have work := (bareVisit (first :: rest) first.start).bind fun entry =>
        (Bared.modifyGraph fun g => { g with entry }).bind fun _ =>
        bareQueue m (first :: rest) (first :: rest).length
      have run := work { graph := { vars := (parameters m).1, params := (parameters m).2 } }
      rw [List.length_map]
      refine (congrArg (· >>= fun r =>
        Except.ok (numberStatements (linkRegions (guardEntry r.2.graph))).renumber) run).trans ?_
      dsimp only
      generalize StateT.run _ _ = out
      cases out <;> rfl

theorem Method.bareDecompile (m : Method) (c : Config) : m.bare.decompile c = m.decompile c := by
  unfold Method.decompile Decompile.run
  rw [Method.bareVerify,Graph.bareOfMethod]
  rfl

theorem Layout.bareMethodText (o : Options) (s : MethodSource) :
    methodText o { s with method := s.method.bare } = methodText o s := by
  have comment : ∀ depth, codeComment depth s.method.bare = codeComment depth s.method := by
    intro depth
    rw [codeComment,codeComment,Method.bare,List.map_map]
    rfl
  have declared : ∀ depth, declarationLines o depth { s with method := s.method.bare } =
      declarationLines o depth s := by
    intro depth
    unfold declarationLines
    dsimp only
    rw [Method.bareHasCode,comment]
    rfl
  unfold methodText methodLines
  simp only [declared]

end RegCode
