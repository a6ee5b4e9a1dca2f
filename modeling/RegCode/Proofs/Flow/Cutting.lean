import RegCode.Proofs.Assembly.Binding
import RegCode.Proofs.Flow.Blocks
import Mathlib.Data.List.Permutation
import Mathlib.Data.List.TakeWhile

/-! Verified code in blocks. One after the other the blocks are the code. Control comes into a block at
its start only and leaves it at its end only, for a target or for the block after it, and whatever is
jumped to is the start of a block unless it is the result of a call. -/
namespace RegCode

def Method.targets (m : Method) : List Int :=
  m.code.flatMap (·.targets) ++ m.tries.flatMap fun t => t.handlers.map (·.target)

variable {m : Method} {b : Block} {i j first : Instruction} {o : Int} {k l : Nat}

namespace Verify

variable {before after : List Instruction}

theorem layoutMeets {start : Int} (laid : layout start (before ++ i :: j :: after) = .ok ()) :
    j.offset = i.next := by
  induction before generalizing start with
  | nil =>
    rw [List.nil_append] at laid
    unfold layout at laid
    split at laid
    · contradiction
    · split at laid
      · contradiction
      · unfold layout at laid
        split at laid
        · contradiction
        · rename_i here
          exact not_not.mp here
  | cons k before ih =>
    rw [List.cons_append] at laid
    unfold layout at laid
    split at laid
    · contradiction
    · split at laid
      · contradiction
      · exact ih laid

theorem operandsMeet {prev : Option Instruction}
    (clear : instructions m prev (before ++ i :: j :: after) = .ok ()) : operands m (some i) j = .ok () := by
  induction before generalizing prev with
  | nil =>
    rw [List.nil_append] at clear
    unfold instructions at clear
    obtain ⟨_,-,clear⟩ := okOfBind clear
    obtain ⟨_,-,clear⟩ := okOfBind clear
    obtain ⟨_,-,clear⟩ := okOfBind clear
    exact (instructionsOk clear).2 j rfl
  | cons k before ih =>
    rw [List.cons_append] at clear
    unfold instructions at clear
    obtain ⟨_,-,clear⟩ := okOfBind clear
    obtain ⟨_,-,clear⟩ := okOfBind clear
    obtain ⟨_,-,clear⟩ := okOfBind clear
    exact ih clear

theorem instructionsClear (valid : m.verify = .ok ()) : instructions m none m.code = .ok () := by
  have clear : violation m = .ok () := by
    unfold Method.verify at valid
    split at valid
    · assumption
    · contradiction
  unfold violation at clear
  split at clear
  · rename_i code
    rw [code]
    rfl
  · split at clear
    · contradiction
    · obtain ⟨_,-,clear⟩ := okOfBind clear
      obtain ⟨_,each,-⟩ := okOfBind clear
      exact each

theorem meets (valid : m.verify = .ok ()) (parts : m.code = before ++ i :: j :: after) :
    j.offset = i.next ∧ (j.family = .moveResult → isCall i.family = true) := by
  refine ⟨layoutMeets (parts ▸ (verified valid (by simp [parts])).1),fun result => ?_⟩
  have fed := operandsMeet (parts ▸ instructionsClear valid)
  by_contra other
  simp [operands,result,other] at fed

end Verify

namespace Block

/-- Code cut into blocks. -/
structure Parts (m : Method) (bs : List Block) : Prop where
  numbered : bs.map (·.id) = List.range bs.length
  whole : bs.flatMap (·.insts) = m.code
  filled : ∀ b ∈ bs, b.insts ≠ []
  opens : ∀ b ∈ bs, ∀ i ∈ b.insts.head?, i.offset = b.start ∧ i.family ≠ .moveResult
  straight : ∀ b ∈ bs, ∀ i ∈ b.insts.dropLast, i.family.isBranch = false ∧ i.family.isTerminator = false
  falls : ∀ k b, bs[k]? = some b → ∀ o ∈ b.fall, ∃ c, bs[k + 1]? = some c ∧ c.start = o
  stops : ∀ b ∈ bs, b.fall = none ↔ ∀ i ∈ b.last?, i.family.isTerminator = true
  stands : m.code ≠ [] → ∀ o ∈ m.targets, ∃ i ∈ m.code, i.offset = o
  arrives : ∀ o ∈ m.targets, ∀ i ∈ m.code, i.offset = o → i.family ≠ .moveResult → ∃ b ∈ bs, b.start = o

theorem buildAllNumbered {code : Array Instruction} {id : Nat} {os : List Int} :
    (buildAll m code id os).map (·.id) = List.range' id os.length := by
  fun_induction buildAll m code id os with
  | case1 => rfl
  | case2 => rfl
  | case3 id start stop rest ih =>
    rw [List.map_cons,ih]
    rfl

theorem buildAllNext {code : Array Instruction} {id : Nat} {os : List Int}
    (here : (buildAll m code id os)[k]? = some b) : b.stop = m.codeEnd ∨
      ∃ c, (buildAll m code id os)[k + 1]? = some c ∧ c.start = b.stop := by
  induction os generalizing id k with
  | nil => simp [buildAll] at here
  | cons start os ih =>
    cases os with
    | nil =>
      have same : build m code id start m.codeEnd = b := by
        cases k <;> simp_all [buildAll]
      exact .inl (same ▸ rfl)
    | cons stop rest =>
      rw [buildAll] at here ⊢
      cases k with
      | zero =>
        cases Option.some.inj here
        have starts : ((buildAll m code (id + 1) (stop :: rest)).map (·.start))[0]? = some stop := by
          rw [buildAllStarts]
          rfl
        rw [List.getElem?_map,Option.map_eq_some_iff] at starts
        obtain ⟨c,next,same⟩ := starts
        exact .inr ⟨c,by simpa using next,same⟩
      | succ k => simpa using ih (by simpa using here)

section
variable (ascending : m.Ascending)
include ascending

theorem buildInsts {id : Nat} {start stop : Int} (here : m.code[k]? = some first) (same : first.offset = start) :
    (build m m.code.toArray id start stop).insts =
      (m.code.drop k).takeWhile fun i => decide (i.offset < stop) := by
  simp [build,(Method.positionAtIff ascending).mpr ⟨first,here,same⟩]

theorem takeBefore (there : m.code[l]? = some j) (order : k ≤ l) :
    (m.code.drop k).takeWhile (fun i => decide (i.offset < j.offset)) ++ m.code.drop l = m.code.drop k := by
  have parts : (m.code.drop k).take (l - k) ++ m.code.drop l = m.code.drop k := by
    conv_rhs => rw [← List.take_append_drop (l - k) (m.code.drop k)]
    rw [List.drop_drop,Nat.add_sub_cancel' order]
  have short : ∀ i ∈ (m.code.drop k).take (l - k), decide (i.offset < j.offset) = true := fun i member => by
    obtain ⟨n,inside,rfl⟩ := List.mem_take_iff_getElem.mp member
    have here : m.code[k + n]? = some (m.code.drop k)[n] := by
      rw [← List.getElem?_drop]
      exact List.getElem?_eq_getElem _
    exact decide_eq_true (ascending.lt here there (by omega))
  have head : m.code.drop l = j :: m.code.drop (l + 1) := by
    obtain ⟨inside,rfl⟩ := List.getElem?_eq_some_iff.mp there
    exact List.drop_eq_getElem_cons inside
  conv_lhs => rw [← parts,List.takeWhile_append_of_pos short]
  rw [head,List.takeWhile_cons_of_neg (by simp),List.append_nil,← head,parts]

theorem buildAllWhole (ends : ∀ i ∈ m.code, i.offset < m.codeEnd) {id : Nat} {start : Int} {os : List Int}
    (here : m.code[k]? = some first) (same : first.offset = start) (sorted : (start :: os).Pairwise (· < ·))
    (placed : ∀ o ∈ os, ∃ i ∈ m.code, i.offset = o) :
    (buildAll m m.code.toArray id (start :: os)).flatMap (·.insts) = m.code.drop k := by
  induction os generalizing id start k first with
  | nil =>
    rw [buildAll,List.flatMap_singleton,buildInsts ascending here same,List.takeWhile_eq_self_iff]
    exact fun i member => decide_eq_true (ends i (List.mem_of_mem_drop member))
  | cons stop rest ih =>
    obtain ⟨least,sorted⟩ := List.pairwise_cons.mp sorted
    obtain ⟨j,member,stop_⟩ := placed stop (List.mem_cons_self ..)
    obtain ⟨l,there⟩ := List.getElem?_of_mem member
    have less := least stop (List.mem_cons_self ..)
    have order : k ≤ l := Nat.le_of_not_lt fun earlier => by
      have := ascending.lt there here earlier
      omega
    rw [buildAll,List.flatMap_cons,buildInsts ascending here same,
      ih there stop_ sorted fun o later => placed o (List.mem_cons_of_mem stop later),← stop_,
      takeBefore ascending there order]

theorem sameOffset (left : i ∈ m.code) (right : j ∈ m.code) (same : i.offset = j.offset) : i = j := by
  obtain ⟨k,here⟩ := List.getElem?_of_mem left
  obtain ⟨l,there⟩ := List.getElem?_of_mem right
  rcases Nat.lt_trichotomy k l with less | rfl | less
  · have := ascending.lt here there less
    omega
  · exact Option.some.inj (here.symm.trans there)
  · have := ascending.lt there here less
    omega

end

section
variable (valid : m.verify = .ok ()) (fits : m.Fits)
include valid fits

theorem splitWhole : (split m).flatMap (·.insts) = m.code := by
  have ascending := Method.ascends valid fits
  by_cases code : m.code = []
  · simp [split,Method.hasCode,code]
  · obtain ⟨i,head⟩ : ∃ i, m.code.head? = some i := by
      rw [← Option.isSome_iff_exists,List.isSome_head?]
      simpa using code
    obtain ⟨zero,fed⟩ := (Verify.checked valid).first i head
    have member := List.mem_of_mem_head? head
    obtain ⟨c,among,-⟩ := leaderStart valid fits (o := 0) ⟨i,member,zero⟩ (by simp [leaders,head,zero])
      fun j there same result => by
        cases sameOffset ascending member there (zero.trans same.symm)
        simp [Verify.operands,result] at fed
    obtain ⟨first,rest,blocks⟩ := List.exists_cons_of_ne_nil (List.ne_nil_of_mem among)
    have start := firstStart valid fits blocks
    have starts_ : starts m = 0 :: rest.map (·.start) := by
      rw [← splitStarts code,blocks,List.map_cons,start]
    have sorted := startsSorted m
    rw [split,if_pos (by simpa [Method.hasCode] using code),starts_]
    rw [starts_] at sorted
    exact buildAllWhole ascending (fun i member => Method.beforeEnd valid fits member)
      (List.head?_eq_getElem?.symm.trans head) zero sorted fun o later => by
        obtain ⟨-,j,there,same,-⟩ := (startsIff ascending).mp (starts_ ▸ List.mem_cons_of_mem 0 later)
        exact ⟨j,there,same⟩

theorem splitWithin (member : b ∈ split m) : ∃ before after, m.code = before ++ b.insts ++ after := by
  obtain ⟨front,back,parts⟩ := List.append_of_mem member
  refine ⟨front.flatMap (·.insts),back.flatMap (·.insts),?_⟩
  rw [← splitWhole valid fits,parts]
  simp

theorem splitOpens (member : b ∈ split m) (head : i ∈ b.insts.head?) :
    i.offset = b.start ∧ i.family ≠ .moveResult := by
  have ascending := Method.ascends valid fits
  have cut := splitCut ascending member
  obtain ⟨-,j,there,same,other⟩ := (startsIff ascending).mp cut.start
  obtain ⟨held,reaches,-⟩ := (cut.insts i).mp (List.mem_of_mem_head? head)
  obtain ⟨last,ends,-⟩ := lastOf valid fits member
  obtain ⟨rest,insts⟩ : ∃ rest, b.insts = i :: rest := List.head?_eq_some_iff.mp head
  -- The instruction at the start lies in the block, and the first one is not after it.
  have inside : j ∈ b.insts := (cut.insts j).mpr ⟨there,Int.le_of_eq same.symm,by
    have := ((cut.insts last).mp (List.mem_of_getLast? ends)).2
    omega⟩
  have first : i.offset ≤ j.offset := by
    obtain ⟨before,after,parts⟩ := splitWithin valid fits member
    have sorted : b.insts.Pairwise (·.offset < ·.offset) := ascending.sublist (by
      rw [parts,List.append_assoc]
      exact (List.sublist_append_left ..).trans (List.sublist_append_right ..))
    rw [insts] at inside sorted
    rcases List.mem_cons.mp inside with rfl | later
    · exact Int.le_refl _
    · exact Int.le_of_lt ((List.pairwise_cons.mp sorted).1 j later)
  cases sameOffset ascending held there (by omega)
  exact ⟨same,other⟩

theorem splitStraight (member : b ∈ split m) (inner : i ∈ b.insts.dropLast) :
    i.family.isBranch = false ∧ i.family.isTerminator = false := by
  have ascending := Method.ascends valid fits
  have cut := splitCut ascending member
  obtain ⟨front,back,early⟩ := List.append_of_mem inner
  have full : b.insts ≠ [] := by
    rintro none
    simp [none] at inner
  obtain ⟨j,rest,next⟩ : ∃ j rest, back ++ [b.insts.getLast full] = j :: rest :=
    List.exists_cons_of_ne_nil (by simp)
  have insts : b.insts = front ++ i :: j :: rest := by
    rw [← List.dropLast_append_getLast full,early,List.append_assoc,List.cons_append,next]
  obtain ⟨before,after,parts⟩ := splitWithin valid fits member
  have parts : m.code = (before ++ front) ++ i :: j :: (rest ++ after) := by simp [parts,insts]
  obtain ⟨there,fed⟩ := Verify.meets valid parts
  obtain ⟨held,reaches,-⟩ := (cut.insts i).mp (by simp [insts])
  obtain ⟨held',-,short⟩ := (cut.insts j).mp (by simp [insts])
  have onward : i.offset < j.offset := by
    have sorted := ascending
    rw [Method.Ascending,parts] at sorted
    exact (List.pairwise_cons.mp (List.pairwise_append.mp sorted).2.1).1 j (List.mem_cons_self ..)
  rw [← Bool.or_eq_false_iff]
  by_contra leads
  have leads : (i.family.isBranch || i.family.isTerminator) = true := Bool.eq_true_of_not_eq_false leads
  have other : j.family ≠ .moveResult := fun result => by
    have call := fed result
    cases family : i.family <;> simp [family,Verify.isCall,Family.isBranch,Family.isTerminator] at call leads
  have start : j.offset ∈ starts m := (startsIff ascending).mpr
    ⟨List.mem_append_left _ (List.mem_append_right _ (List.mem_flatMap.mpr ⟨i,held,by simp [leads,there]⟩)),
      j,held',rfl,other⟩
  have := cut.next j.offset start (by omega)
  omega

theorem splitFinal (member : b ∈ split m) (final : b.stop = m.codeEnd) : b.last? = m.code.getLast? := by
  have ascending := Method.ascends valid fits
  have cut := splitCut ascending member
  obtain ⟨last,ends,there⟩ := lastOf valid fits member
  obtain ⟨before,after,parts⟩ := splitWithin valid fits member
  cases after with
  | nil =>
    rw [parts,List.append_nil,List.getLast?_append_of_ne_nil _ (List.ne_nil_of_mem (List.mem_of_getLast? ends))]
    rfl
  | cons j after =>
    -- What comes after the block comes before the end of the code.
    have held : j ∈ m.code := by simp [parts]
    have inside := List.mem_of_getLast? ends
    have sorted := ascending
    rw [Method.Ascending,parts] at sorted
    have later := (List.pairwise_append.mp sorted).2.2 last (List.mem_append_right _ inside) j (List.mem_cons_self ..)
    have short := Method.beforeEnd valid fits held
    have reaches := ((cut.insts last).mp inside).2.1
    have among : j ∈ b.insts := (cut.insts j).mpr ⟨held,by omega,by omega⟩
    have := (List.pairwise_append.mp sorted).2.2 j (List.mem_append_right _ among) j (List.mem_cons_self ..)
    omega

theorem splitStops (member : b ∈ split m) : b.fall = none ↔ ∀ i ∈ b.last?, i.family.isTerminator = true := by
  obtain ⟨last,ends,there⟩ := lastOf valid fits member
  rw [(splitEnds member ends).2,ends]
  cases terminal : last.family.isTerminator with
  | true => simp [terminal]
  | false =>
    refine iff_of_false (fun none => ?_) (by simp [terminal])
    have final : m.codeEnd ≤ b.stop := by simpa using none
    have final : b.stop = m.codeEnd := (splitCut (Method.ascends valid fits) member).ends.resolve_right
      fun start => by
        have := (startInside valid fits start).2
        omega
    have := (Verify.checked valid).last last ((splitFinal valid fits member final).symm.trans ends)
    simp [terminal] at this

theorem splitFalls (here : (split m)[k]? = some b) (fall : o ∈ b.fall) :
    ∃ c, (split m)[k + 1]? = some c ∧ c.start = o := by
  have member := List.mem_of_getElem? here
  obtain ⟨last,ends,-⟩ := lastOf valid fits member
  rw [Option.mem_def,(splitEnds member ends).2] at fall
  have code := codeOf member
  rw [split,if_pos (by simpa [Method.hasCode] using code)] at here ⊢
  split at fall
  · rename_i inside
    cases Option.some.inj fall
    refine (buildAllNext here).resolve_left fun final => ?_
    simp only [Bool.and_eq_true,decide_eq_true_eq] at inside
    omega
  · contradiction

omit fits in
theorem targetStands (code : m.code ≠ []) (leads : o ∈ m.targets) : ∃ i ∈ m.code, i.offset = o := by
  rcases List.mem_append.mp leads with leads | leads
  · obtain ⟨i,member,target⟩ := List.mem_flatMap.mp leads
    exact (Verify.checked valid).target member target
  · obtain ⟨t,range,target⟩ := List.mem_flatMap.mp leads
    obtain ⟨h,listed,rfl⟩ := List.mem_map.mp target
    exact Verify.handlerOfRange ((Verify.verified valid code).2 t range) listed

theorem targetStarts (leads : o ∈ m.targets) (member : i ∈ m.code) (same : i.offset = o)
    (other : i.family ≠ .moveResult) : ∃ b ∈ split m, b.start = o := by
  refine leaderStart valid fits ⟨i,member,same⟩ ?_ fun j there same' => ?_
  · rcases List.mem_append.mp leads with leads | leads
    · obtain ⟨j,there,target⟩ := List.mem_flatMap.mp leads
      exact List.mem_append_left _ (List.mem_append_right _
        (List.mem_flatMap.mpr ⟨j,there,List.mem_append_left _ target⟩))
    · obtain ⟨t,range,target⟩ := List.mem_flatMap.mp leads
      exact List.mem_append_right _ (List.mem_flatMap.mpr
        ⟨t,range,List.mem_cons_of_mem _ (List.mem_cons_of_mem _ target)⟩)
  · cases sameOffset (Method.ascends valid fits) member there (same.trans same'.symm)
    exact other

/-- Splitting cuts verified code into its blocks. -/
theorem splitParts : Parts m (split m) where
  numbered := by
    unfold split
    split
    · have size := congrArg List.length (buildAllNumbered : (buildAll m m.code.toArray 0 (starts m)).map _ = _)
      rw [List.length_map,List.length_range'] at size
      rw [buildAllNumbered,size,List.range_eq_range']
    · rfl
  whole := splitWhole valid fits
  filled b member := by
    obtain ⟨last,ends,-⟩ := lastOf valid fits member
    exact List.ne_nil_of_mem (List.mem_of_getLast? ends)
  opens b member i head := splitOpens valid fits member head
  straight b member i inner := splitStraight valid fits member inner
  falls k b here o fall := splitFalls valid fits here fall
  stops b member := splitStops valid fits member
  stands code o leads := targetStands valid code leads
  arrives o leads i member same other := targetStarts valid fits leads member same other

end

end Block

def Method.polling : Method where
  owner := "LTest;"
  name := "f"
  descriptor := "()V"
  access := ⟨9⟩
  registers := 1
  index := 0
  line := 0
  code := [
    { family := .invoke, width := 3, invoke := .static, type := "I", mnemonic := "invoke-static",
      method := some ⟨"LTest;","g",[],"I"⟩ },
    { family := .moveResult, mnemonic := "move-result", offset := 3, regs := [0] },
    { family := .ifZero, width := 2, cond := .ne, mnemonic := "if-nez", offset := 4, regs := [0], target := 0 },
    { family := .returnVoid, mnemonic := "return-void", offset := 6 },
    { family := .moveException, mnemonic := "move-exception", offset := 7, regs := [0] },
    { family := .throw, mnemonic := "throw", offset := 8, regs := [0] }]
  tries := [⟨0,3,[⟨"",7⟩]⟩]
  overlaps := []

namespace Block

theorem splitPartsPolling : Method.polling.verify = .ok () ∧ Method.polling.Fits ∧ Parts .polling (split .polling) := by
  have fits : Method.polling.Fits := by unfold Method.Fits; decide
  exact ⟨by rfl,fits,splitParts (by rfl) fits⟩

end Block

namespace Assembly

theorem tableWidths : ∀ e ∈ Mnemonic.table, 0 ≤ e.2.width ∧ e.2.width ≤ 5 := by
  decide +kernel

def Kept.fitting (lines : Nat) : Kept where
  line _ := True
  owner _ := True
  method := Method.Fits
  placed p := Scope.Fresh p.inst p.inst ∧ p.inst.offset + p.inst.width ≤ 5 * (lines : Int)
  caught _ := True
  room left offset := offset + 5 * left ≤ 5 * (lines : Int)

theorem closedFitting {lines : Nat} (few : 5 * (lines : Int) ≤ Text.maxInt64) : (Kept.fitting lines).Closed where
  owned _ _ := trivial
  begun l m _ _ begins := by
    change m.Fits
    intro i member
    rw [begins.code] at member
    contradiction
  put l i offset left _ room template := by
    change offset + 5 * ((left + 1 : Nat) : Int) ≤ _ at room
    obtain ⟨s,shape,rfl⟩ := Option.map_eq_some_iff.mp template
    have wide : s.width ≤ 5 := (tableWidths _ (Instruction.shapeListed shape)).2
    refine ⟨⟨⟨rfl,rfl,rfl,rfl,rfl⟩,?_⟩,?_⟩
    · change offset + s.width ≤ _
      omega
    · change offset + s.width + 5 * (left : Int) ≤ _
      omega
  rest left offset room := by
    change offset + 5 * ((left + 1 : Nat) : Int) ≤ _ at room
    change offset + 5 * (left : Int) ≤ _
    omega
  thrown _ _ _ _ := trivial
  finished _ d kept := by
    unfold Draft.finish
    extract_lets registers scope
    refine (decodeAllGives (Q := fun i => i.offset + i.width ≤ Text.maxInt64) (fun p placed => ?_) fun p member =>
      kept.placed p (List.mem_reverse.mp member)).bind fun is all => .after fun ds => .pure all
    refine (Scope.decodeDecoded placed.1).mono fun i decoded => ?_
    rw [decoded.offset,decoded.width]
    exact placed.2.trans few

theorem readFits {source : String} (few : 5 * ((linesOf source).length : Int) ≤ Text.maxInt64) :
    ∀ c ∈ (readClasses source).1, ∀ m ∈ c.methods, m.Fits :=
  (closedFitting few).read source (show (0 : Int) + 5 * (linesOf source).length ≤ _ by omega) fun _ _ => trivial

end Assembly

end RegCode
