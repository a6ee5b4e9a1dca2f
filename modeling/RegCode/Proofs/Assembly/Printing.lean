import RegCode.Proofs.Assembly.Values

/-! Lines that are read without fault. Faults that were noted stay, so that every step of such a reading
succeeded; the steps are the same for all families but for the kind of their last operand. -/
namespace RegCode

open Text

def Family.labelled : Family → Bool
  | goto | ifTest | ifZero | packedSwitch | sparseSwitch | fillArrayData => true
  | _ => false

def Family.typed : Family → Bool
  | checkCast | newInstance | newArray | filledNewArray => true
  | _ => false

namespace Assembly

open Instruction

/-! ### Noted faults stay -/

structure Grows {α : Type} (work : Noting α) : Prop where
  size : ∀ faults, faults.size ≤ (work.run faults).2.size

def Quiet {α : Type} (work : Noting α) (a : α) : Prop := work.run #[] = (a,#[])

section

variable {α β : Type} {work : Noting α} {next : α → Noting β}

theorem Grows.pure (a : α) : Grows (Pure.pure a) := ⟨fun _ => Nat.le_refl _⟩

theorem Grows.bind (first : Grows work) (later : ∀ a, Grows (next a)) : Grows (work >>= next) :=
  ⟨fun faults => Nat.le_trans (first.size faults) ((later _).size _)⟩

theorem Grows.note (line : Nat) (cause : ReadCause) (a : α) :
    Grows (do note line cause; Pure.pure a) where
  size := fun faults => by
    show faults.size ≤ (faults.push _).size
    rw [Array.size_push]
    exact Nat.le_succ _

theorem Quiet.ofPure {a b : α} (quiet : Quiet (pure a) b) : a = b := (Prod.mk.inj quiet).1

theorem Quiet.parts {b : β} (grows : ∀ a, Grows (next a)) (quiet : Quiet (work >>= next) b) :
    ∃ a, Quiet work a ∧ Quiet (next a) b := by
  have whole : (next (work.run #[]).1).run (work.run #[]).2 = (b,#[]) := quiet
  have size := (grows (work.run #[]).1).size (work.run #[]).2
  rw [whole] at size
  have none : (work.run #[]).2 = #[] := Array.eq_empty_of_size_eq_zero (Nat.le_zero.mp size)
  refine ⟨(work.run #[]).1,Prod.ext rfl none,?_⟩
  rw [none] at whole
  exact whole

theorem Quiet.noted {line : Nat} {cause : ReadCause} {a b : α}
    (quiet : Quiet (do note line cause; pure a) b) : False := by
  have push : (#[].push ⟨line,cause⟩ : Array ReadFault) = #[] := congrArg Prod.snd quiet
  exact absurd push Array.push_ne_empty

end

/-! ### What is read without fault -/

variable {s : Scope} {i j : Instruction} {ops : List String} {line : Nat} {text : String}

def Scope.number? (s : Scope) (text : String) : Option Int :=
  match text.toList with
  | [] => none
  | letter :: digits => do
    let n ← (readSigned (String.ofList digits)).ok?
    if letter = 'v' then some n
    else if letter = 'p' then some (wrap64 (s.registers - s.ins + n))
    else none

theorem registerNumber (s : Scope) (line : Nat) (text : String) :
    s.register line text = (s.number? text).elim (do note line (.register text); pure 0) pure := by
  unfold Scope.register
  dsimp only
  split
  · rename_i n given
    rw [show s.number? text = some n from given]
    rfl
  · rename_i given
    rw [show s.number? text = none from given]
    rfl

theorem numberFits {n : Int} (given : s.number? text = some n) : Fits n := by
  unfold Scope.number? at given
  split at given
  · contradiction
  · obtain ⟨m,read,given⟩ := Option.bind_eq_some_iff.mp given
    split at given
    · exact readSignedFits (Option.some.inj given ▸ read)
    · split at given
      · exact Option.some.inj given ▸ wrapFits _
      · contradiction

theorem registerGrows (s : Scope) (line : Nat) (text : String) : Grows (s.register line text) := by
  rw [registerNumber]
  cases s.number? text with
  | none => exact .note ..
  | some n => exact .pure n

theorem registerQuiet {r : Int} (quiet : Quiet (s.register line text) r) : Fits r := by
  rw [registerNumber] at quiet
  cases given : s.number? text with
  | none =>
    rw [given] at quiet
    exact quiet.noted.elim
  | some n =>
    rw [given] at quiet
    exact numberFits (quiet.ofPure ▸ given)

theorem registerAllGrows (s : Scope) (line : Nat) (texts : List String) : Grows (s.registerAll line texts) := by
  induction texts with
  | nil => exact .pure _
  | cons text texts ih => exact (registerGrows s line text).bind fun _ => ih.bind fun _ => .pure _

theorem registerAllQuiet {texts : List String} {rs : List Int} (quiet : Quiet (s.registerAll line texts) rs) :
    (∀ r ∈ rs, Fits r) ∧ rs.length = texts.length := by
  induction texts generalizing rs with
  | nil =>
    cases quiet.ofPure
    exact ⟨fun _ member => absurd member List.not_mem_nil,rfl⟩
  | cons text texts ih =>
    obtain ⟨r,first,quiet⟩ := quiet.parts fun _ => (registerAllGrows s line texts).bind fun _ => .pure _
    obtain ⟨rs',later,quiet⟩ := quiet.parts fun _ => .pure _
    cases quiet.ofPure
    obtain ⟨fits,count⟩ := ih later
    exact ⟨List.forall_mem_cons.mpr ⟨registerQuiet first,fits⟩,congrArg (· + 1) count⟩

theorem leadingQuiet {n : Nat} {r : Instruction × List String} (quiet : Quiet (s.leading i n ops) r) :
    ∃ rs, r = ({ i with regs := rs },ops.drop n) ∧ (∀ r ∈ rs, Fits r) ∧ rs.length = n := by
  unfold Scope.leading at quiet
  split at quiet
  · exact quiet.noted.elim
  · rename_i enough
    obtain ⟨rs,read,quiet⟩ := quiet.parts fun _ => .pure _
    obtain ⟨fits,count⟩ := registerAllQuiet read
    rw [List.length_take,Nat.min_eq_left (Nat.le_of_not_lt enough)] at count
    exact ⟨rs,quiet.ofPure.symm,fits,count⟩

theorem listedQuiet (quiet : Quiet (s.listed i ops) j) :
    ∃ rs, j = { i with regs := rs } ∧ ∀ r ∈ rs, Fits r := by
  unfold Scope.listed at quiet
  split at quiet
  · exact quiet.noted.elim
  · split at quiet
    · exact quiet.noted.elim
    · obtain ⟨rs,read,quiet⟩ := quiet.parts fun _ => .pure _
      exact ⟨rs,quiet.ofPure.symm,(registerAllQuiet read).1⟩

theorem noteLiteralQuiet {x : Int} (quiet : Quiet (noteLiteral line text) x) : Fits x := by
  unfold noteLiteral at quiet
  split at quiet
  · rename_i read
    exact readLiteralFits (quiet.ofPure ▸ read)
  · exact quiet.noted.elim

theorem fieldRefQuiet {o : Option FieldRef} (quiet : Quiet (Scope.fieldRef line text) o) :
    ∃ f, o = some f ∧ f.text = text := by
  unfold Scope.fieldRef at quiet
  split at quiet
  · rename_i owner name rest split_
    split at quiet
    · rename_i type stripped
      exact ⟨_,quiet.ofPure.symm,(fieldRefText split_ stripped).2⟩
    · exact quiet.noted.elim
  · exact quiet.noted.elim

theorem methodRefQuiet {o : Option MethodRef} (quiet : Quiet (Scope.methodRef line text) o) :
    ∃ m, o = some m ∧ m.text = text := by
  unfold Scope.methodRef at quiet
  split at quiet
  · exact quiet.noted.elim
  · rename_i owner name rest split_
    split at quiet
    · exact quiet.noted.elim
    · rename_i sig parsed
      exact ⟨_,quiet.ofPure.symm,(methodRefText split_ parsed).2⟩

/-! ### Registers, then an operand -/

def withOperand (kind : Operand) (typed : Bool) (i : Instruction) (o : String) : Noting Instruction :=
  match kind with
  | .none | .target => pure i
  | .literal => do pure { i with literal := ← noteLiteral i.line o }
  | .string =>
    match readString o with
    | .ok bs => pure { i with str := bs }
    | .error f => do note i.line (.literal f); pure i
  | .ref => pure { i with ref := o, type := if typed then o else i.type }
  | .field => do pure { i with field := ← Scope.fieldRef i.line o }
  | .method => do
    match ← Scope.methodRef i.line o with
    | some m => pure { i with method := some m, type := m.result }
    | none => pure i

def withRest (kind : Operand) (typed : Bool) (r : Instruction × List String) : Noting Instruction :=
  match r.2 with
  | [] => pure r.1
  | o :: _ => withOperand kind typed r.1 o

def Scope.head (s : Scope) (i : Instruction) (ops : List String) : Noting (Instruction × List String) :=
  if i.family.lists then do
    let j ← s.listed i ops
    pure (j,ops.drop 1)
  else s.leading i i.arity ops

theorem leadingNone (blank : i.Blank) (ops : List String) : s.leading i 0 ops = pure (i,ops) := by
  have regs := blank.regs
  unfold Scope.leading
  rw [if_neg (Nat.not_lt_zero _)]
  change (pure ({ i with regs := [] },ops) : Noting _) = _
  rw [← regs]

theorem decodeByKind {p : Placed} (blank : p.inst.Blank) (own : p.inst.family.labelled = false) :
    s.decode p = s.head p.inst p.operands >>= withRest p.inst.family.operand p.inst.family.typed := by
  have first : ∀ (n : Nat) (next next' : Instruction × List String → Noting Instruction),
      (∀ j, next (j,[]) = next' (j,[])) → (∀ j o os, next (j,o :: os) = next' (j,o :: os)) →
      s.leading p.inst n p.operands >>= next = s.leading p.inst n p.operands >>= next' := by
    intro n next next' none some
    refine bind_congr fun ⟨j,rest⟩ => ?_
    cases rest with
    | nil => exact none j
    | cons o os => exact some j o os
  have listed : ∀ next : Instruction → Noting Instruction,
      (∀ j, next j = withRest p.inst.family.operand p.inst.family.typed (j,p.operands.drop 1)) →
      s.listed p.inst p.operands >>= next = (do
        let j ← s.listed p.inst p.operands
        pure (j,p.operands.drop 1)) >>= withRest p.inst.family.operand p.inst.family.typed := by
    intro next same
    rw [bind_assoc]
    exact bind_congr fun j => (same j).trans (pure_bind ..).symm
  unfold Scope.decode Scope.head arity
  dsimp only
  cases family : p.inst.family
  case goto | ifTest | ifZero | packedSwitch | sparseSwitch | fillArrayData =>
    rw [family] at own
    contradiction
  case invoke | filledNewArray =>
    rw [family] at listed
    refine listed _ fun j => ?_
    cases p.operands.drop 1 <;> rfl
  case nop | returnVoid | unknown =>
    refine Eq.trans ?_ (congrArg (· >>= _) (leadingNone blank p.operands).symm)
    cases p.operands <;> rfl
  all_goals exact first _ _ _ (fun _ => rfl) fun _ _ _ => rfl

end Assembly
end RegCode

/-! Printed instructions as lines. What the scanners make of the text of an instruction is its mnemonic
and the texts of its operands. -/
namespace RegCode

open Text

namespace Assembly

open Instruction

variable {i : Instruction}

structure Sayable (i : Instruction) : Prop where
  formed : i.Formed
  count : i.family.lists = false → i.regs.length = i.arity
  fits : ∀ r ∈ i.regs, Fits r
  literal : Fits i.literal
  texts : ∀ o ∈ i.operandText, Piece o.toList ∧ '\n' ∉ o.toList
  data : i.switch = none ∧ i.array = none ∧ i.payload = ""

/-! ### Numerals -/

theorem numeralPlain {c : Char} (numeral : isNumeral c = true) :
    c ≠ '"' ∧ c ≠ '#' ∧ c ≠ ',' ∧ nesting c = 0 := by
  refine ⟨?_,?_,?_,?_⟩
  case refine_4 =>
    unfold nesting
    rw [if_neg,if_neg] <;> rintro rfl <;> exact absurd numeral (by decide)
  all_goals
    rintro rfl
    exact absurd numeral (by decide)

theorem literalPiece (x : Int) : Piece (literalText x).toList ∧ '\n' ∉ (literalText x).toList := by
  rw [literalTextChars,String.toList_ofList]
  refine ⟨⟨plainUncut fun c member => ?_,literalTrimmed x⟩,fun member => ?_⟩
  · rcases literalMembers x c member with digit | rfl | rfl
    · exact numeralPlain (by rw [isNumeral,digit,Bool.true_or])
    · decide
    · decide
  · exact absurd (literalMembers x _ member) (by decide)

/-! ### Mnemonics -/

def isWordChar (c : Char) : Bool :=
  (97 ≤ c.toNat && c.toNat ≤ 122) || (48 ≤ c.toNat && c.toNat ≤ 57) || c == '-' || c == '/'

theorem tableWords : ∀ e ∈ Mnemonic.table, e.1 ≠ "" ∧ e.1.toList.all isWordChar = true := by
  decide +kernel

theorem mnemonicWord {name : String} {shape : Shape} (looked : Mnemonic.shape? name = some shape) :
    name.toList ≠ [] ∧ ∀ c ∈ name.toList, isWordChar (lowerChar c) = true := by
  obtain ⟨some,word⟩ := tableWords _ (Instruction.shapeListed looked)
  rw [lower] at some word
  refine ⟨fun none => some (by rw [none]; rfl),fun c member => List.all_eq_true.mp word _ ?_⟩
  rw [String.toList_ofList]
  exact List.mem_map_of_mem member

def caseless : List (Nat × Nat) :=
  [(0,0x40),(0x85,0x85),(0xA0,0xA0),(0x1680,0x1680),(0x2000,0x200A),(0x2028,0x202F),(0x205F,0x205F),
   (0x3000,0x3000)]

theorem caselessUncovered : ∀ e ∈ caseless, ∀ r ∈ upperRuns, r.last < e.1 ∨ e.2 < r.first := by
  decide +kernel

theorem caselessLower {c : Char} (lo hi : Nat) (range : (lo,hi) ∈ caseless) (least : lo ≤ c.toNat)
    (most : c.toNat ≤ hi) : lowerChar c = c := by
  have none : upperRuns.find? (·.covers c.toNat) = Option.none := by
    refine List.find?_eq_none.mpr fun r member covers => ?_
    unfold CaseRun.covers at covers
    simp only [Bool.and_eq_true,decide_eq_true_eq] at covers
    have := caselessUncovered (lo,hi) range r member
    dsimp only at this
    omega
  rw [lowerChar,none]

theorem blankLower {c : Char} (blank : isBlank c = true) : lowerChar c = c := by
  unfold isBlank at blank
  simp only [Bool.or_eq_true,Bool.and_eq_true,decide_eq_true_eq,beq_iff_eq] at blank
  rcases blank with (((((((((low | low) | same) | same) | same) | wide) | same) | same) | same) | same) | same
  · exact caselessLower 0 0x40 (by decide) (by omega) (by omega)
  · exact caselessLower 0 0x40 (by decide) (by omega) (by omega)
  · exact caselessLower 0x85 0x85 (by decide) (by omega) (by omega)
  · exact caselessLower 0xA0 0xA0 (by decide) (by omega) (by omega)
  · exact caselessLower 0x1680 0x1680 (by decide) (by omega) (by omega)
  · exact caselessLower 0x2000 0x200A (by decide) (by omega) (by omega)
  · exact caselessLower 0x2028 0x202F (by decide) (by omega) (by omega)
  · exact caselessLower 0x2028 0x202F (by decide) (by omega) (by omega)
  · exact caselessLower 0x2028 0x202F (by decide) (by omega) (by omega)
  · exact caselessLower 0x205F 0x205F (by decide) (by omega) (by omega)
  · exact caselessLower 0x3000 0x3000 (by decide) (by omega) (by omega)

theorem blankWord {c : Char} (blank : isBlank c = true) : isWordChar c = false := by
  unfold isBlank at blank
  unfold isWordChar
  simp only [Bool.or_eq_true,Bool.and_eq_true,decide_eq_true_eq,beq_iff_eq] at blank
  have dash : c ≠ '-' := by rintro rfl; revert blank; decide
  have slash : c ≠ '/' := by rintro rfl; revert blank; decide
  simp only [Bool.or_eq_false_iff,Bool.and_eq_false_iff,decide_eq_false_iff_not,beq_eq_false_iff_ne]
  exact ⟨⟨⟨by omega,by omega⟩,dash⟩,slash⟩

theorem wordSolid {c : Char} (word : isWordChar (lowerChar c) = true) :
    isBlank c = false ∧ isPlain c = true ∧ c ≠ ':' ∧ c ≠ '.' := by
  have same : c.toNat ≤ 0x40 → lowerChar c = c :=
    caselessLower 0 0x40 (List.mem_cons_self ..) (Nat.zero_le _)
  refine ⟨Bool.eq_false_iff.mpr fun blank => ?_,?_,?_,?_⟩
  · rw [blankLower blank,blankWord blank] at word
    contradiction
  · unfold isPlain
    rw [Bool.and_eq_true,bne_iff_ne,bne_iff_ne]
    constructor <;>
      rintro rfl <;>
      rw [same (by decide)] at word <;>
      exact absurd word (by decide)
  all_goals
    rintro rfl
    rw [same (by decide)] at word
    exact absurd word (by decide)

/-! ### Texts in front of the last operand -/

/-- A text that all scanners pass without a trace. -/
structure Front (cs : List Char) : Prop where
  closed : Closed cs
  trimmed : trimChars cs = cs
  some : cs ≠ []
  plain : ∀ c ∈ cs, isPlain c = true
  line : '\n' ∉ cs

theorem numeralFront {c : Char} (numeral : isNumeral c = true) : isPlain c = true := by
  obtain ⟨quote,hash,-⟩ := numeralPlain numeral
  rw [isPlain,Bool.and_eq_true,bne_iff_ne,bne_iff_ne]
  exact ⟨quote,hash⟩

theorem registerFront (r : Int) : Front (registerText r).toList where
  closed := fun acc ds => piecesThrough (fun c member => by
    rcases registerNumeral r c member with numeral | rfl
    · obtain ⟨quote,-,comma,flat⟩ := numeralPlain numeral
      exact ⟨quote,flat,fun both => comma both.1⟩
    · decide) acc
  trimmed := (registerSolid r).1
  some := (registerSolid r).2
  plain := fun c member => by
    rcases registerNumeral r c member with numeral | rfl
    · exact numeralFront numeral
    · rfl
  line := fun member => absurd (registerNumeral r _ member) (by decide)

theorem listFront (rs : List Int) : Front (listText rs).toList where
  closed := by
    intro acc ds
    have marks : ∀ c ∈ ['v',',',' '], c ≠ '"' ∧ nesting c = 0 ∧ ¬(c = ',' ∧ (1 : Int) = 0) := by
      simp [nesting]
    have through : ∀ c ∈ (", ".intercalate (rs.map registerText)).toList,
        c ≠ '"' ∧ nesting c = 0 ∧ ¬(c = ',' ∧ (1 : Int) = 0) := by
      intro c member
      rcases joinedMembers rs c member with numeral | mark
      · obtain ⟨quote,-,-,flat⟩ := numeralPlain numeral
        exact ⟨quote,flat,fun both => absurd both.2 (by decide)⟩
      · exact marks c mark
    rw [listChars,List.cons_append,List.append_assoc,piecesOutside (by decide) (by decide),
      show (0 : Int) + nesting '\x7b' = 1 from rfl,piecesThrough through,List.cons_append,
      piecesOutside (by decide) (by decide)]
    simp [nesting]
  trimmed := by
    rw [listChars]
    exact trimAppend (show trimChars ['\x7b'] = ['\x7b'] from rfl)
      (show trimChars ['\x7d'] = ['\x7d'] from rfl) (List.cons_ne_nil _ _) (List.cons_ne_nil _ _)
  some := by
    rw [listChars]
    exact List.cons_ne_nil _ _
  plain := by
    intro c member
    rw [listChars] at member
    rcases List.mem_cons.mp member with rfl | member
    · rfl
    · rcases List.mem_append.mp member with inside | last
      · rcases joinedMembers rs c inside with numeral | mark
        · exact numeralFront numeral
        · exact List.all_eq_true.mp (show ['v',',',' '].all isPlain = true from rfl) c mark
      · rw [List.mem_singleton.mp last]
        rfl
  line := by
    rw [listChars]
    intro member
    rcases List.mem_cons.mp member with same | member
    · exact absurd same (by decide)
    · rcases List.mem_append.mp member with inside | last
      · exact absurd (joinedMembers rs _ inside) (by decide)
      · exact absurd last (by decide)

def fronts (i : Instruction) : List String :=
  if i.family.lists then [listText i.regs] else i.regs.map registerText

theorem frontsFront (i : Instruction) : ∀ t ∈ fronts i, Front t.toList := by
  intro t member
  unfold fronts at member
  split at member
  · rw [List.mem_singleton.mp member]
    exact listFront _
  · obtain ⟨r,-,rfl⟩ := List.mem_map.mp member
    exact registerFront r

/-! ### The line that is printed -/

def tailChars : List String → List Char
  | [] => []
  | o :: _ => if o = "" then [','] else ',' :: ' ' :: o.toList

theorem wordEnds {cs : List Char} (word : ∀ c ∈ cs, isBlank c = false) :
    ∀ c ∈ cs, (c == ' ' || c == '\t') = false := by
  intro c member
  rw [Bool.or_eq_false_iff,beq_eq_false_iff_ne,beq_eq_false_iff_ne]
  constructor <;> rintro rfl <;> exact absurd (word _ member) (by decide)

theorem operandsBody {s : String} {ss os : List String} (fronts : ∀ t ∈ s :: ss, Front t.toList)
    (few : os.length ≤ 1) (pieces : ∀ o ∈ os, Piece o.toList) :
    operands (String.ofList (s.toList ++ (trail ss ++ tailChars os))) = s :: ss ++ os.filter (· ≠ "") := by
  have closed : ∀ t ∈ s :: ss, Closed t.toList ∧ trimChars t.toList = t.toList :=
    fun t member => ⟨(fronts t member).closed,(fronts t member).trimmed⟩
  match os with
  | [] =>
    have cut := operandsTrail closed [] [] (fun acc => by rw [operandPieces]) rfl
    refine operandsParts (by rw [String.toList_ofList]; exact cut) fun t last => ?_
    rw [List.filter_nil,List.append_nil] at last
    rintro rfl
    exact (fronts _ (List.mem_of_getLast? last)).some rfl
  | [o] =>
    by_cases none : o = ""
    · have cut := operandsTrail closed [','] [[]] (fun acc => rfl) rfl
      rw [tailChars,if_pos none,List.filter_cons,if_neg (by simp [none]),List.filter_nil,List.append_nil]
      refine operandsFront ?_
      rw [String.toList_ofList]
      exact cut
    · have uncut : Uncut 0 false (' ' :: o.toList) :=
        .outside (by decide) (by decide) (by decide) (pieces o (List.mem_singleton_self o)).uncut
      have trimmed : String.ofList (trimChars (' ' :: o.toList)) = o := by
        show String.ofList (trimChars o.toList) = o
        rw [(pieces o (List.mem_singleton_self o)).trimmed,String.ofList_toList]
      have cut := operandsTrail closed (',' :: ' ' :: o.toList) [' ' :: o.toList]
        (fun acc => congrArg (acc.reverse :: ·) (uncut.piece [])) (congrArg (fun t => [t]) trimmed)
      rw [tailChars,if_neg none,List.filter_cons,if_pos (by simpa using none),List.filter_nil]
      refine operandsParts (by rw [String.toList_ofList]; exact cut) fun t last => ?_
      rw [List.getLast?_concat] at last
      cases last
      exact none

theorem bodyTrimmed {s : String} {ss os : List String} (fronts : ∀ t ∈ s :: ss, Front t.toList)
    (few : os.length ≤ 1) (pieces : ∀ o ∈ os, Piece o.toList) :
    trimChars (s.toList ++ (trail ss ++ tailChars os)) = s.toList ++ (trail ss ++ tailChars os) ∧
      (s.toList ++ (trail ss ++ trail os) = s.toList ++ (trail ss ++ tailChars os) ∨
        s.toList ++ (trail ss ++ trail os) = s.toList ++ (trail ss ++ tailChars os) ++ [' ']) := by
  have solid : ∀ t ∈ s :: ss, trimChars t.toList = t.toList ∧ t.toList ≠ [] :=
    fun t member => ⟨(fronts t member).trimmed,(fronts t member).some⟩
  obtain ⟨first,some⟩ := solid s (List.mem_cons_self ..)
  match os with
  | [] =>
    refine ⟨?_,.inl rfl⟩
    rw [tailChars,List.append_nil]
    exact trimTrail solid
  | [o] =>
    by_cases none : o = ""
    · subst none
      refine ⟨trimAppend first rfl some nofun,.inr ?_⟩
      simp [tailChars,trail]
    · have whole : trail [o] = ',' :: ' ' :: o.toList := by simp [trail]
      rw [tailChars,if_neg none,whole]
      refine ⟨?_,.inl rfl⟩
      have split : trail ss ++ ',' :: ' ' :: o.toList = (trail ss ++ [',',' ']) ++ o.toList := by simp
      rw [split]
      refine trimAppend first (pieces o (List.mem_singleton_self o)).trimmed some fun empty => none ?_
      exact String.toList_injective empty

theorem trailMembers {ss : List String} : ∀ c ∈ trail ss, c = ',' ∨ c = ' ' ∨ ∃ t ∈ ss, c ∈ t.toList := by
  intro c member
  obtain ⟨t,inside,member⟩ := List.mem_flatMap.mp member
  rcases List.mem_cons.mp member with comma | member
  · exact .inl comma
  · rcases List.mem_cons.mp member with blank | member
    · exact .inr (.inl blank)
    · exact .inr (.inr ⟨t,inside,member⟩)

theorem bodyKept {s : String} {ss os : List String} (fronts : ∀ t ∈ s :: ss, Front t.toList)
    (few : os.length ≤ 1) (pieces : ∀ o ∈ os, Piece o.toList) :
    stripComment false (s.toList ++ (trail ss ++ trail os)) = s.toList ++ (trail ss ++ trail os) := by
  have plain : ∀ c ∈ trail ss, isPlain c = true := by
    intro c member
    rcases trailMembers c member with rfl | rfl | ⟨t,inside,member⟩
    · rfl
    · rfl
    · exact (fronts t (List.mem_cons_of_mem _ inside)).plain c member
  have last : stripComment false (trail os) = trail os := by
    match os with
    | [] => rfl
    | [o] =>
      have whole : trail [o] = [',',' '] ++ o.toList := by simp [trail]
      rw [whole,stripCommentPlain (List.all_eq_true.mp rfl),(pieces o (List.mem_singleton_self o)).uncut.kept]
  rw [stripCommentPlain (fronts s (List.mem_cons_self ..)).plain,stripCommentPlain plain,last]

theorem frontsNone (sayable : Sayable i) (own : i.family.labelled = false) (none : fronts i = []) :
    i.operandText = [] := by
  unfold fronts at none
  split at none
  · contradiction
  · rename_i plain
    have count := sayable.count (Bool.eq_false_iff.mpr plain)
    rw [List.map_eq_nil_iff.mp none] at count
    unfold arity at count
    unfold operandText
    cases family : i.family <;> rw [family] at own count plain <;> first
      | rfl
      | contradiction

theorem lineSplit (sayable : Sayable i) (own : i.family.labelled = false) :
    ∃ line rest, trimChars (stripComment false i.text.toList) = line ∧ line.head? = i.mnemonic.toList.head? ∧
      splitHead (String.ofList line) = (i.mnemonic,rest) ∧
      operands rest = fronts i ++ i.operandText.filter (· ≠ "") := by
  obtain ⟨shape,looked,-⟩ := sayable.formed.shape
  obtain ⟨some,word⟩ := mnemonicWord looked
  have solid := fun c member => wordSolid (word c member)
  have texts := operandTextsSplit i
  rw [← fronts] at texts
  cases first : fronts i with
  | nil =>
    have none := frontsNone sayable own first
    rw [first,none,List.append_nil] at texts
    have chars : i.text.toList = i.mnemonic.toList := by
      rw [textChars,texts,behind,List.append_nil]
    refine ⟨i.mnemonic.toList,"",?_,rfl,?_,?_⟩
    · rw [chars,← List.append_nil i.mnemonic.toList,stripCommentPlain fun c member => (solid c member).2.1,
        stripComment,List.append_nil]
      exact trimEnds (fun c first => (solid c (List.mem_of_head? first)).1)
        fun c last => (solid c (List.mem_of_getLast? last)).1
    · rw [splitHead,String.toList_ofList,cutWhereAbsent (wordEnds fun c member => (solid c member).1),
        String.ofList_toList]
    · rw [none]
      rfl
  | cons s ss =>
    have all := frontsFront i
    rw [first] at all texts
    have pieces := fun o member => (sayable.texts o member).1
    have few := operandTextFew i
    obtain ⟨trimmed,ends⟩ := bodyTrimmed all few pieces
    have parted := operandsBody all few pieces
    have chars : i.text.toList = i.mnemonic.toList ++ ([' '] ++
        (s.toList ++ (trail ss ++ trail i.operandText))) := by
      rw [textChars,texts,List.cons_append,behind,trailAppend]
      rfl
    have kept : stripComment false i.text.toList = i.text.toList := by
      rw [chars,stripCommentPlain fun c member => (solid c member).2.1,
        stripCommentPlain (List.all_eq_true.mp rfl),bodyKept all few pieces]
    have some' : s.toList ++ (trail ss ++ tailChars i.operandText) ≠ [] :=
      List.append_ne_nil_of_left_ne_nil (all s (List.mem_cons_self ..)).some _
    generalize s.toList ++ (trail ss ++ tailChars i.operandText) = body at *
    have line : trimChars (i.mnemonic.toList ++ ([' '] ++ body)) = i.mnemonic.toList ++ ([' '] ++ body) := by
      refine trimAppend ?_ trimmed some some'
      exact trimEnds (fun c first => (solid c (List.mem_of_head? first)).1)
        fun c last => (solid c (List.mem_of_getLast? last)).1
    refine ⟨i.mnemonic.toList ++ ([' '] ++ body),String.ofList body,?_,
      List.head?_append_of_ne_nil _ some,?_,parted⟩
    · rw [kept,chars]
      rcases ends with same | blank
      · rw [same]
        exact line
      · rw [blank]
        refine (congrArg trimChars ?_).trans (trimBlank line (List.append_ne_nil_of_left_ne_nil some _))
        simp
    · rw [splitHead,String.toList_ofList,List.singleton_append,
        cutWhereFirst (wordEnds fun c member => (solid c member).1) rfl]
      dsimp only
      rw [trimmed,String.ofList_toList]

theorem textLine (sayable : Sayable i) : '\n' ∉ i.text.toList := by
  obtain ⟨shape,looked,-⟩ := sayable.formed.shape
  have texts : ∀ t ∈ i.operandTexts, '\n' ∉ t.toList := by
    intro t member
    rw [operandTextsSplit,← fronts] at member
    rcases List.mem_append.mp member with front | last
    · exact (frontsFront i t front).line
    · exact (sayable.texts t last).2
  rw [textChars]
  intro member
  rcases List.mem_append.mp member with word | member
  · exact absurd (wordSolid ((mnemonicWord looked).2 _ word)).1 (by decide)
  · cases split : i.operandTexts with
    | nil =>
      rw [split] at member
      contradiction
    | cons s ss =>
      rw [split] at member texts
      rcases List.mem_cons.mp member with blank | member
      · exact absurd blank (by decide)
      · rcases List.mem_append.mp member with first | later
        · exact texts s (List.mem_cons_self ..) first
        · rcases trailMembers _ later with comma | blank | ⟨t,inside,member⟩
          · exact absurd comma (by decide)
          · exact absurd blank (by decide)
          · exact texts t (List.mem_cons_of_mem _ inside) member

end Assembly
end RegCode
