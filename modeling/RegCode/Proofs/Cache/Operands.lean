import RegCode.Assembly.Literal
import RegCode.Mnemonic
import RegCode.Proofs.Text.Numerals
import RegCode.Proofs.Text.Quoting

/-! What the text of an instruction tells: everything but its place in the source and the data that
it refers to by label. -/
namespace RegCode

open Text

namespace Instruction

def trail (ss : List String) : List Char := ss.flatMap fun s => ',' :: ' ' :: s.toList

theorem trailAppend (ss ts : List String) : trail (ss ++ ts) = trail ss ++ trail ts :=
  List.flatMap_append

theorem intercalateTrail (s : String) (ss : List String) :
    (", ".intercalate (s :: ss)).toList = s.toList ++ trail ss := by
  rw [String.toList_intercalate]
  induction ss generalizing s with
  | nil => simp [trail]
  | cons t ss ih =>
    have := ih t
    simp_all [trail]

theorem trailStop (ss : List String) : ∀ c ∈ (trail ss).head?, (c != ',') = false := by
  intro c first
  cases ss with
  | nil => contradiction
  | cons s ss =>
    cases first
    rfl

theorem trailInj {as bs : List String} (few : as.length ≤ 1) (few' : bs.length ≤ 1)
    (same : trail as = trail bs) : as = bs := by
  match as,bs with
  | [],[] => rfl
  | [],b :: _ => contradiction
  | a :: _,[] => contradiction
  | [a],[b] =>
    simp only [trail,List.flatMap_cons,List.flatMap_nil,List.append_nil,List.cons.injEq,true_and] at same
    rw [String.toList_injective same]

theorem registerPlain (r : Int) : ∀ c ∈ (registerText r).toList, (c != ',') = true := by
  intro c member
  rw [registerText,String.toList_append] at member
  rcases List.mem_append.mp member with letter | number
  · rw [List.mem_singleton.mp letter]
    rfl
  · rw [bne_iff_ne]
    rintro rfl
    exact absurd (intTextNumeral r _ number) (by decide)

theorem registerInj {r s : Int} (same : registerText r = registerText s) : r = s :=
  intTextInj ((String.append_right_inj _).mp same)

theorem registersInj {rs ss : List Int} {as bs : List String}
    (bounded : rs.length = ss.length ∨ as = [] ∧ bs = [])
    (same : trail (rs.map registerText ++ as) = trail (ss.map registerText ++ bs)) :
    rs = ss ∧ trail as = trail bs := by
  induction rs generalizing ss with
  | nil =>
    cases ss with
    | nil => exact ⟨rfl,same⟩
    | cons s ss =>
      obtain ⟨rfl,rfl⟩ := bounded.resolve_left nofun
      contradiction
  | cons r rs ih =>
    cases ss with
    | nil =>
      obtain ⟨rfl,rfl⟩ := bounded.resolve_left nofun
      contradiction
    | cons s ss =>
      obtain ⟨texts,rest⟩ := spanInj (registerPlain r) (registerPlain s)
        (trailStop (rs.map registerText ++ as)) (trailStop (ss.map registerText ++ bs))
        (List.cons.inj (List.cons.inj same).2).2
      obtain ⟨rfl,ends⟩ := ih (bounded.imp_left Nat.succ.inj) rest
      rw [registerInj (String.toList_injective texts)]
      exact ⟨rfl,ends⟩

def listText (rs : List Int) : String := "\x7b" ++ ", ".intercalate (rs.map registerText) ++ "\x7d"

theorem trailOfJoined {ss ts : List String} (empty : ss = [] ↔ ts = [])
    (same : (", ".intercalate ss).toList = (", ".intercalate ts).toList) : trail ss = trail ts := by
  match ss,ts with
  | [],[] => rfl
  | [],t :: _ => exact absurd (empty.mp rfl) nofun
  | s :: _,[] => exact absurd (empty.mpr rfl) nofun
  | s :: ss,t :: ts =>
    rw [intercalateTrail,intercalateTrail] at same
    exact congrArg (fun cs => ',' :: ' ' :: cs) same

theorem joinedEmpty {rs : List Int} :
    (", ".intercalate (rs.map registerText)).toList = [] ↔ rs.map registerText = [] := by
  cases rs with
  | nil => simp
  | cons r rs =>
    rw [List.map_cons,intercalateTrail,registerText,String.toList_append]
    exact ⟨nofun,nofun⟩

theorem joinedInj {rs ss : List Int} (same : (", ".intercalate (rs.map registerText)).toList =
    (", ".intercalate (ss.map registerText)).toList) : rs = ss := by
  have trails := trailOfJoined (joinedEmpty.symm.trans (same ▸ joinedEmpty)) same
  refine (registersInj (.inr ⟨rfl,rfl⟩) ?_).1
  rwa [List.append_nil,List.append_nil]

theorem joinedOpen (rs : List Int) :
    ∀ c ∈ (", ".intercalate (rs.map registerText)).toList, (c != '\x7d') = true := by
  intro c member
  rw [bne_iff_ne]
  rintro rfl
  have letters : ∀ r, '\x7d' ∉ (registerText r).toList := by
    intro r member
    rw [registerText,String.toList_append] at member
    rcases List.mem_append.mp member with letter | number
    · exact absurd letter (by decide)
    · exact absurd (intTextNumeral r _ number) (by decide)
  cases rs with
  | nil => simp at member
  | cons r rs =>
    rw [List.map_cons,intercalateTrail] at member
    rcases List.mem_append.mp member with first | later
    · exact letters r first
    · obtain ⟨s,register,member⟩ := List.mem_flatMap.mp later
      obtain ⟨q,-,rfl⟩ := List.mem_map.mp register
      simp only [List.mem_cons] at member
      rcases member with comma | blank | member
      · exact absurd comma (by decide)
      · exact absurd blank (by decide)
      · exact letters q member

theorem listInj {rs ss : List Int} {c d : List Char}
    (same : (listText rs).toList ++ c = (listText ss).toList ++ d) : rs = ss ∧ c = d := by
  unfold listText at same
  simp only [String.toList_append,List.append_assoc] at same
  have stop : ∀ e : List Char, ∀ x ∈ ("\x7d".toList ++ e).head?, (x != '\x7d') = false := by
    rintro e x ⟨⟩
    rfl
  obtain ⟨joined,rest⟩ := spanInj (joinedOpen rs) (joinedOpen ss) (stop c) (stop d)
    (List.append_cancel_left same)
  exact ⟨joinedInj joined,List.append_cancel_left rest⟩

end Instruction

inductive Operand where
  | none | literal | string | ref | field | method | target
  deriving DecidableEq

namespace Family

def operand : Family → Operand
  | const | constWide | binaryLit => .literal
  | constString => .string
  | constClass | checkCast | instanceOf | newInstance | newArray | filledNewArray => .ref
  | iget | iput | sget | sput => .field
  | invoke => .method
  | goto | ifTest | ifZero => .target
  | _ => .none

def lists : Family → Bool
  | invoke | filledNewArray => true
  | _ => false

end Family

def FieldRef.Read (f : FieldRef) : Prop :=
  Assembly.splitMember? f.text = some (f.owner,f.name,":" ++ f.type)

def MethodRef.Read (m : MethodRef) : Prop :=
  Assembly.splitMember? m.text = some (m.owner,m.name,m.descriptor) ∧
    Descriptor.Signature.parse? m.descriptor = some ⟨m.params,m.result⟩

namespace Instruction

def arity (i : Instruction) : Nat :=
  match i.family with
  | .nop | .returnVoid | .goto | .invoke | .filledNewArray | .unknown _ => 0
  | .move | .arrayLength | .unary | .convert | .binaryLit | .instanceOf | .newArray | .ifTest | .iget
  | .iput => 2
  | .cmp | .aget | .aput => 3
  | .binary => if i.twoAddress then 2 else 3
  | _ => 1

def givenType (i : Instruction) (type : String) : String :=
  match i.family with
  | .checkCast | .newInstance | .newArray | .filledNewArray => i.ref
  | .invoke => (i.method.map MethodRef.result).getD ""
  | _ => type

structure Formed (i : Instruction) : Prop where
  word : ' ' ∉ i.mnemonic.toList
  shape : ∃ s, Mnemonic.shape? i.mnemonic = some s ∧ i.toShape = { s with type := i.givenType s.type }
  regs : i.family.lists = false → i.regs = [] ∨ i.regs.length = i.arity
  unread : i.regs = [] → i.arity ≠ 0 →
    i.literal = 0 ∧ i.str = [] ∧ i.ref = "" ∧ i.field = none ∧ i.target = 0
  literal : i.family.operand ≠ .literal → i.literal = 0
  str : i.family.operand ≠ .string → i.str = []
  ref : i.family.operand ≠ .ref → i.ref = ""
  field : i.family.operand ≠ .field → i.field = none
  method : i.family.operand ≠ .method → i.method = none
  target : i.family.operand ≠ .target → i.target = 0
  fieldRead : ∀ f, i.field = some f → f.Read
  methodRead : ∀ m, i.method = some m → m.Read

def said (i : Instruction) : Instruction :=
  { i with offset := 0, line := 0, switch := none, array := none, payload := "" }

def operandText (i : Instruction) : List String :=
  match i.family.operand with
  | .none => []
  | .literal => [literalText i.literal]
  | .string => [Quoted.ofBytes i.str]
  | .ref => [i.ref]
  | .field => (i.field.map FieldRef.text).toList
  | .method => (i.method.map MethodRef.text).toList
  | .target => ["@" ++ offsetText i.target]

theorem operandTextsSplit (i : Instruction) :
    i.operandTexts =
      (if i.family.lists then [listText i.regs] else i.regs.map registerText) ++ i.operandText := by
  unfold operandTexts operandText
  cases i.family <;> rfl

theorem operandTextFew (i : Instruction) : i.operandText.length ≤ 1 := by
  unfold operandText
  split <;> grind

def behind : List String → List Char
  | [] => []
  | s :: ss => ' ' :: (s.toList ++ trail ss)

theorem textChars (i : Instruction) : i.text.toList = i.mnemonic.toList ++ behind i.operandTexts := by
  unfold text
  cases i.operandTexts with
  | nil => exact (List.append_nil _).symm
  | cons s ss =>
    simp only [String.toList_append,intercalateTrail,behind,List.append_assoc]
    rfl

variable {i j : Instruction}

theorem mnemonicTold (formed : i.Formed) (formed' : j.Formed) (same : i.text = j.text) :
    i.mnemonic = j.mnemonic ∧ behind i.operandTexts = behind j.operandTexts := by
  have chars := congrArg String.toList same
  rw [textChars,textChars] at chars
  have word : ∀ k : Instruction, k.Formed → ∀ c ∈ k.mnemonic.toList, (c != ' ') = true := by
    intro k formed c member
    rw [bne_iff_ne]
    rintro rfl
    exact formed.word member
  have stop : ∀ ss, ∀ c ∈ (behind ss).head?, (c != ' ') = false := by
    intro ss c first
    cases ss with
    | nil => contradiction
    | cons s ss =>
      cases first
      rfl
  obtain ⟨words,rest⟩ := spanInj (word i formed) (word j formed') (stop _) (stop _) chars
  exact ⟨String.toList_injective words,rest⟩

theorem behindInj {as bs : List String} (few : as.length ≤ 1) (few' : bs.length ≤ 1)
    (same : behind as = behind bs) : as = bs := by
  match as,bs with
  | [],[] => rfl
  | [],b :: _ => contradiction
  | a :: _,[] => contradiction
  | [a],[b] =>
    simp only [behind,trail,List.flatMap_nil,List.append_nil,List.cons.injEq,true_and] at same
    rw [String.toList_injective same]

theorem unreadStart (formed : i.Formed) (none : i.regs = []) (some : i.arity ≠ 0) (cs : List Char) :
    behind i.operandText ≠ ' ' :: 'v' :: cs := by
  obtain ⟨literal,str,ref,field,-⟩ := formed.unread none some
  have target := (formed.unread none some).2.2.2.2
  unfold operandText
  rw [literal,str,ref,field,target]
  split
  · exact nofun
  · exact nofun
  · exact nofun
  · exact nofun
  · exact nofun
  · rename_i family
    cases h : i.family <;> simp_all [Family.operand,arity]
  · rw [behind,String.toList_append]
    exact nofun

theorem plainTold (formed : i.Formed) (formed' : j.Formed) (plain : i.family.lists = false)
    (plain' : j.family.lists = false) (arity : i.arity = j.arity)
    (same : behind (i.regs.map registerText ++ i.operandText) =
      behind (j.regs.map registerText ++ j.operandText)) :
    i.regs = j.regs ∧ i.operandText = j.operandText := by
  have apart : ∀ k l : Instruction, k.Formed → l.Formed → l.family.lists = false → k.arity = l.arity →
      k.regs = [] → ∀ r rs, l.regs = r :: rs →
      behind k.operandText ≠ behind (l.regs.map registerText ++ l.operandText) := by
    intro k l formed formed' plain arity none r rs regs
    have count := (formed'.regs plain).resolve_left (regs ▸ List.cons_ne_nil _ _)
    rw [regs,List.map_cons,List.cons_append,behind,registerText,String.toList_append]
    refine unreadStart formed none ?_ _
    rw [arity,← count,regs]
    exact Nat.succ_ne_zero _
  cases regs : i.regs with
  | nil =>
    cases regs' : j.regs with
    | nil =>
      rw [regs,regs'] at same
      exact ⟨rfl,behindInj (operandTextFew i) (operandTextFew j) same⟩
    | cons s ss =>
      rw [regs] at same
      exact absurd same (apart i j formed formed' plain' arity regs s ss regs')
  | cons r rs =>
    cases regs' : j.regs with
    | nil =>
      rw [regs'] at same
      exact absurd same.symm (apart j i formed' formed plain arity.symm regs' r rs regs)
    | cons s ss =>
      have count := (formed.regs plain).resolve_left (regs ▸ List.cons_ne_nil _ _)
      have count' := (formed'.regs plain').resolve_left (regs' ▸ List.cons_ne_nil _ _)
      rw [regs,regs'] at same
      have lengths : (r :: rs).length = (s :: ss).length := by rw [← regs,← regs',count,count',arity]
      obtain ⟨told,ends⟩ := registersInj (.inl lengths) (congrArg (',' :: ·) same)
      exact ⟨told,trailInj (operandTextFew i) (operandTextFew j) ends⟩

theorem listedTold (same : behind (listText i.regs :: i.operandText) =
    behind (listText j.regs :: j.operandText)) : i.regs = j.regs ∧ i.operandText = j.operandText := by
  obtain ⟨regs,ends⟩ := listInj (List.cons.inj same).2
  exact ⟨regs,trailInj (operandTextFew i) (operandTextFew j) ends⟩

theorem fieldInj {f g : FieldRef} (read : f.Read) (read' : g.Read) (same : f.text = g.text) : f = g := by
  unfold FieldRef.Read at read read'
  rw [same,read'] at read
  have parts := Option.some.inj read.symm
  obtain ⟨owner,name,type⟩ : f.owner = g.owner ∧ f.name = g.name ∧ ":" ++ f.type = ":" ++ g.type := by
    simpa only [Prod.mk.injEq] using parts
  cases f
  cases g
  cases owner
  cases name
  cases (String.append_right_inj _).mp type
  rfl

theorem methodInj {m n : MethodRef} (read : m.Read) (read' : n.Read) (same : m.text = n.text) : m = n := by
  obtain ⟨split,signature⟩ := read
  obtain ⟨split',signature'⟩ := read'
  rw [same,split'] at split
  have parts := Option.some.inj split.symm
  obtain ⟨owner,name,descriptor⟩ : m.owner = n.owner ∧ m.name = n.name ∧ m.descriptor = n.descriptor := by
    simpa only [Prod.mk.injEq] using parts
  rw [descriptor,signature'] at signature
  obtain ⟨params,result⟩ := Descriptor.Signature.mk.inj (Option.some.inj signature.symm)
  cases m
  cases n
  cases owner
  cases name
  cases params
  cases result
  rfl

theorem operandTold (formed : i.Formed) (formed' : j.Formed) (families : i.family = j.family)
    (same : i.operandText = j.operandText) :
    i.literal = j.literal ∧ i.str = j.str ∧ i.ref = j.ref ∧ i.field = j.field ∧ i.method = j.method ∧
      i.target = j.target := by
  unfold operandText at same
  rw [families] at same
  have kind : i.family.operand = j.family.operand := congrArg _ families
  refine ⟨?_,?_,?_,?_,?_,?_⟩
  · by_cases asked : j.family.operand = .literal
    · rw [asked] at same
      exact literalTextInj (List.singleton_inj.mp same)
    · rw [formed.literal (kind ▸ asked),formed'.literal asked]
  · by_cases asked : j.family.operand = .string
    · rw [asked] at same
      exact Quoted.ofBytesInj (List.singleton_inj.mp same)
    · rw [formed.str (kind ▸ asked),formed'.str asked]
  · by_cases asked : j.family.operand = .ref
    · rw [asked] at same
      exact List.singleton_inj.mp same
    · rw [formed.ref (kind ▸ asked),formed'.ref asked]
  · by_cases asked : j.family.operand = .field
    · rw [asked] at same
      match f : i.field,g : j.field with
      | none,none => rfl
      | some f',some g' =>
        rw [f,g] at same
        rw [fieldInj (formed.fieldRead f' f) (formed'.fieldRead g' g) (List.singleton_inj.mp same)]
      | none,some g' | some f',none =>
        rw [f,g] at same
        contradiction
    · rw [formed.field (kind ▸ asked),formed'.field asked]
  · by_cases asked : j.family.operand = .method
    · rw [asked] at same
      match m : i.method,n : j.method with
      | none,none => rfl
      | some m',some n' =>
        rw [m,n] at same
        rw [methodInj (formed.methodRead m' m) (formed'.methodRead n' n) (List.singleton_inj.mp same)]
      | none,some n' | some m',none =>
        rw [m,n] at same
        contradiction
    · rw [formed.method (kind ▸ asked),formed'.method asked]
  · by_cases asked : j.family.operand = .target
    · rw [asked] at same
      exact offsetTextInj ((String.append_right_inj _).mp (List.singleton_inj.mp same))
    · rw [formed.target (kind ▸ asked),formed'.target asked]

theorem textInj (formed : i.Formed) (formed' : j.Formed) (same : i.text = j.text) : i.said = j.said := by
  obtain ⟨mnemonics,texts⟩ := mnemonicTold formed formed' same
  obtain ⟨s,looked,shape⟩ := formed.shape
  obtain ⟨s',looked',shape'⟩ := formed'.shape
  rw [mnemonics,looked'] at looked
  cases looked
  have families : i.family = j.family := (congrArg Shape.family shape).trans (congrArg Shape.family shape').symm
  have two : i.twoAddress = j.twoAddress :=
    (congrArg Shape.twoAddress shape).trans (congrArg Shape.twoAddress shape').symm
  have arity : i.arity = j.arity := by unfold Instruction.arity; rw [families,two]
  obtain ⟨regs,operands⟩ : i.regs = j.regs ∧ i.operandText = j.operandText := by
    rw [operandTextsSplit,operandTextsSplit,families] at texts
    cases listed : j.family.lists with
    | true =>
      rw [listed] at texts
      exact listedTold texts
    | false =>
      rw [listed] at texts
      exact plainTold formed formed' (families ▸ listed) listed arity texts
  obtain ⟨literal,str,ref,field,method,target⟩ := operandTold formed formed' families operands
  have types : i.givenType s.type = j.givenType s.type := by
    unfold givenType
    rw [families,ref,method]
  have shapes : i.toShape = j.toShape := by rw [shape,shape',types]
  cases i
  cases j
  simp only [said,Instruction.mk.injEq,true_and,and_true]
  exact ⟨shapes,mnemonics,regs,literal,str,ref,field,method,target⟩

end Instruction
end RegCode
