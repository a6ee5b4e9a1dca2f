import RegCode.Proofs.Assembly.Keeping
import RegCode.Proofs.Cache.Operands
import Mathlib.Data.List.Basic

/-! What reading assembly text leaves: every instruction of every method has the form that its mnemonic
gives it, also where there are faults in its line. -/
namespace RegCode

open Text

namespace Text

theorem stripStartSome {p cs rest : List Char} (cut : stripStartChars? p cs = some rest) :
    cs = p ++ rest := by
  induction p generalizing cs with
  | nil => exact Option.some.inj cut
  | cons c p ih =>
    cases cs with
    | nil => contradiction
    | cons d cs =>
      rw [stripStartChars?] at cut
      split at cut
      · rename_i same
        rw [same,ih cut]
        rfl
      · contradiction

theorem cutSome {p cs a b : List Char} (cut : cutChars? p cs = some (a,b)) : cs = a ++ (p ++ b) := by
  induction cs generalizing a with
  | nil =>
    rw [cutChars?] at cut
    split at cut
    · rename_i none
      cases cut
      rw [none]
      rfl
    · contradiction
  | cons c cs ih =>
    rw [cutChars?] at cut
    split at cut
    · rename_i rest stripped
      cases cut
      have whole := stripStartSome stripped
      exact whole
    · obtain ⟨⟨a',b'⟩,later,same⟩ := Option.map_eq_some_iff.mp cut
      cases same
      rw [ih later]
      rfl

theorem cutWhereSome {p : Char → Bool} {cs a b : List Char} {c : Char}
    (cut : cutWhere? p cs = some (a,c,b)) : (∀ x ∈ a, p x = false) ∧ p c = true := by
  induction cs generalizing a with
  | nil => contradiction
  | cons d cs ih =>
    rw [cutWhere?] at cut
    split at cut
    · rename_i here
      cases cut
      exact ⟨by simp,here⟩
    · rename_i other
      obtain ⟨⟨a',c',b'⟩,later,same⟩ := Option.map_eq_some_iff.mp cut
      cases same
      obtain ⟨before,mark⟩ := ih later
      exact ⟨List.forall_mem_cons.mpr ⟨Bool.eq_false_iff.mpr other,before⟩,mark⟩

theorem cutWhereNone {p : Char → Bool} {cs : List Char} (uncut : cutWhere? p cs = none) :
    ∀ x ∈ cs, p x = false := by
  induction cs with
  | nil => exact nofun
  | cons d cs ih =>
    rw [cutWhere?] at uncut
    split at uncut
    · contradiction
    · rename_i other
      exact List.forall_mem_cons.mpr ⟨Bool.eq_false_iff.mpr other,ih (Option.map_eq_none_iff.mp uncut)⟩

theorem cutWhereFirst {p : Char → Bool} {cs : List Char} (before : ∀ c ∈ cs, p c = false) {d : Char}
    (mark : p d = true) (ds : List Char) : cutWhere? p (cs ++ d :: ds) = some (cs,d,ds) := by
  induction cs with
  | nil => rw [List.nil_append,cutWhere?,if_pos mark]
  | cons c cs ih =>
    obtain ⟨here,later⟩ := List.forall_mem_cons.mp before
    rw [List.cons_append,cutWhere?,here,if_neg Bool.false_ne_true,ih later]
    rfl

theorem cutWhereAbsent {p : Char → Bool} {cs : List Char} (none : ∀ c ∈ cs, p c = false) :
    cutWhere? p cs = Option.none := by
  induction cs with
  | nil => rfl
  | cons c cs ih =>
    obtain ⟨here,later⟩ := List.forall_mem_cons.mp none
    rw [cutWhere?,here,if_neg Bool.false_ne_true,ih later]
    rfl

end Text

namespace Descriptor

theorem splitTypesFlatten {cs : List Char} {ts : List (List Char)} (split : splitTypes? cs = some ts) :
    ts.flatten = cs := by
  fun_induction splitTypes? cs generalizing ts with
  | case1 =>
    cases split
    rfl
  | case2 c rest none => contradiction
  | case3 c rest t more head ih =>
    obtain ⟨us,later,rfl⟩ := Option.map_eq_some_iff.mp split
    rw [List.flatten_cons,ih later,headType?_append head]

theorem Signature.parseText {s : String} {sig : Signature} (parsed : Signature.parse? s = some sig) :
    sig.text = s := by
  unfold Signature.parse? at parsed
  split at parsed
  · rename_i cs opened
    obtain ⟨⟨ps,mark,result⟩,cut,parsed⟩ := Option.bind_eq_some_iff.mp parsed
    simp only at parsed
    split at parsed
    · contradiction
    · obtain ⟨params,types,made⟩ := Option.bind_eq_some_iff.mp parsed
      cases made
      have closed := (cutWhereSome cut).2
      rw [beq_iff_eq] at closed
      apply String.toList_injective
      rw [opened,cutWhere?_eq cut,closed,← splitTypesFlatten types]
      simp [Signature.text,String.toList_append,List.flatMap_map]
  · contradiction

end Descriptor

namespace Assembly

theorem splitMemberText {s owner name rest : String} (split : splitMember? s = some (owner,name,rest)) :
    s = owner ++ "->" ++ name ++ rest := by
  unfold splitMember? at split
  obtain ⟨⟨owner',member⟩,cut,split⟩ := Option.bind_eq_some_iff.mp split
  obtain ⟨⟨name',mark,rest'⟩,at_,split⟩ := Option.bind_eq_some_iff.mp split
  simp only at split
  split at split
  · contradiction
  · cases split
    obtain ⟨⟨a,b⟩,parts,same⟩ := Option.map_eq_some_iff.mp cut
    cases same
    apply String.toList_injective
    rw [String.toList_ofList] at at_
    rw [cutSome parts,Descriptor.cutWhere?_eq at_]
    simp [String.toList_append]

end Assembly

namespace Instruction

variable {i : Instruction}

structure Blank (i : Instruction) : Prop where
  word : ' ' ∉ i.mnemonic.toList
  shape : Mnemonic.shape? i.mnemonic = some i.toShape
  rest : i = { toShape := i.toShape, mnemonic := i.mnemonic, offset := i.offset, line := i.line }

theorem tableTypes : ∀ e ∈ Mnemonic.table, givenType { toShape := e.2 } e.2.type = e.2.type := by
  decide +kernel

theorem shapeListed {name : String} {s : Shape} (shape : Mnemonic.shape? name = some s) :
    (lower name,s) ∈ Mnemonic.table := by
  obtain ⟨before,after,table,-⟩ := List.lookup_eq_some_iff.mp shape
  rw [table]
  exact List.mem_append_right _ (List.mem_cons_self ..)

theorem shapeTypes {name : String} {s : Shape} (shape : Mnemonic.shape? name = some s) :
    givenType { toShape := s } s.type = s.type :=
  tableTypes _ (shapeListed shape)

namespace Blank

theorem regs (blank : i.Blank) : i.regs = [] := by rw [blank.rest]

theorem givenType (blank : i.Blank) : i.givenType i.type = i.type := by
  have types := shapeTypes blank.shape
  rw [blank.rest]
  exact types

theorem formed (blank : i.Blank) {rs : List Int}
    (count : i.family.lists = false → rs = [] ∨ rs.length = i.arity) : Formed { i with regs := rs } where
  word := blank.word
  shape := ⟨i.toShape,blank.shape,by
    have types := blank.givenType
    change i.toShape = { i.toShape with type := i.givenType i.type }
    rw [types]⟩
  regs := count
  unread := fun _ _ => by
    rw [blank.rest]
    exact ⟨rfl,rfl,rfl,rfl,rfl⟩
  literal := fun _ => by rw [blank.rest]
  str := fun _ => by rw [blank.rest]
  ref := fun _ => by rw [blank.rest]
  field := fun _ => by rw [blank.rest]
  method := fun _ => by rw [blank.rest]
  target := fun _ => by rw [blank.rest]
  fieldRead := fun f some => by
    rw [blank.rest] at some
    contradiction
  methodRead := fun m some => by
    rw [blank.rest] at some
    contradiction

theorem alone (blank : i.Blank) : i.Formed := by
  have formed : Formed { i with regs := i.regs } := blank.formed fun _ => .inl blank.regs
  exact formed

end Blank

namespace Formed

theorem setLiteral (formed : i.Formed) (kind : i.family.operand = .literal)
    (read : i.regs = [] → i.arity = 0) (v : Int) : Formed { i with literal := v } :=
  { formed with
    literal := fun other => absurd kind other
    unread := fun none some => absurd (read none) some }

theorem setStr (formed : i.Formed) (kind : i.family.operand = .string)
    (read : i.regs = [] → i.arity = 0) (bs : Bytes) : Formed { i with str := bs } :=
  { formed with
    str := fun other => absurd kind other
    unread := fun none some => absurd (read none) some }

theorem setTarget (formed : i.Formed) (kind : i.family.operand = .target)
    (read : i.regs = [] → i.arity = 0) (o : Int) : Formed { i with target := o } :=
  { formed with
    target := fun other => absurd kind other
    unread := fun none some => absurd (read none) some }

theorem setField (formed : i.Formed) (kind : i.family.operand = .field)
    (read : i.regs = [] → i.arity = 0) {o : Option FieldRef} (reads : ∀ f, o = some f → f.Read) :
    Formed { i with field := o } :=
  { formed with
    field := fun other => absurd kind other
    fieldRead := reads
    unread := fun none some => absurd (read none) some }

theorem setRef (formed : i.Formed) (kind : i.family = .constClass ∨ i.family = .instanceOf)
    (read : i.regs = [] → i.arity = 0) (r : String) : Formed { i with ref := r } := by
  have operand : i.family.operand = .ref := by rcases kind with same | same <;> rw [same] <;> rfl
  obtain ⟨s,looked,shape⟩ := formed.shape
  have types : givenType { i with ref := r } s.type = i.givenType s.type := by
    unfold givenType
    rcases kind with same | same <;> simp only [same]
  exact { formed with
    shape := ⟨s,looked,shape.trans (by rw [types])⟩
    ref := fun other => absurd operand other
    unread := fun none some => absurd (read none) some }

theorem setType (formed : i.Formed) (kind : i.family = .checkCast ∨ i.family = .newInstance ∨
    i.family = .newArray ∨ i.family = .filledNewArray) (read : i.regs = [] → i.arity = 0) (r : String) :
    Formed { i with ref := r, type := r } := by
  have operand : i.family.operand = .ref := by
    rcases kind with same | same | same | same <;> rw [same] <;> rfl
  obtain ⟨s,looked,shape⟩ := formed.shape
  have types : givenType { i with ref := r, type := r } s.type = r := by
    unfold givenType
    rcases kind with same | same | same | same <;> simp only [same]
  exact { formed with
    shape := ⟨s,looked,by
      rw [types]
      change { i.toShape with type := r } = _
      rw [shape]⟩
    ref := fun other => absurd operand other
    unread := fun none some => absurd (read none) some }

theorem setMethod (formed : i.Formed) (kind : i.family = .invoke) {m : MethodRef} (reads : m.Read) :
    Formed { i with method := some m, type := m.result } := by
  obtain ⟨s,looked,shape⟩ := formed.shape
  have types : givenType { i with method := some m, type := m.result } s.type = m.result := by
    unfold givenType
    simp only [kind]
    rfl
  exact { formed with
    shape := ⟨s,looked,by
      rw [types]
      change { i.toShape with type := m.result } = _
      rw [shape]⟩
    method := fun other => absurd (congrArg Family.operand kind) other
    methodRead := fun n same => Option.some.inj same ▸ reads }

theorem setData (formed : i.Formed) (name : String) (t : Option SwitchTable) (a : Option ArrayData) :
    Formed { i with payload := name, switch := t, array := a } :=
  { formed with }

end Formed

end Instruction

namespace Assembly

open Instruction

variable {s : Scope} {i : Instruction} {ops : List String}

theorem registerAllGives (line : Nat) (texts : List String) :
    Gives (s.registerAll line texts) fun rs => rs.length = texts.length := by
  induction texts with
  | nil => exact .pure rfl
  | cons text texts ih =>
    refine .after fun r => ih.bind fun rs count => .pure ?_
    rw [List.length_cons,List.length_cons,count]

structure Led (i : Instruction) (r : Instruction × List String) : Prop where
  formed : r.1.Formed
  family : r.1.family = i.family
  read : r.2 ≠ [] → r.1.regs = [] → r.1.arity = 0

theorem leadingGives (blank : i.Blank) (ops : List String) : Gives (s.leading i i.arity ops) (Led i) := by
  unfold Scope.leading
  split
  · exact .after fun _ => .pure ⟨blank.alone,rfl,fun some => absurd rfl some⟩
  · rename_i enough
    refine (registerAllGives i.line _).bind fun rs count => .pure ?_
    rw [List.length_take,Nat.min_eq_left (Nat.le_of_not_lt enough)] at count
    refine ⟨blank.formed fun _ => .inr count,rfl,fun _ none => ?_⟩
    rw [← show rs.length = arity { i with regs := rs } from count,show rs = [] from none]
    rfl

theorem listedGives (blank : i.Blank) (lists : i.family.lists = true) :
    Gives (s.listed i ops) fun j => j.Formed ∧ j.family = i.family := by
  unfold Scope.listed
  cases ops with
  | nil => exact .after fun _ => .pure ⟨blank.alone,rfl⟩
  | cons list ops =>
    dsimp only
    split
    · exact .after fun _ => .pure ⟨blank.alone,rfl⟩
    · exact .after fun rs => .pure ⟨blank.formed fun plain => absurd lists (plain ▸ nofun),rfl⟩

theorem fieldRefText {text owner name rest type : String}
    (split : splitMember? text = some (owner,name,rest)) (stripped : stripStart? ":" rest = some type) :
    rest = ":" ++ type ∧ FieldRef.text ⟨owner,name,type⟩ = text := by
  obtain ⟨cs,cut,made⟩ := Option.map_eq_some_iff.mp stripped
  have whole := stripStartSome cut
  have colon : rest = ":" ++ type := by
    apply String.toList_injective
    rw [whole,← made,String.toList_append,String.toList_ofList,String.toList_ofList]
  refine ⟨colon,?_⟩
  rw [FieldRef.text,String.append_assoc,← colon,← splitMemberText split]

theorem methodRefText {text owner name rest : String} {sig : Descriptor.Signature}
    (split : splitMember? text = some (owner,name,rest))
    (parsed : Descriptor.Signature.parse? rest = some sig) :
    MethodRef.descriptor ⟨owner,name,sig.params,sig.result⟩ = rest ∧
      MethodRef.text ⟨owner,name,sig.params,sig.result⟩ = text := by
  have descriptor : MethodRef.descriptor ⟨owner,name,sig.params,sig.result⟩ = rest :=
    Descriptor.Signature.parseText parsed
  exact ⟨descriptor,by rw [MethodRef.text,descriptor,← splitMemberText split]⟩

theorem fieldRefGives (line : Nat) (text : String) :
    Gives (Scope.fieldRef line text) fun o => ∀ f, o = some f → f.Read := by
  unfold Scope.fieldRef
  split
  · rename_i owner name rest split
    cases stripped : stripStart? ":" rest with
    | none => exact .after fun _ => .pure nofun
    | some type =>
      refine .pure fun f same => ?_
      cases same
      obtain ⟨colon,whole⟩ := fieldRefText split stripped
      unfold FieldRef.Read
      rw [whole,split,colon]
  · exact .after fun _ => .pure nofun

theorem methodRefGives (line : Nat) (text : String) :
    Gives (Scope.methodRef line text) fun o => ∀ m, o = some m → m.Read := by
  unfold Scope.methodRef
  split
  · exact .after fun _ => .pure nofun
  · rename_i owner name rest split
    cases parsed : Descriptor.Signature.parse? rest with
    | none => exact .after fun _ => .pure nofun
    | some sig =>
      refine .pure fun m same => ?_
      cases same
      obtain ⟨descriptor,whole⟩ := methodRefText split parsed
      unfold MethodRef.Read
      rw [whole,descriptor]
      exact ⟨split,parsed⟩

theorem switchTableGives (formed : i.Formed) (kind : PayloadKind) :
    Gives (s.switchTable i kind) Instruction.Formed := by
  unfold Scope.switchTable
  split
  · exact .after fun _ => .pure formed
  · exact .after fun _ => .pure (formed.setData i.payload _ i.array)

theorem operandGives {n : Nat} {next : Instruction × List String → Noting Instruction}
    (blank : i.Blank) (count : i.arity = n)
    (none : ∀ j, j.Formed → Gives (next (j,[])) Instruction.Formed)
    (some : ∀ j o os, j.Formed → j.family = i.family → (j.regs = [] → j.arity = 0) →
      Gives (next (j,o :: os)) Instruction.Formed) :
    Gives (s.leading i n ops >>= next) Instruction.Formed := by
  subst count
  refine (leadingGives blank ops).bind fun ⟨j,rest⟩ led => ?_
  cases rest with
  | nil => exact none j led.formed
  | cons o os => exact some j o os led.formed led.family (led.read nofun)

theorem decodeGives {p : Placed} (blank : p.inst.Blank) : Gives (s.decode p) Instruction.Formed := by
  have alone : ∀ n, p.inst.arity = n → Gives (do return (← s.leading p.inst n p.operands).1)
      Instruction.Formed := fun n count =>
    operandGives blank count (fun _ formed => .pure formed) fun _ _ _ formed _ _ => .pure formed
  have unread : p.inst.arity = 0 → p.inst.regs = [] → p.inst.arity = 0 := fun none _ => none
  unfold Scope.decode
  dsimp only
  split
  case h_1 | h_2 | h_3 => exact .pure blank.alone
  case h_4 family | h_5 family | h_6 family | h_7 family | h_8 family | h_9 family =>
    exact alone 1 (by rw [arity,family])
  case h_10 family | h_11 family | h_12 family | h_13 family => exact alone 2 (by rw [arity,family])
  case h_14 family | h_15 family | h_16 family => exact alone 3 (by rw [arity,family])
  case h_17 family => exact alone _ (by rw [arity,family])
  case h_18 family | h_19 family | h_20 family =>
    refine operandGives blank (by rw [arity,family]) (fun _ formed => .pure formed) ?_
    intro j o os formed same read
    exact .after fun v => .pure (formed.setLiteral (by rw [same,family]; rfl) read v)
  case h_21 family =>
    refine operandGives blank (by rw [arity,family]) (fun _ formed => .pure formed) ?_
    intro j o os formed same read
    dsimp only
    split
    · exact .pure (formed.setStr (by rw [same,family]; rfl) read _)
    · exact .after fun _ => .pure formed
  case h_22 family | h_25 family =>
    refine operandGives blank (by rw [arity,family]) (fun _ formed => .pure formed) ?_
    intro j o os formed same read
    exact .pure (formed.setRef (by simp [same,family]) read o)
  case h_23 family | h_24 family | h_26 family =>
    refine operandGives blank (by rw [arity,family]) (fun _ formed => .pure formed) ?_
    intro j o os formed same read
    exact .pure (formed.setType (by simp [same,family]) read o)
  case h_27 family =>
    refine (listedGives blank (by rw [family]; rfl)).bind fun j read => ?_
    obtain ⟨formed,same⟩ := read
    split
    · exact .pure (formed.setType (by simp [same,family]) (fun _ => by rw [arity,same,family]) _)
    · exact .pure formed
  case h_28 family =>
    refine operandGives blank (by rw [arity,family]) (fun _ formed => .pure formed) ?_
    intro j o os formed same read
    dsimp only
    split
    · exact .pure (formed.setData _ j.switch _)
    · exact .after fun _ => .pure (formed.setData _ j.switch j.array)
  case h_29 family =>
    split
    · exact .after fun _ => .pure blank.alone
    · exact .after fun o => .pure (blank.alone.setTarget (by rw [family]; rfl)
        (unread (by rw [arity,family])) o)
  case h_30 family | h_31 family =>
    refine operandGives blank (by rw [arity,family]) (fun _ formed => .pure formed) ?_
    intro j o os formed same read
    exact .after fun v => .pure (formed.setTarget (by rw [same,family]; rfl) read v)
  case h_32 family | h_33 family =>
    refine operandGives blank (by rw [arity,family]) (fun _ formed => .pure formed) ?_
    intro j o os formed same read
    exact switchTableGives (formed.setData _ j.switch j.array) _
  case h_34 family | h_35 family | h_36 family | h_37 family =>
    refine operandGives blank (by rw [arity,family]) (fun _ formed => .pure formed) ?_
    intro j o os formed same read
    exact (fieldRefGives j.line o).bind fun f reads =>
      .pure (formed.setField (by rw [same,family]; rfl) read reads)
  case h_38 family =>
    refine (listedGives blank (by rw [family]; rfl)).bind fun j read => ?_
    obtain ⟨formed,same⟩ := read
    split
    · exact .pure formed
    · refine (methodRefGives j.line _).bind fun m reads => ?_
      cases m with
      | none => exact .pure formed
      | some m => exact .pure (formed.setMethod (by rw [same,family]) (reads m rfl))

end Assembly

structure Method.Formed (m : Method) : Prop where
  name : '(' ∉ m.name.toList
  descriptor : m.descriptor.toList.head? = some '('
  code : ∀ i ∈ m.code, i.Formed

namespace Assembly

theorem headWord (s : String) : ' ' ∉ (splitHead s).1.toList := by
  intro member
  unfold splitHead at member
  split at member
  · rename_i head mark rest cut
    rw [String.toList_ofList] at member
    exact absurd ((cutWhereSome cut).1 ' ' member) (by decide)
  · rename_i uncut
    exact absurd (cutWhereNone uncut ' ' member) (by decide)

theorem templateBlank {name : String} {i : Instruction} (word : ' ' ∉ name.toList)
    (template : Mnemonic.template? name = some i) : i.Blank := by
  obtain ⟨s,shape,rfl⟩ := Option.map_eq_some_iff.mp template
  exact ⟨word,shape,rfl⟩

def Kept.formed : Kept where
  line _ := True
  owner _ := True
  method := Method.Formed
  placed p := p.inst.Blank
  caught _ := True
  room _ _ := True

theorem closedFormed : Kept.formed.Closed where
  owned _ _ := trivial
  begun l m _ _ begins := by
    obtain ⟨paren,more,cut,descriptor⟩ := begins.head
    obtain ⟨before,mark⟩ := cutWhereSome cut
    refine ⟨fun member => absurd (before _ member) (by decide),?_,?_⟩
    · rw [descriptor,String.toList_ofList,beq_iff_eq.mp mark]
      rfl
    · rw [begins.code]
      exact fun _ member => absurd member List.not_mem_nil
  put l i offset _ _ _ template := by
    have blank := templateBlank (headWord l.text) template
    refine ⟨⟨blank.word,blank.shape,?_⟩,trivial⟩
    dsimp only
    rw [blank.rest]
  rest _ _ _ := trivial
  thrown _ _ _ _ := trivial
  finished _ d kept := by
    unfold Draft.finish
    extract_lets registers scope
    refine (decodeAllGives (fun p => decodeGives) fun p member =>
      kept.placed p (List.mem_reverse.mp member)).bind fun is all => ?_
    exact .after fun ds => .pure ⟨kept.method.name,kept.method.descriptor,all⟩

theorem readFormed (source : String) :
    ∀ c ∈ (readClasses source).1, ∀ m ∈ c.methods, m.Formed :=
  closedFormed.read source trivial fun _ _ => trivial

end Assembly
end RegCode
