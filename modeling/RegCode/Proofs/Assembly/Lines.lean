import RegCode.Proofs.Assembly.Scanning
import RegCode.Proofs.Text.OneLine

/-! An assembly text is read line by line, so that no name in the methods that come of it has a line break. -/
namespace RegCode

open Text

structure FieldRef.OneLine (f : FieldRef) : Prop where
  owner : Text.OneLine f.owner
  name : Text.OneLine f.name
  type : Text.OneLine f.type

structure MethodRef.OneLine (m : MethodRef) : Prop where
  owner : Text.OneLine m.owner
  name : Text.OneLine m.name
  params : ∀ p ∈ m.params, Text.OneLine p
  result : Text.OneLine m.result

structure Instruction.OneLine (i : Instruction) : Prop where
  mnemonic : Text.OneLine i.mnemonic
  type : Text.OneLine i.type
  toType : Text.OneLine i.toType
  bias : Text.OneLine i.bias
  ref : Text.OneLine i.ref
  field : ∀ f ∈ i.field, f.OneLine
  method : ∀ m ∈ i.method, m.OneLine

structure Method.OneLine (m : Method) : Prop where
  owner : Text.OneLine m.owner
  name : Text.OneLine m.name
  descriptor : Text.OneLine m.descriptor
  code : ∀ i ∈ m.code, i.OneLine
  types : ∀ t ∈ m.tries, ∀ h ∈ t.handlers, Text.OneLine h.type

namespace Descriptor

variable {sig : Signature}

theorem Signature.textLine :
    OneLine sig.text ↔ (∀ p ∈ sig.params, OneLine p) ∧ OneLine sig.result := by
  simp +decide [Signature.text,OneLine]

theorem Signature.parseLine {s : String} (line : OneLine s) (parsed : Signature.parse? s = some sig) :
    (∀ p ∈ sig.params, OneLine p) ∧ OneLine sig.result :=
  Signature.textLine.mp (Signature.parseText parsed ▸ line)

end Descriptor

theorem FieldRef.textLine {f : FieldRef} : Text.OneLine f.text ↔ f.OneLine := by
  simp +decide only [FieldRef.text,oneLineAppend,and_true]
  exact ⟨fun ⟨⟨owner,name⟩,type⟩ => ⟨owner,name,type⟩,fun line => ⟨⟨line.owner,line.name⟩,line.type⟩⟩

theorem MethodRef.textLine {m : MethodRef} : Text.OneLine m.text ↔ m.OneLine := by
  simp +decide only [MethodRef.text,MethodRef.descriptor,oneLineAppend,Descriptor.Signature.textLine,and_true]
  exact ⟨fun ⟨⟨owner,name⟩,params,result⟩ => ⟨owner,name,params,result⟩,
    fun line => ⟨⟨line.owner,line.name⟩,line.params,line.result⟩⟩

theorem Instruction.textLine {i : Instruction} (line : i.OneLine) : Text.OneLine i.text := by
  have listed : ∀ s ∈ i.regs.map registerText, Text.OneLine s := by
    simp +decide [registerText]
  have operands : ∀ s ∈ i.operandTexts, Text.OneLine s := by
    unfold operandTexts
    refine List.forall_mem_append.mpr ⟨?_,?_⟩
    · have joined := oneLineIntercalate (t := ", ") (by decide) listed
      split
      case h_3 => exact listed
      all_goals
        refine List.forall_mem_singleton.mpr ?_
        simp +decide [joined]
    · split
      case h_4 =>
        exact List.forall_mem_singleton.mpr (Quoted.ofBytesLine _)
      case h_11 | h_12 | h_13 | h_14 =>
        simpa using fun f some => FieldRef.textLine.mpr (line.field f some)
      case h_15 =>
        simpa using fun m some => MethodRef.textLine.mpr (line.method m some)
      all_goals simp +decide [line.ref]
  unfold Instruction.text
  split
  · exact line.mnemonic
  · refine oneLineAppend.mpr ⟨oneLineAppend.mpr ⟨line.mnemonic,by decide⟩,?_⟩
    exact oneLineIntercalate (by decide) operands

namespace Method

variable {m : Method}

theorem OneLine.paramTypes (line : m.OneLine) : ∀ p ∈ m.paramTypes, Text.OneLine p := by
  unfold Method.paramTypes
  cases parsed : m.signature? with
  | none => exact fun _ member => absurd member List.not_mem_nil
  | some sig => exact (Descriptor.Signature.parseLine line.descriptor parsed).1

theorem OneLine.returnType (line : m.OneLine) : Text.OneLine m.returnType := by
  unfold Method.returnType
  cases parsed : m.signature? with
  | none => decide
  | some sig => exact (Descriptor.Signature.parseLine line.descriptor parsed).2

end Method

namespace TryTable

variable {ds : List CatchDirective} {P : String → Prop}

theorem firstOfTypeSubset (hs : List Handler) : firstOfType hs ⊆ hs := by
  induction hs with
  | nil => exact List.Subset.refl _
  | cons h hs ih =>
    exact List.cons_subset_cons _ (List.Subset.trans (List.filter_subset_self _) ih)

theorem handlersTypes (types : ∀ d ∈ ds, P d.type) (lo hi : Int) : ∀ h ∈ handlersOver ds lo hi, P h.type := by
  intro h member
  obtain ⟨d,chosen,rfl⟩ := List.mem_map.mp (firstOfTypeSubset _ member)
  exact types d (List.mem_of_mem_filter chosen)

theorem segmentsTypes (types : ∀ d ∈ ds, P d.type) (bs : List Int) :
    ∀ t ∈ segments ds bs, ∀ h ∈ t.handlers, P h.type := by
  fun_induction segments ds bs with
  | case1 lo hi rest none ih => exact ih
  | case2 lo hi rest some ih => exact List.forall_mem_cons.mpr ⟨handlersTypes types lo hi,ih⟩
  | case3 => exact nofun

theorem joinTypes {ts : List TryRange} (types : ∀ t ∈ ts, ∀ h ∈ t.handlers, P h.type) :
    ∀ t ∈ joinTouching ts, ∀ h ∈ t.handlers, P h.type := by
  induction ts with
  | nil => exact types
  | cons t ts ih =>
    obtain ⟨first,rest⟩ := List.forall_mem_cons.mp types
    have joined := ih rest
    unfold joinTouching
    split
    · exact List.forall_mem_singleton.mpr first
    · rename_i u us same
      rw [same] at joined
      obtain ⟨second,later⟩ := List.forall_mem_cons.mp joined
      split
      · exact List.forall_mem_cons.mpr ⟨first,later⟩
      · exact List.forall_mem_cons.mpr ⟨first,List.forall_mem_cons.mpr ⟨second,later⟩⟩

theorem normalizeTypes (types : ∀ d ∈ ds, P d.type) : ∀ t ∈ normalize ds, ∀ h ∈ t.handlers, P h.type :=
  joinTypes (segmentsTypes types _)

end TryTable

namespace Assembly

theorem oneLineTrim {cs : List Char} (line : '\n' ∉ cs) : OneLine (String.ofList (trimChars cs)) :=
  oneLineOfList.mpr fun member => line (trimSubset cs member)

theorem linesOneLine (source : String) : ∀ l ∈ linesOf source, OneLine l.text := by
  have numbered : ∀ {ss : List String} {n : Nat}, (∀ s ∈ ss, OneLine s) → ∀ l ∈ numberLines n ss, OneLine l.text := by
    intro ss n lines
    induction ss generalizing n with
    | nil => exact nofun
    | cons s ss ih =>
      obtain ⟨first,rest⟩ := List.forall_mem_cons.mp lines
      unfold numberLines
      dsimp only
      split
      · exact ih rest
      · exact List.forall_mem_cons.mpr
          ⟨oneLineTrim fun member => first (stripCommentSubset false _ member),ih rest⟩
  exact numbered (oneLinePieces source)

variable {s : String}

theorem splitHeadLine (line : OneLine s) : OneLine (splitHead s).1 ∧ OneLine (splitHead s).2 := by
  unfold splitHead
  split
  · rename_i head mark rest cut
    have whole := Descriptor.cutWhere?_eq cut
    unfold OneLine at line
    rw [whole] at line
    simp only [List.mem_append,List.mem_cons,not_or] at line
    exact ⟨oneLineOfList.mpr line.1,oneLineTrim line.2.2⟩
  · exact ⟨line,show OneLine "" by decide⟩

theorem operandPiecesSubset (depth : Int) (quoted : Bool) (acc cs : List Char) :
    ∀ p ∈ operandPieces depth quoted acc cs, ∀ c ∈ p, c ∈ acc ∨ c ∈ cs := by
  fun_induction operandPieces depth quoted acc cs <;> grind

theorem operandsLine (line : OneLine s) : ∀ o ∈ operands s, OneLine o := by
  have parts : ∀ o ∈ (operandPieces 0 false [] s.toList).map fun p => String.ofList (trimChars p), OneLine o := by
    refine List.forall_mem_map.mpr fun p member => oneLineTrim fun break_ => ?_
    rcases operandPiecesSubset 0 false [] s.toList p member _ break_ with none | here
    · exact absurd none List.not_mem_nil
    · exact line here
  unfold operands
  dsimp only
  split
  · rename_i rest reversed
    intro o member
    refine parts o (List.mem_reverse.mp ?_)
    rw [reversed]
    exact List.mem_cons_of_mem _ (List.mem_reverse.mp member)
  · exact parts

theorem splitMemberLine {owner name rest : String} (line : OneLine s)
    (split : splitMember? s = some (owner,name,rest)) : OneLine owner ∧ OneLine name ∧ OneLine rest := by
  rw [splitMemberText split] at line
  simpa [and_assoc,show OneLine "->" by decide] using line

theorem splitFlagsLine (s : String) : OneLine (splitFlags s).2 := by
  unfold splitFlags
  split
  · exact show OneLine "" by decide
  · rename_i name flags reversed
    refine oneLineWords s name (List.mem_reverse.mp ?_)
    rw [reversed]
    exact List.mem_cons_self ..

theorem tableLines : ∀ e ∈ Mnemonic.table, OneLine e.2.type ∧ OneLine e.2.toType ∧ OneLine e.2.bias := by
  decide +kernel

theorem templateLine {name : String} {i : Instruction} (line : OneLine name)
    (template : Mnemonic.template? name = some i) : i.OneLine := by
  obtain ⟨s,shape,rfl⟩ := Option.map_eq_some_iff.mp template
  obtain ⟨type,toType,bias⟩ := tableLines _ (Instruction.shapeListed shape)
  exact ⟨line,type,toType,bias,show OneLine "" by decide,nofun,nofun⟩

variable {scope : Scope} {i : Instruction} {ops : List String}

theorem operandLine {n : Nat} {next : Instruction × List String → Noting Instruction} (line : i.OneLine)
    (operands : ∀ o ∈ ops, OneLine o) (none : ∀ j, j.OneLine → Gives (next (j,[])) Instruction.OneLine)
    (some : ∀ j o os, j.OneLine → OneLine o → Gives (next (j,o :: os)) Instruction.OneLine) :
    Gives (scope.leading i n ops >>= next) Instruction.OneLine := by
  have led : Gives (scope.leading i n ops) fun r => r.1.OneLine ∧ ∀ o ∈ r.2, OneLine o := by
    unfold Scope.leading
    split
    · exact .after fun _ => .pure ⟨line,fun _ member => absurd member List.not_mem_nil⟩
    · exact .after fun rs => .pure ⟨{ line with },fun o member => operands o (List.mem_of_mem_drop member)⟩
  refine led.bind fun ⟨j,rest⟩ ⟨line,left⟩ => ?_
  cases rest with
  | nil => exact none j line
  | cons o os => exact some j o os line (left o (List.mem_cons_self ..))

theorem listedLine (line : i.OneLine) : Gives (scope.listed i ops) Instruction.OneLine := by
  unfold Scope.listed
  split
  · exact .after fun _ => .pure line
  · split
    · exact .after fun _ => .pure line
    · exact .after fun rs => .pure { line with }

theorem fieldRefLine (n : Nat) (line : OneLine s) : Gives (Scope.fieldRef n s) fun o => ∀ f ∈ o, f.OneLine := by
  unfold Scope.fieldRef
  split
  · rename_i owner name rest split
    obtain ⟨owner,name,rest⟩ := splitMemberLine line split
    split
    · rename_i type stripped
      refine .pure fun f same => ?_
      cases same
      exact ⟨owner,name,oneLineStrip rest stripped⟩
    · exact .after fun _ => .pure nofun
  · exact .after fun _ => .pure nofun

theorem methodRefLine (n : Nat) (line : OneLine s) : Gives (Scope.methodRef n s) fun o => ∀ m ∈ o, m.OneLine := by
  unfold Scope.methodRef
  split
  · exact .after fun _ => .pure nofun
  · rename_i owner name rest split
    obtain ⟨owner,name,rest⟩ := splitMemberLine line split
    split
    · exact .after fun _ => .pure nofun
    · rename_i sig parsed
      obtain ⟨params,result⟩ := Descriptor.Signature.parseLine rest parsed
      refine .pure fun m same => ?_
      cases same
      exact ⟨owner,name,params,result⟩

theorem switchTableLine (line : i.OneLine) (kind : PayloadKind) :
    Gives (scope.switchTable i kind) Instruction.OneLine := by
  unfold Scope.switchTable
  split
  · exact .after fun _ => .pure line
  · exact .after fun _ => .pure { line with }

theorem decodeLine {p : Placed} (line : p.inst.OneLine) (operands : ∀ o ∈ p.operands, OneLine o) :
    Gives (scope.decode p) Instruction.OneLine := by
  have alone : ∀ n, Gives (do return (← scope.leading p.inst n p.operands).1) Instruction.OneLine := fun n =>
    operandLine line operands (fun _ line => .pure line) fun _ _ _ line _ => .pure line
  unfold Scope.decode
  dsimp only
  split
  case h_1 | h_2 | h_3 => exact .pure line
  case h_4 | h_5 | h_6 | h_7 | h_8 | h_9 | h_10 | h_11 | h_12 | h_13 | h_14 | h_15 | h_16 | h_17 =>
    exact alone _
  case h_27 =>
    refine (listedLine line).bind fun j line => ?_
    split
    · rename_i ref rest left
      have here := operands ref (List.mem_of_mem_drop (left ▸ List.mem_cons_self ..))
      exact .pure { line with type := here, ref := here }
    · exact .pure line
  case h_29 =>
    split
    · exact .after fun _ => .pure line
    · exact .after fun o => .pure { line with }
  case h_38 =>
    refine (listedLine line).bind fun j line => ?_
    split
    · exact .pure line
    · rename_i name rest left
      have here := operands name (List.mem_of_mem_drop (left ▸ List.mem_cons_self ..))
      refine (methodRefLine j.line here).bind fun m lines => ?_
      cases m with
      | none => exact .pure line
      | some m => exact .pure { line with
          type := (lines m rfl).result
          method := lines }
  all_goals
    refine operandLine line operands (fun _ line => .pure line) fun j o os line here => ?_
  case h_18 | h_19 | h_20 | h_30 | h_31 => exact .after fun v => .pure { line with }
  case h_21 =>
    dsimp only
    split
    · exact .pure { line with }
    · exact .after fun _ => .pure line
  case h_22 | h_25 => exact .pure { line with ref := here }
  case h_23 | h_24 | h_26 => exact .pure { line with type := here, ref := here }
  case h_28 =>
    dsimp only
    split
    · exact .pure { line with }
    · exact .after fun _ => .pure { line with }
  case h_32 | h_33 =>
    refine switchTableLine ?_ _
    exact { line with }
  case h_34 | h_35 | h_36 | h_37 =>
    exact (fieldRefLine j.line here).bind fun f lines => .pure { line with field := lines }

theorem catchesLine {cs : List CatchLine} (lines : ∀ c ∈ cs, OneLine c.type) :
    Gives (scope.catches cs) fun ds => ∀ d ∈ ds, OneLine d.type := by
  induction cs with
  | nil => exact .pure fun _ member => absurd member List.not_mem_nil
  | cons c cs ih =>
    obtain ⟨first,rest⟩ := List.forall_mem_cons.mp lines
    unfold Scope.catches
    split
    · exact (ih rest).bind fun ds later => .pure (List.forall_mem_cons.mpr ⟨first,later⟩)
    · exact .after fun _ => ih rest

def Kept.oneLine : Kept where
  line l := OneLine l.text
  owner := OneLine
  method := Method.OneLine
  placed p := p.inst.OneLine ∧ ∀ o ∈ p.operands, OneLine o
  caught c := OneLine c.type
  room _ _ := True

theorem closedOneLine : Kept.oneLine.Closed where
  owned l _ := splitFlagsLine _
  begun l m _ owner begins := by
    obtain ⟨paren,more,cut,descriptor⟩ := begins.head
    have signature := splitFlagsLine (splitHead l.text).2
    unfold OneLine at signature
    rw [Descriptor.cutWhere?_eq cut,List.mem_append,not_or] at signature
    refine ⟨owner,signature.1,descriptor ▸ oneLineOfList.mpr signature.2,?_,?_⟩
    · rw [begins.code]
      exact fun _ member => absurd member List.not_mem_nil
    · rw [begins.tries]
      exact fun _ member => absurd member List.not_mem_nil
  put l i offset _ line _ template := by
    obtain ⟨mnemonic,rest⟩ := splitHeadLine line
    refine ⟨⟨{ templateLine mnemonic template with },?_⟩,trivial⟩
    -- without the projection the two lists of operands are not unfolded
    dsimp only
    exact operandsLine rest
  thrown l c line from_ := by
    change OneLine c.type
    rcases from_ with none | type
    · exact none ▸ show OneLine "" by decide
    · exact type ▸ (splitHeadLine (splitHeadLine line).2).1
  rest _ _ _ := trivial
  finished _ d kept := by
    unfold Draft.finish
    extract_lets registers scope
    refine (decodeAllGives (fun p placed => decodeLine placed.1 placed.2) fun p member =>
      kept.placed p (List.mem_reverse.mp member)).bind fun is code => ?_
    refine (catchesLine fun c member => kept.catches c (List.mem_reverse.mp member)).bind fun ds types => ?_
    exact .pure { kept.method with code, types := TryTable.normalizeTypes types }

theorem readOneLine (source : String) :
    ∀ c ∈ (readClasses source).1, ∀ m ∈ c.methods, m.OneLine :=
  closedOneLine.read source trivial (linesOneLine source)

end Assembly
end RegCode
