import Mathlib
import RegCode.Proofs.Assembly.Printing

/-! Printed instructions are read again. The text of an instruction that was read without fault is a line
that is read without fault as the same instruction, in whatever method it stands. -/
namespace RegCode

open Text

namespace Assembly

open Instruction

/-! ### What was read can be said -/

structure Extends (j : Instruction) (rest : List String) (i : Instruction) : Prop where
  regs : i.regs = j.regs
  family : i.family = j.family
  two : i.twoAddress = j.twoAddress
  literal : i.literal = j.literal ∨ Fits i.literal
  ref : i.ref = j.ref ∨ i.ref ∈ rest
  field : i.field = j.field ∨ ∃ f, i.field = some f ∧ f.text ∈ rest
  method : i.method = j.method ∨ ∃ m, i.method = some m ∧ m.text ∈ rest
  data : i.switch = j.switch ∧ i.array = j.array ∧ i.payload = j.payload

variable {s : Scope} {i j : Instruction}

theorem Extends.refl (j : Instruction) (rest : List String) : Extends j rest j :=
  ⟨rfl,rfl,rfl,.inl rfl,.inl rfl,.inl rfl,.inl rfl,rfl,rfl,rfl⟩

theorem withOperandExtends {kind : Operand} {typed : Bool} {o : String} {os : List String}
    (quiet : Quiet (withOperand kind typed j o) i) : Extends j (o :: os) i := by
  unfold withOperand at quiet
  split at quiet
  · cases quiet.ofPure
    exact .refl ..
  · cases quiet.ofPure
    exact .refl ..
  · obtain ⟨v,read,quiet⟩ := quiet.parts fun _ => .pure _
    cases quiet.ofPure
    exact { Extends.refl j (o :: os) with literal := .inr (noteLiteralQuiet read) }
  · split at quiet
    · cases quiet.ofPure
      exact { Extends.refl j (o :: os) with }
    · exact quiet.noted.elim
  · cases quiet.ofPure
    exact { Extends.refl j (o :: os) with ref := .inr (List.mem_cons_self ..) }
  · obtain ⟨f,read,quiet⟩ := quiet.parts fun _ => .pure _
    cases quiet.ofPure
    obtain ⟨f,rfl,text⟩ := fieldRefQuiet read
    exact { Extends.refl j (o :: os) with field := .inr ⟨f,rfl,text ▸ List.mem_cons_self ..⟩ }
  · obtain ⟨m,read,quiet⟩ := quiet.parts fun m => by cases m <;> exact .pure _
    obtain ⟨m,rfl,text⟩ := methodRefQuiet read
    cases quiet.ofPure
    exact { Extends.refl j (o :: os) with method := .inr ⟨m,rfl,text ▸ List.mem_cons_self ..⟩ }

theorem withOperandGrows (kind : Operand) (typed : Bool) (j : Instruction) (o : String) :
    Grows (withOperand kind typed j o) := by
  have noted : ∀ line text, Grows (noteLiteral line text) := by
    intro line text
    unfold noteLiteral
    split
    · exact .pure _
    · exact .note ..
  have field : ∀ line text, Grows (Scope.fieldRef line text) := by
    intro line text
    unfold Scope.fieldRef
    repeat' split
    all_goals first
      | exact .pure _
      | exact .note ..
  have method : ∀ line text, Grows (Scope.methodRef line text) := by
    intro line text
    unfold Scope.methodRef
    repeat' split
    all_goals first
      | exact .pure _
      | exact .note ..
  unfold withOperand
  split
  · exact .pure _
  · exact .pure _
  · exact (noted ..).bind fun _ => .pure _
  · split
    · exact .pure _
    · exact .note ..
  · exact .pure _
  · exact (field ..).bind fun _ => .pure _
  · exact (method ..).bind fun m => by cases m <;> exact .pure _

theorem withRestGrows (kind : Operand) (typed : Bool) (r : Instruction × List String) :
    Grows (withRest kind typed r) := by
  unfold withRest
  split
  · exact .pure _
  · exact withOperandGrows ..

theorem withRestExtends {kind : Operand} {typed : Bool} {rest : List String}
    (quiet : Quiet (withRest kind typed (j,rest)) i) : Extends j rest i := by
  cases rest with
  | nil =>
    cases quiet.ofPure
    exact .refl ..
  | cons o os => exact withOperandExtends quiet

theorem headQuiet {ops : List String} {r : Instruction × List String} (quiet : Quiet (s.head i ops) r) :
    ∃ rs, r.1 = { i with regs := rs } ∧ (∀ r ∈ rs, Fits r) ∧
      (i.family.lists = false → rs.length = i.arity) ∧ r.2 ⊆ ops := by
  unfold Scope.head at quiet
  split at quiet
  · rename_i lists
    obtain ⟨j,read,quiet⟩ := quiet.parts fun _ => .pure _
    obtain ⟨rs,rfl,fits⟩ := listedQuiet read
    cases quiet.ofPure
    exact ⟨rs,rfl,fits,fun plain => absurd (plain ▸ lists) nofun,List.drop_subset ..⟩
  · obtain ⟨rs,rfl,fits,count⟩ := leadingQuiet quiet
    exact ⟨rs,rfl,fits,fun _ => count,List.drop_subset ..⟩

theorem targetLabelled {f : Family} (own : f.labelled = false) : f.operand ≠ .target := by
  cases f <;> first
    | contradiction
    | exact fun same => nomatch same

theorem textsQuiet {ops rest : List String}
    (own : i.family.labelled = false) (more : Extends j rest i)
    (empty : j.ref = "" ∧ j.field = none ∧ j.method = none) (within : rest ⊆ ops)
    (pieces : ∀ o ∈ ops, Piece o.toList ∧ '\n' ∉ o.toList) :
    ∀ o ∈ i.operandText, Piece o.toList ∧ '\n' ∉ o.toList := by
  obtain ⟨ref,field,method⟩ := empty
  intro o member
  unfold operandText at member
  split at member
  · contradiction
  · rw [List.mem_singleton.mp member]
    exact literalPiece _
  · rw [List.mem_singleton.mp member]
    exact Quoted.ofBytesPiece _
  · rw [List.mem_singleton.mp member]
    rcases more.ref with same | given
    · rw [same,ref]
      exact ⟨⟨.nil,rfl⟩,List.not_mem_nil⟩
    · exact pieces _ (within given)
  · rcases more.field with same | ⟨f,some,given⟩
    · rw [same,field] at member
      contradiction
    · rw [some] at member
      rw [List.mem_singleton.mp member]
      exact pieces _ (within given)
  · rcases more.method with same | ⟨m,some,given⟩
    · rw [same,method] at member
      contradiction
    · rw [some] at member
      rw [List.mem_singleton.mp member]
      exact pieces _ (within given)
  · rename_i target
    exact absurd target (targetLabelled own)

theorem quietSayable {p : Placed} (blank : p.inst.Blank) (own : p.inst.family.labelled = false)
    (pieces : ∀ o ∈ p.operands, Piece o.toList ∧ '\n' ∉ o.toList) (quiet : Quiet (s.decode p) i) :
    Sayable i := by
  have formed : i.Formed := by
    have := decodeGives blank #[] (s := s)
    rw [show (s.decode p).run #[] = (i,#[]) from quiet] at this
    exact this
  rw [decodeByKind blank own] at quiet
  obtain ⟨⟨j,rest⟩,first,later⟩ := quiet.parts fun _ => withRestGrows ..
  obtain ⟨rs,rfl,fits,count,within⟩ := headQuiet first
  have more := withRestExtends later
  have empty : p.inst.ref = "" ∧ p.inst.field = none ∧ p.inst.method = none ∧ p.inst.literal = 0 ∧
      p.inst.switch = none ∧ p.inst.array = none ∧ p.inst.payload = "" := by
    rw [blank.rest]
    exact ⟨rfl,rfl,rfl,rfl,rfl,rfl,rfl⟩
  obtain ⟨ref,field,method,literal,data⟩ := empty
  have arities : i.arity = p.inst.arity := by
    unfold arity
    rw [more.family,more.two]
  refine ⟨formed,?_,?_,?_,?_,?_⟩
  · intro plain
    rw [more.family] at plain
    rw [more.regs,arities]
    exact count plain
  · rw [more.regs]
    exact fits
  · rcases more.literal with same | fit
    · rw [same,show ({ p.inst with regs := rs } : Instruction).literal = 0 from literal]
      exact ⟨by decide,by decide⟩
    · exact fit
  · exact textsQuiet (show i.family.labelled = false from more.family ▸ own) more ⟨ref,field,method⟩ within pieces
  · obtain ⟨switch,array,payload⟩ := more.data
    exact ⟨switch.trans data.1,array.trans data.2.1,payload.trans data.2.2⟩

/-! ### The operands that are printed -/

variable {t : Instruction}

theorem headSaid (s : Scope) (sayable : Sayable i) (families : i.family = t.family)
    (arities : i.arity = t.arity) (more : List String) :
    s.head t (fronts i ++ more) = pure ({ t with regs := i.regs },more) := by
  have read := registerAllReads s t.line sayable.fits
  unfold Scope.head fronts
  rw [families]
  split
  · rw [List.singleton_append,Scope.listed]
    rw [readRegisterListText]
    dsimp only
    rw [read]
    rfl
  · rename_i plain
    have count := sayable.count (families ▸ Bool.eq_false_iff.mpr plain)
    have length : (i.regs.map registerText).length = t.arity := by rw [List.length_map,count,arities]
    rw [Scope.leading,if_neg (by rw [List.length_append,length]; omega),
      List.take_left' length,List.drop_left' length,read]
    rfl

theorem fieldRefSaid (line : Nat) {f : FieldRef} (reads : f.Read) :
    Scope.fieldRef line f.text = pure (some f) := by
  have colon : stripStart? ":" (":" ++ f.type) = some f.type := by
    simp [stripStart?,stripStartChars?,String.toList_append]
  unfold Scope.fieldRef
  rw [show splitMember? f.text = _ from reads]
  dsimp only
  rw [colon]

theorem methodRefSaid (line : Nat) {m : MethodRef} (reads : m.Read) :
    Scope.methodRef line m.text = pure (some m) := by
  unfold Scope.methodRef
  rw [reads.1]
  dsimp only
  rw [reads.2]

theorem typedRef {f : Family} (typed : f.typed = true) : f.operand = .ref := by
  cases f <;> first
    | rfl
    | contradiction

theorem givenTypeOf (i : Instruction) (type : String) :
    i.givenType type = if i.family.typed then i.ref
      else if i.family.operand = .method then (i.method.map MethodRef.result).getD "" else type := by
  unfold givenType
  cases i.family <;> rfl

theorem replaced (sayable : Sayable i) (blank : t.Blank) (mnemonics : t.mnemonic = i.mnemonic) :
    { i with offset := t.offset, line := t.line } =
      { t with
        type := i.givenType t.type
        regs := i.regs
        literal := i.literal
        str := i.str
        ref := i.ref
        field := i.field
        method := i.method
        target := i.target } := by
  obtain ⟨shape,looked,made⟩ := sayable.formed.shape
  obtain ⟨switch,array,payload⟩ := sayable.data
  have looked' := blank.shape
  rw [mnemonics,looked] at looked'
  cases looked'
  rw [blank.rest,mnemonics]
  dsimp only
  generalize i.givenType t.type = type at made ⊢
  cases i
  dsimp only at made switch array payload ⊢
  subst made switch array payload
  rfl

theorem withRestLeft {kind : Operand} {typed : Bool} {o : String} (some : o ≠ "") :
    withRest kind typed (j,[o].filter (· ≠ "")) = withOperand kind typed j o := by
  rw [List.filter_cons,if_pos (by simpa using some),List.filter_nil]
  rfl

theorem literalSome (x : Int) : literalText x ≠ "" := by
  rw [literalTextChars,literalChars]
  intro none
  have chars := congrArg String.toList none
  rw [String.toList_ofList] at chars
  exact absurd (List.append_eq_nil_iff.mp chars).2 (List.cons_ne_nil _ _)

theorem stringSome (bs : Bytes) : Quoted.ofBytes bs ≠ "" := by
  intro none
  have read := Quoted.decodeOfBytes bs
  rw [none] at read
  contradiction

theorem fieldSome {f : FieldRef} (reads : f.Read) : f.text ≠ "" := by
  intro none
  unfold FieldRef.Read at reads
  rw [none] at reads
  contradiction

theorem methodSome {m : MethodRef} (reads : m.Read) : m.text ≠ "" := by
  intro none
  have split := reads.1
  rw [none] at split
  contradiction

theorem withRestSaid (sayable : Sayable i) (own : i.family.labelled = false) (blank : t.Blank)
    (families : i.family = t.family) :
    withRest i.family.operand i.family.typed
        ({ t with regs := i.regs },i.operandText.filter (· ≠ "")) =
      pure { t with
        type := i.givenType t.type
        regs := i.regs
        literal := i.literal
        str := i.str
        ref := i.ref
        field := i.field
        method := i.method
        target := i.target } := by
  have formed := sayable.formed
  have types := blank.givenType
  rw [givenTypeOf,← families] at types
  rw [givenTypeOf]
  obtain ⟨shape,mnemonic,offset,line,rfl⟩ : ∃ shape mnemonic offset line, t =
      { toShape := shape, mnemonic := mnemonic, offset := offset, line := line } := ⟨_,_,_,_,blank.rest⟩
  dsimp only at types families ⊢
  have plain : i.family.operand ≠ .ref → i.family.typed = false :=
    fun other => Bool.eq_false_iff.mpr fun typed => other (typedRef typed)
  have literal := formed.literal
  have str := formed.str
  have ref := formed.ref
  have field := formed.field
  have method := formed.method
  rw [formed.target (targetLabelled own)]
  unfold operandText
  -- What the family does not ask for is as it was in the blank instruction.
  cases kind : i.family.operand with
  | none =>
    rw [literal (kind ▸ nofun),str (kind ▸ nofun),ref (kind ▸ nofun),field (kind ▸ nofun),
      method (kind ▸ nofun),plain (kind ▸ nofun)]
    rfl
  | literal =>
    have read : ∀ line, noteLiteral line (literalText i.literal) = pure i.literal := by
      intro line
      unfold noteLiteral
      rw [readLiteralText sayable.literal]
    rw [str (kind ▸ nofun),ref (kind ▸ nofun),field (kind ▸ nofun),method (kind ▸ nofun),
      plain (kind ▸ nofun)]
    dsimp only
    rw [withRestLeft (literalSome _),withOperand]
    dsimp only
    rw [read]
    rfl
  | string =>
    have read : readString (Quoted.ofBytes i.str) = .ok i.str := by rw [readString,Quoted.decodeOfBytes]
    rw [literal (kind ▸ nofun),ref (kind ▸ nofun),field (kind ▸ nofun),method (kind ▸ nofun),
      plain (kind ▸ nofun)]
    dsimp only
    rw [withRestLeft (stringSome _),withOperand]
    dsimp only
    rw [read]
    rfl
  | ref =>
    rw [literal (kind ▸ nofun),str (kind ▸ nofun),field (kind ▸ nofun),method (kind ▸ nofun)]
    rw [kind] at types
    dsimp only
    by_cases none : i.ref = ""
    · rw [none,show (if i.family.typed then "" else _) = shape.type from types]
      rfl
    · rw [withRestLeft none]
      cases i.family.typed <;> rfl
  | field =>
    rw [literal (kind ▸ nofun),str (kind ▸ nofun),ref (kind ▸ nofun),method (kind ▸ nofun),
      plain (kind ▸ nofun)]
    dsimp only
    cases given : i.field with
    | none => rfl
    | some f =>
      have reads := formed.fieldRead f given
      refine (withRestLeft (fieldSome reads)).trans ?_
      rw [withOperand]
      dsimp only
      rw [fieldRefSaid _ reads]
      rfl
  | method =>
    rw [literal (kind ▸ nofun),str (kind ▸ nofun),ref (kind ▸ nofun),field (kind ▸ nofun),
      plain (kind ▸ nofun)]
    rw [kind,plain (kind ▸ nofun)] at types
    dsimp only
    cases given : i.method with
    | none =>
      have empty : "" = shape.type := types
      cases shape
      dsimp only at empty
      subst empty
      rfl
    | some m =>
      have reads := formed.methodRead m given
      refine (withRestLeft (methodSome reads)).trans ?_
      rw [withOperand]
      dsimp only
      rw [methodRefSaid _ reads]
      rfl
  | target => exact absurd kind (targetLabelled own)

/-! ### Lines of a method body -/

/-- In the body of a method that is drafted as `d`, a raw line is taken for an instruction; in the scope
`s` it is decoded to `i`, and nothing is noted. -/
structure Assembles (d : Draft) (s : Scope) (number : Nat) (raw : String) (i : Instruction) : Prop where
  one : '\n' ∉ raw.toList
  read : ∃ line inst ops, numberLines number [raw] = [line] ∧
    (∀ r : Reader, Quiet (r.bodyLine d line) { r with draft := some (d.place number inst ops) }) ∧
    Quiet (s.decode ⟨{ inst with offset := d.offset, line := number },ops⟩) i

theorem placeGrows (d : Draft) (number : Nat) (inst : Instruction) (ops : List String) {e : Draft}
    (same : e.placed = d.placed) : e ≠ d.place number inst ops := by
  rintro rfl
  exact absurd (congrArg List.length same) (Nat.succ_ne_self _)

theorem addCatchPlaced (d : Draft) (line : Nat) (head rest : String) :
    Gives (d.addCatch line head rest) fun e => e.placed = d.placed := by
  unfold Draft.addCatch
  split
  split
  · exact .after fun _ => .pure rfl
  · split
    · split
      · exact .after fun _ => .pure rfl
      · exact .pure rfl
    · exact .after fun _ => .pure rfl

theorem bodyLinePlaced {d : Draft} {l : Line} {inst : Instruction} {ops : List String}
    (quiet : ∀ r : Reader, Quiet (r.bodyLine d l) { r with draft := some (d.place l.number inst ops) }) :
    ∃ head rest inst', splitHead l.text = (head,rest) ∧ Mnemonic.template? head = some inst' ∧
      (⟨{ inst with offset := d.offset, line := l.number },ops⟩ : Placed) =
        ⟨{ inst' with offset := d.offset, line := l.number },operands rest⟩ := by
  -- The draft is set at the end, so that it tells which branch was taken.
  have ends : ∀ {r r' : Reader}, Quiet (pure r) r' → r.draft = r'.draft :=
    fun quiet => congrArg Reader.draft quiet.ofPure
  have other : ∀ e : Draft, some e = some (d.place l.number inst ops) → e.placed ≠ d.placed :=
    fun e whole same => placeGrows d l.number inst ops same (Option.some.inj whole)
  have caught : ∀ head rest, ¬Quiet (do
      let d ← d.addCatch l.number head rest
      pure ({ draft := some d } : Reader)) { draft := some (d.place l.number inst ops) } := by
    intro head rest quiet
    obtain ⟨e,read,quiet⟩ := quiet.parts fun _ => .pure _
    have kept := addCatchPlaced d l.number head rest #[]
    rw [show (d.addCatch l.number head rest).run #[] = (e,#[]) from read] at kept
    exact other e (ends quiet) kept
  have started := quiet {}
  unfold Reader.bodyLine at started
  split at started
  · exact (other _ (ends started) rfl).elim
  · split at started
    rename_i head rest parts
    split at started
    · split at started
      · obtain ⟨m,-,started⟩ := started.parts fun _ => .pure _
        exact nomatch ends started
      · exact nomatch ends started
    · obtain ⟨n,-,started⟩ := started.parts fun _ => .pure _
      exact (other _ (ends started) rfl).elim
    · obtain ⟨n,-,started⟩ := started.parts fun _ => .pure _
      exact (other _ (ends started) rfl).elim
    · exact (caught _ _ started).elim
    · exact (caught _ _ started).elim
    · exact nomatch ends started
    · exact nomatch ends started
    · split at started
      · obtain ⟨p,-,started⟩ := started.parts fun _ => .pure _
        exact (other _ (ends started) rfl).elim
      · split at started
        · exact nomatch ends started
        · split at started
          · exact started.noted.elim
          · rename_i inst' template
            have placed := congrArg (fun e : Draft => e.placed.head?) (Option.some.inj (ends started))
            exact ⟨head,rest,inst',parts,template,(Option.some.inj placed).symm⟩

theorem numberLinesOne {number : Nat} {raw : String} {line : Line} (lines : numberLines number [raw] = [line]) :
    line = ⟨number,String.ofList (trimChars (stripComment false raw.toList))⟩ := by
  unfold numberLines at lines
  extract_lets text at lines
  split at lines
  · contradiction
  · exact (List.cons.inj lines).1.symm

theorem lineOperands {raw : String} (one : '\n' ∉ raw.toList) {head rest : String}
    (word : ∀ c ∈ head.toList, isPlain c = true)
    (split : splitHead (String.ofList (trimChars (stripComment false raw.toList))) = (head,rest)) :
    ∀ o ∈ operands rest, Piece o.toList ∧ '\n' ∉ o.toList := by
  have kept := stripCommentTrim (stripCommentTwice false raw.toList)
  have within := List.Subset.trans (trimSubset _) (stripCommentSubset false raw.toList)
  generalize trimChars (stripComment false raw.toList) = text at kept within split
  have rests : stripComment false rest.toList = rest.toList ∧ rest.toList ⊆ text := by
    unfold splitHead at split
    rw [String.toList_ofList] at split
    split at split
    · rename_i before mark after cut
      obtain ⟨rfl,rfl⟩ := Prod.mk.inj split
      have whole := Descriptor.cutWhere?_eq cut
      have blank := (cutWhereSome cut).2
      have plain : ∀ c ∈ before ++ [mark], isPlain c = true := by
        rw [String.toList_ofList] at word
        refine List.forall_mem_append.mpr ⟨word,List.forall_mem_singleton.mpr ?_⟩
        rcases Bool.or_eq_true_iff.mp blank with same | same <;> rw [beq_iff_eq.mp same] <;> rfl
      have parts : text = (before ++ [mark]) ++ after := by rw [whole]; simp
      rw [parts,stripCommentPlain plain] at kept
      rw [String.toList_ofList]
      refine ⟨stripCommentTrim (List.append_cancel_left kept),List.Subset.trans (trimSubset after) ?_⟩
      rw [parts]
      exact List.subset_append_right ..
    · obtain ⟨-,rfl⟩ := Prod.mk.inj split
      exact ⟨rfl,List.nil_subset _⟩
  intro o member
  obtain ⟨piece,inside⟩ := operandsUncut rests.1 o member
  exact ⟨piece,fun line => one (within (rests.2 (inside line)))⟩

theorem leadingFamily (s : Scope) (i : Instruction) (n : Nat) (ops : List String) :
    Gives (s.leading i n ops) fun r => r.1.family = i.family := by
  unfold Scope.leading
  split
  · exact .after fun _ => .pure rfl
  · exact .after fun _ => .pure rfl

theorem switchTableFamily {f : Family} (same : i.family = f) (kind : PayloadKind) :
    Gives (s.switchTable i kind) fun j => j.family = f := by
  unfold Scope.switchTable
  split
  · exact .after fun _ => .pure same
  · exact .after fun _ => .pure same

theorem labelledKept {p : Placed} (labelled : p.inst.family.labelled = true) :
    Gives (s.decode p) fun j => j.family = p.inst.family := by
  have led : ∀ {n : Nat} {next : Instruction × List String → Noting Instruction},
      (∀ j, j.family = p.inst.family → Gives (next (j,[])) fun k => k.family = p.inst.family) →
      (∀ j o os, j.family = p.inst.family → Gives (next (j,o :: os)) fun k => k.family = p.inst.family) →
      Gives (s.leading p.inst n p.operands >>= next) fun k => k.family = p.inst.family := by
    intro n next none some
    refine (leadingFamily s p.inst n p.operands).bind fun r same => ?_
    obtain ⟨j,_ | ⟨o,os⟩⟩ := r
    · exact none j same
    · exact some j o os same
  unfold Scope.decode
  dsimp only
  split <;> rename_i family <;> first
    | (rw [family] at labelled; contradiction)
    | skip
  · refine led (fun j same => .pure same) fun j o os same => ?_
    dsimp only
    split
    · exact .pure same
    · exact .after fun _ => .pure same
  · split
    · exact .after fun _ => .pure rfl
    · exact .after fun _ => .pure rfl
  · exact led (fun j same => .pure same) fun j o os same => .after fun _ => .pure same
  · exact led (fun j same => .pure same) fun j o os same => .after fun _ => .pure same
  · refine led (fun j same => .pure same) fun j o os same => ?_
    exact switchTableFamily (i := { j with payload := stripStart ":" o }) same _
  · refine led (fun j same => .pure same) fun j o os same => ?_
    exact switchTableFamily (i := { j with payload := stripStart ":" o }) same _

theorem Assembles.sayable {d : Draft} {s : Scope} {number : Nat} {raw : String}
    (assembles : Assembles d s number raw i) (own : i.family.labelled = false) : Sayable i := by
  obtain ⟨one,line,inst,ops,lines,placed,decoded⟩ := assembles
  obtain rfl := numberLinesOne lines
  obtain ⟨head,rest,inst',split,template,same⟩ := bodyLinePlaced placed
  rw [show (⟨{ inst with offset := d.offset, line := number },ops⟩ : Placed) = _ from same] at decoded
  have bare : inst'.Blank := by
    refine templateBlank ?_ template
    have word := headWord (String.ofList (trimChars (stripComment false raw.toList)))
    rw [show splitHead (String.ofList (trimChars (stripComment false raw.toList))) = _ from split] at word
    exact word
  have mnemonic : inst'.mnemonic = head := by
    obtain ⟨shape,-,rfl⟩ := Option.map_eq_some_iff.mp template
    rfl
  have word := fun c member => (wordSolid ((mnemonicWord (mnemonic ▸ bare.shape)).2 c member)).2.1
  have blank : Blank { inst' with offset := d.offset, line := number } :=
    ⟨bare.word,bare.shape,by rw [bare.rest]⟩
  refine quietSayable blank ?_ (lineOperands one word split) decoded
  by_contra labelled
  have kept := labelledKept (s := s)
    (p := ⟨{ inst' with offset := d.offset, line := number },operands rest⟩) (by simpa using labelled) #[]
  rw [show Prod.fst _ = i from congrArg Prod.fst decoded] at kept
  rw [kept] at own
  exact labelled own

theorem bodyLineSaid {d : Draft} {number : Nat} {line mnemonic rest : String} {inst : Instruction}
    (start : line.toList.head? = mnemonic.toList.head?) (split_ : splitHead line = (mnemonic,rest))
    (template : Mnemonic.template? mnemonic = some inst) (r : Reader) :
    r.bodyLine d ⟨number,line⟩ = pure { r with draft := some (d.place number inst (operands rest)) } := by
  have looked : Mnemonic.shape? mnemonic = some inst.toShape := by
    obtain ⟨shape,looked,rfl⟩ := Option.map_eq_some_iff.mp template
    exact looked
  obtain ⟨some_,word⟩ := mnemonicWord looked
  have solid := fun c member => wordSolid (word c member)
  have dotted : '.' ∉ mnemonic.toList := fun member => (solid _ member).2.2.2 rfl
  obtain ⟨c,cs,first⟩ := List.exists_cons_of_ne_nil some_
  have member : c ∈ mnemonic.toList := first ▸ List.mem_cons_self ..
  have unlabelled : stripStart? ":" line = none := by
    rw [stripStart?]
    cases chars : line.toList with
    | nil => rfl
    | cons d ds =>
      rw [chars,first] at start
      have colon := (solid c member).2.2.1
      rw [show d = c from Option.some.inj start]
      simp [stripStartChars?,Ne.symm colon]
  have undirected : startsWith "." mnemonic = false := by
    rw [startsWith,first]
    simp [stripStartChars?,Ne.symm (solid c member).2.2.2]
  have nothing : PayloadKind.ofDirective? mnemonic = none := by
    unfold PayloadKind.ofDirective?
    split <;> first
      | exact absurd (by decide) dotted
      | rfl
  unfold Reader.bodyLine
  dsimp only
  rw [unlabelled]
  dsimp only
  rw [split_]
  dsimp only
  split <;> first
    | exact absurd (by decide) dotted
    | skip
  rw [nothing]
  dsimp only
  rw [if_neg (by rw [undirected]; exact Bool.false_ne_true),template]

theorem Sayable.assembles (sayable : Sayable i) (own : i.family.labelled = false) (d : Draft) (s : Scope)
    (number : Nat) : Assembles d s number i.text { i with offset := d.offset, line := number } := by
  obtain ⟨line,rest,trimmed,start,split_,parted⟩ := lineSplit sayable own
  obtain ⟨shape,looked,made⟩ := sayable.formed.shape
  have template : Mnemonic.template? i.mnemonic =
      some { toShape := shape, mnemonic := i.mnemonic } := by
    rw [Mnemonic.template?,looked]
    rfl
  obtain ⟨some_,-⟩ := mnemonicWord looked
  have text : String.ofList line ≠ "" := by
    intro none
    have chars := congrArg String.toList none
    rw [String.toList_ofList] at chars
    rw [chars] at start
    exact some_ (List.head?_eq_none_iff.mp start.symm)
  refine ⟨textLine sayable,⟨number,String.ofList line⟩,{ toShape := shape, mnemonic := i.mnemonic },
    operands rest,?_,fun r => ?_,?_⟩
  · unfold numberLines
    rw [trimmed,if_neg text]
    rfl
  · rw [bodyLineSaid (by rw [String.toList_ofList]; exact start) split_ template]
    rfl
  · have blank : Blank { toShape := shape, mnemonic := i.mnemonic, offset := d.offset, line := number } :=
      ⟨sayable.formed.word,looked,rfl⟩
    have families : i.family = shape.family := (congrArg Shape.family made).trans rfl
    have arities : i.arity =
        arity { toShape := shape, mnemonic := i.mnemonic, offset := d.offset, line := number } := by
      unfold arity
      rw [families,show i.twoAddress = shape.twoAddress from (congrArg Shape.twoAddress made).trans rfl]
    have decoded : s.decode ⟨{ toShape := shape, mnemonic := i.mnemonic, offset := d.offset, line := number },
        operands rest⟩ = pure { i with offset := d.offset, line := number } := by
      rw [decodeByKind blank (show shape.family.labelled = false from families ▸ own)]
      dsimp only
      rw [parted,headSaid s sayable families arities,pure_bind,← families,
        withRestSaid sayable own blank families]
      exact congrArg pure (replaced sayable blank rfl).symm
    rw [decoded]
    rfl

/-- An instruction that was read without fault, unless it refers to a label, prints as a line that is read
without fault as the same instruction, at any place of any method. -/
theorem textAssembles {d d' : Draft} {s s' : Scope} {number number' : Nat} {raw : String} {i : Instruction}
    (assembles : Assembles d s number raw i) (own : i.family.labelled = false) :
    Assembles d' s' number' i.text { i with offset := d'.offset, line := number' } :=
  (assembles.sayable own).assembles own d' s' number'

theorem textAssemblesQuoted :
    Assembles { method := default, offset := 8 } ⟨4,2,[],[]⟩ 9 "const-string v1, \",\\\"#é\""
      { family := .constString, width := 2, type := "Ljava/lang/String;", mnemonic := "const-string"
        offset := 8, line := 9, regs := [1], str := [44,34,35,0xC3,0xA9] } := by
  have read : Assembles { method := default } ⟨2,1,[],[]⟩ 3 "  const-string p0, \",\\\"#é\"  # quoted"
      { family := .constString, width := 2, type := "Ljava/lang/String;", mnemonic := "const-string"
        line := 3, regs := [1], str := [44,34,35,0xC3,0xA9] } := by
    refine ⟨by decide,⟨3,"const-string p0, \",\\\"#é\""⟩,
      { family := .constString, width := 2, type := "Ljava/lang/String;", mnemonic := "const-string" },
      ["p0","\",\\\"#é\""],?_,fun r => ?_,?_⟩
    · decide +kernel
    · have line : r.bodyLine { method := default } ⟨3,"const-string p0, \",\\\"#é\""⟩ = _ :=
        bodyLineSaid (by decide) (show _ = ("const-string","p0, \",\\\"#é\"") by decide +kernel)
          (show _ = some { family := .constString, width := 2, type := "Ljava/lang/String;",
                           mnemonic := "const-string" } by decide +kernel) r
      rw [line]
      cbv
    · cbv
  have text : Instruction.text
      { family := .constString, width := 2, type := "Ljava/lang/String;", mnemonic := "const-string"
        line := 3, regs := [1], str := [44,34,35,0xC3,0xA9] } = "const-string v1, \",\\\"#é\"" := by decide +kernel
  exact text ▸ textAssembles read rfl

end Assembly
end RegCode
