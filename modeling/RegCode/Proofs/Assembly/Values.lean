import Mathlib
import RegCode.Assembly.Body
import RegCode.Proofs.Assembly.Formed
import RegCode.Proofs.Assembly.Scanning

/-! Values of a line read back. What is read is a number of 64 bits, and its text, as a register or as
a literal, is read as the same number; a string in quotes is one operand. -/
namespace RegCode

open Text

namespace Text

/-- A number of 64 bits with a sign. -/
def Fits (x : Int) : Prop := minInt64 ≤ x ∧ x ≤ maxInt64

theorem wrapFits (x : Int) : Fits (wrap64 x) := by
  have above := Int.le_bmod (x := x) (m := 18446744073709551616) (by decide)
  have below := Int.bmod_lt (x := x) (m := 18446744073709551616) (by decide)
  unfold Fits wrap64 minInt64 maxInt64
  omega

theorem wrapSame {x : Int} (fits : Fits x) : wrap64 x = x := by
  obtain ⟨above,below⟩ := fits
  unfold minInt64 at above
  unfold maxInt64 at below
  exact Int.bmod_eq_of_le (by omega) (by omega)

/-! ### Numerals -/

theorem readOnGrows {base : Nat} (positive : 0 < base) (n : Nat) (cs : List Char) : n ≤ readOn base n cs := by
  induction cs generalizing n with
  | nil => exact Nat.le_refl n
  | cons c cs ih =>
    refine Nat.le_trans ?_ (ih _)
    exact Nat.le_trans (Nat.le_mul_of_pos_left n positive) (Nat.le_add_right ..)

theorem readUnsignedDigits {base n : Nat} {cs : List Char} (positive : 0 < base)
    (digits : ∀ c ∈ cs, ∃ d < base, digitValue? c = some d) (small : readOn base n cs < 18446744073709551616) :
    readUnsignedAfter base n cs = .value (readOn base n cs) := by
  induction cs generalizing n with
  | nil => rfl
  | cons c cs ih =>
    obtain ⟨⟨d,below,value⟩,later⟩ := List.forall_mem_cons.mp digits
    have step : readOn base n (c :: cs) = readOn base (n * base + d) cs := by
      rw [readOn,readOn,List.foldl_cons,value,Option.getD_some,Nat.mul_comm]
    rw [step] at small ⊢
    rw [readUnsignedAfter,value]
    dsimp only
    rw [if_neg (Nat.not_le_of_lt below),
      if_pos (Nat.lt_of_le_of_lt (readOnGrows positive _ cs) small),ih later small]

theorem readUnsignedNat (base n : Nat) (least : 2 ≤ base) (most : base ≤ 16) (small : n < 18446744073709551616) :
    readUnsigned base (natDigits base n) = .value n := by
  have digits : ∀ c ∈ natDigits base n, ∃ d < base, digitValue? c = some d := by
    intro c member
    obtain ⟨d,below,rfl⟩ := (digitsOntoDigits least _ _ _ c member).resolve_left List.not_mem_nil
    exact ⟨d,below,digitValueOfChar (Nat.lt_of_lt_of_le below most)⟩
  have read := readNatDigits least most n
  unfold readUnsigned
  split
  · rename_i none
    exact absurd none (natDigitsNonempty n)
  · rw [readUnsignedDigits (Nat.lt_of_lt_of_le Nat.two_pos least) digits (read.symm ▸ small),read]

theorem splitSignDigit {c : Char} (digit : isDigit c = true) (cs : List Char) :
    splitSign (c :: cs) = (false,c :: cs) := by
  unfold splitSign
  split
  · rename_i same
    rw [(List.cons.inj same).1] at digit
    exact absurd digit (by decide)
  · rename_i same
    rw [(List.cons.inj same).1] at digit
    exact absurd digit (by decide)
  · rfl

theorem readSignedText {x : Int} (fits : Fits x) : (readSigned (intText x)).ok? = some x := by
  obtain ⟨above,below⟩ := fits
  unfold minInt64 at above
  unfold maxInt64 at below
  have digits := readUnsignedNat 10 x.natAbs (by decide) (by decide) (by omega)
  by_cases negative : x < 0
  · have sign : splitSign (intText x).toList = (true,natDigits 10 x.natAbs) := by
      rw [intText,if_pos negative,String.toList_append,natText,String.toList_ofList]
      exact congrArg (true,·) String.toList_ofList
    rw [readSigned,readSignedIn,sign]
    dsimp only
    rw [digits,Reading.signed,clampSigned,if_pos rfl,if_pos (by omega)]
    exact congrArg some (by omega)
  · have sign : splitSign (intText x).toList = (false,natDigits 10 x.natAbs) := by
      rw [intText,if_neg negative,natText,String.toList_ofList]
      cases written : natDigits 10 x.natAbs with
      | nil => exact absurd written (natDigitsNonempty _)
      | cons c cs =>
        exact splitSignDigit (natDigitsDigits (by decide) (by decide) x.natAbs c
          (written ▸ List.mem_cons_self ..)) cs
    rw [readSigned,readSignedIn,sign]
    dsimp only
    rw [digits,Reading.signed,clampSigned,if_neg Bool.false_ne_true,if_pos (by omega)]
    exact congrArg some (by omega)

theorem clampFits {negative : Bool} {n : Nat} {x : Int} (clamped : (clampSigned negative n).ok? = some x) :
    Fits x := by
  unfold clampSigned at clamped
  unfold Fits minInt64 maxInt64
  split at clamped <;> split at clamped <;> first
    | contradiction
    | cases clamped; omega

theorem readSignedFits {s : String} {x : Int} (read : (readSigned s).ok? = some x) : Fits x := by
  unfold readSigned readSignedIn at read
  split at read
  rename_i negative cs _
  cases digits : readUnsigned 10 cs with
  | malformed =>
    rw [digits] at read
    contradiction
  | value n | beyond n =>
    rw [digits] at read
    exact clampFits read

end Text

namespace Assembly

/-! ### Literals -/

theorem readWholeFits {s : String} {x : Int} (read : readWhole? s = some x) : Fits x := by
  unfold readWhole? at read
  extract_lets s' magnitude next at read
  split at read <;>
    obtain ⟨n,-,made⟩ := Option.bind_eq_some_iff.mp read <;>
    exact Option.some.inj made ▸ wrapFits _

theorem nearestBelow {f : Decimal.Format} {num den bits : Nat} (positive : 0 < f.infinityBits)
    (near : f.nearest? num den = some bits) : bits < f.infinityBits := by
  have guarded : ∀ b : Nat, (if b < f.infinityBits then some b else none) = some bits →
      bits < f.infinityBits := by
    intro b given
    split at given
    · rename_i below
      exact Option.some.inj given ▸ below
    · contradiction
  unfold Decimal.Format.nearest? at near
  split at near
  · exact Option.some.inj near ▸ positive
  · extract_lets guess at near
    split at near
    extract_lets e e' at near
    split at near
    extract_lets m b at near
    exact guarded b near

theorem writtenBelow {f : Decimal.Format} {w : Decimal.Written} {bits : Nat} (positive : 0 < f.infinityBits)
    (near : w.nearest? f = some bits) : bits < f.infinityBits := by
  unfold Decimal.Written.nearest? at near
  split at near
  · exact Option.some.inj near ▸ positive
  · split at near <;> extract_lets at near <;> split at near
    · contradiction
    · split at near
      · exact Option.some.inj near ▸ positive
      · exact nearestBelow positive near
    · contradiction
    · split at near
      · exact Option.some.inj near ▸ positive
      · exact nearestBelow positive near

theorem readSingleBelow {s : String} {bits : Nat} (read : Decimal.read? Decimal.single s = some bits) :
    bits < 4294967296 := by
  have infinity : Decimal.single.infinityBits = 2139095040 := by decide
  have sign : Decimal.single.signBit = 2147483648 := by decide
  have nan : Decimal.nanBits Decimal.single = 2143289344 := by decide
  obtain ⟨bits',made,same⟩ : ∃ b, Decimal.read Decimal.single s = .ok b ∧ b = bits := by
    unfold Decimal.read? at read
    cases given : Decimal.read Decimal.single s with
    | error => rw [given] at read; cases read
    | ok b => rw [given] at read; exact ⟨b,rfl,Option.some.inj read⟩
  subst same
  unfold Decimal.read at made
  split at made
  rename_i negative cs _
  have signed : ∀ b < 2147483648, (if negative then Decimal.single.signBit + b else b) < 4294967296 := by
    intro b below
    split <;> omega
  extract_lets signed' word at made
  split at made
  · exact Except.ok.inj made ▸ signed _ (by omega)
  · split at made
    · exact Except.ok.inj made ▸ (by omega)
    · split at made
      · cases made
      · split at made
        · cases made
        · rename_i near
          have below := writtenBelow (by omega) near
          exact Except.ok.inj made ▸ signed _ (by omega)

theorem readRealFits {s : String} {x : Int} (read : readReal s = .ok x) : Fits x := by
  unfold readReal at read
  extract_lets body at read
  split at read <;> split at read
  · rename_i bits single
    have below := readSingleBelow single
    rw [← Except.ok.inj read]
    unfold Fits minInt64 maxInt64
    omega
  · cases read
  · exact Except.ok.inj read ▸ wrapFits _
  · cases read

theorem readLiteralFits {s : String} {x : Int} (read : readLiteral s = .ok x) : Fits x := by
  unfold readLiteral at read
  extract_lets s' low hexadecimal at read
  split at read
  · cases read
  · split at read
    · exact readRealFits read
    · split at read
      · rename_i whole
        exact readWholeFits (Except.ok.inj read ▸ whole)
      · cases read

theorem digitLower {c : Char} (digit : isDigit c = true ∨ c = 'x' ∨ c = '-') : lowerChar c = c := by
  have all : ∀ n < 128, isDigit (Char.ofNat n) = true ∨ Char.ofNat n = 'x' ∨ Char.ofNat n = '-' →
      lowerChar (Char.ofNat n) = Char.ofNat n := by decide +kernel
  have low : c.toNat < 128 := by
    rcases digit with digit | rfl | rfl
    · unfold isDigit at digit
      simp only [Bool.or_eq_true,Bool.and_eq_true,decide_eq_true_eq] at digit
      omega
    · decide
    · decide
  have := all c.toNat low
  rw [Char.ofNat_toNat] at this
  exact this digit

theorem digitSolid {c : Char} (digit : isDigit c = true) :
    isBlank c = false ∧ c ≠ 'l' ∧ c ≠ 't' ∧ c ≠ 's' := by
  unfold isDigit at digit
  simp only [Bool.or_eq_true,Bool.and_eq_true,decide_eq_true_eq] at digit
  refine ⟨?_,?_,?_,?_⟩
  · unfold isBlank
    simp only [Bool.or_eq_false_iff,Bool.and_eq_false_iff,decide_eq_false_iff_not,beq_eq_false_iff_ne]
    omega
  all_goals
    rintro rfl
    revert digit
    decide

def literalChars (x : Int) : List Char :=
  (if x < 0 then ['-'] else []) ++ '0' :: 'x' :: natDigits 16 x.natAbs

theorem literalTextChars (x : Int) : literalText x = String.ofList (literalChars x) := by
  apply String.toList_injective
  rw [String.toList_ofList]
  unfold literalText literalChars hexText
  split <;> simp only [String.toList_append,String.toList_ofList] <;> rfl

theorem hexDigits (n : Nat) : ∀ c ∈ natDigits 16 n, isDigit c = true :=
  natDigitsDigits (by decide) (by decide) n

theorem literalMembers (x : Int) : ∀ c ∈ literalChars x, isDigit c = true ∨ c = 'x' ∨ c = '-' := by
  intro c member
  rcases List.mem_append.mp member with sign | member
  · split at sign
    · exact .inr (.inr (List.mem_singleton.mp sign))
    · contradiction
  · simp only [List.mem_cons] at member
    rcases member with rfl | rfl | digit
    · exact .inl rfl
    · exact .inr (.inl rfl)
    · exact .inl (hexDigits _ c digit)

theorem literalLast (x : Int) : ∀ c ∈ (literalChars x).getLast?, isDigit c = true := by
  intro c last
  rw [literalChars,List.getLast?_append,List.getLast?_cons,List.getLast?_cons] at last
  cases written : (natDigits 16 x.natAbs).getLast? with
  | none => exact absurd (List.getLast?_eq_none_iff.mp written) (natDigitsNonempty _)
  | some d =>
    rw [written] at last
    exact Option.some.inj last ▸ hexDigits _ d (List.mem_of_getLast? written)

theorem literalTrimmed (x : Int) : trimChars (literalChars x) = literalChars x := by
  refine trimEnds (fun c first => ?_) fun c last => (digitSolid (literalLast x c last)).1
  unfold literalChars at first
  split at first <;> exact Option.some.inj first ▸ rfl

theorem literalLower (x : Int) : lower (literalText x) = literalText x := by
  rw [literalTextChars,lower,String.toList_ofList]
  refine congrArg String.ofList (Eq.trans ?_ (List.map_id _))
  exact List.map_congr_left fun c member => digitLower (literalMembers x c member)

theorem dropWidthSame {cs : List Char} (last : ∀ c ∈ cs.getLast?, isDigit c = true) :
    dropWidthLetter (String.ofList cs) = String.ofList cs := by
  unfold dropWidthLetter
  rw [String.toList_ofList]
  split
  · rename_i c d rest reversed
    have digit := last c (by rw [← List.head?_reverse,reversed]; rfl)
    obtain ⟨-,l,t,s⟩ := digitSolid digit
    rw [if_neg (by simp only [l,t,s,or_self,not_false_eq_true])]
  · rfl

theorem readWholeText {x : Int} (fits : Fits x) : readWhole? (literalText x) = some x := by
  obtain ⟨above,below⟩ := fits
  unfold minInt64 at above
  unfold maxInt64 at below
  have read := readUnsignedNat 16 x.natAbs (by decide) (by decide) (by omega)
  have minus : startsWith "-" (literalText x) = decide (x < 0) := by
    rw [literalTextChars,startsWith,String.toList_ofList,literalChars]
    split
    · rename_i negative
      simp [stripStartChars?,negative]
    · rename_i negative
      simpa [stripStartChars?] using negative
  have digits : stripStart? "0x" (stripStart "-" (literalText x)) =
      some (String.ofList (natDigits 16 x.natAbs)) := by
    rw [literalTextChars,stripStart,stripStart?,stripStart?,String.toList_ofList,literalChars]
    split <;> simp [stripStartChars?]
  unfold readWhole?
  rw [literalTextChars,dropWidthSame (literalLast x),← literalTextChars]
  dsimp only
  rw [digits,minus]
  dsimp only
  rw [String.toList_ofList,read]
  refine congrArg some ?_
  by_cases negative : x < 0
  · rw [if_pos (decide_eq_true negative)]
    by_cases least : x = minInt64
    · rw [least]
      decide
    · unfold minInt64 at least
      rw [wrapSame (x := (x.natAbs : Int)) (by unfold Fits minInt64 maxInt64; omega),
        show -(x.natAbs : Int) = x by omega]
      exact wrapSame ⟨above,below⟩
  · rw [if_neg (by simpa using negative),Int.natAbs_of_nonneg (by omega)]
    exact wrapSame ⟨above,below⟩

theorem readLiteralText {x : Int} (fits : Fits x) : readLiteral (literalText x) = .ok x := by
  have bare : stripStart "#" (Text.trim (literalText x)) = literalText x := by
    rw [Text.trim,literalTextChars,String.toList_ofList,literalTrimmed,stripStart,stripStart?,
      String.toList_ofList,literalChars]
    split <;> simp [stripStartChars?]
  have some_ : literalText x ≠ "" := by
    rw [literalTextChars,literalChars]
    intro none
    have := congrArg String.toList none
    rw [String.toList_ofList] at this
    exact absurd (List.append_eq_nil_iff.mp this).2 (List.cons_ne_nil _ _)
  have hexadecimal : (startsWith "0x" (literalText x) || startsWith "-0x" (literalText x)) = true := by
    rw [literalTextChars,startsWith,startsWith,String.toList_ofList,literalChars]
    split <;> simp [stripStartChars?]
  unfold readLiteral
  rw [bare]
  dsimp only
  rw [if_neg some_,literalLower,hexadecimal,if_neg (by simp),readWholeText fits]

/-! ### Registers -/

open Instruction (registerText listText trail)

theorem registerChars (r : Int) : (registerText r).toList = 'v' :: (intText r).toList := by
  rw [registerText,String.toList_append]
  rfl

theorem intTextLast (x : Int) : ∃ front c, (intText x).toList = front ++ [c] ∧ isDigit c = true := by
  have digits : ∃ front c, natDigits 10 x.natAbs = front ++ [c] ∧ isDigit c = true := by
    rcases List.eq_nil_or_concat' (natDigits 10 x.natAbs) with none | ⟨front,c,written⟩
    · exact absurd none (natDigitsNonempty _)
    · refine ⟨front,c,written,natTextDigits x.natAbs c ?_⟩
      rw [natText,String.toList_ofList,written]
      exact List.mem_append_right _ (List.mem_singleton_self c)
  obtain ⟨front,c,written,digit⟩ := digits
  unfold intText natText
  split
  · refine ⟨'-' :: front,c,?_,digit⟩
    simp only [String.toList_append,String.toList_ofList,written]
    rfl
  · exact ⟨front,c,by rw [String.toList_ofList,written],digit⟩

theorem registerSolid (r : Int) :
    trimChars (registerText r).toList = (registerText r).toList ∧ (registerText r).toList ≠ [] := by
  obtain ⟨front,c,written,digit⟩ := intTextLast r
  rw [registerChars,written]
  refine ⟨trimEnds (fun d first => ?_) fun d last => ?_,List.cons_ne_nil _ _⟩
  · cases first
    rfl
  · rw [← List.cons_append,List.getLast?_concat] at last
    cases last
    exact (digitSolid digit).1

theorem registerReads (s : Scope) (line : Nat) {r : Int} (fits : Fits r) :
    s.register line (registerText r) = pure r := by
  unfold Scope.register
  rw [registerChars]
  dsimp only
  rw [String.ofList_toList,readSignedText fits]
  rfl

theorem registerAllReads (s : Scope) (line : Nat) {rs : List Int} (fits : ∀ r ∈ rs, Fits r) :
    s.registerAll line (rs.map registerText) = pure rs := by
  induction rs with
  | nil => rfl
  | cons r rs ih =>
    obtain ⟨first,rest⟩ := List.forall_mem_cons.mp fits
    rw [List.map_cons,Scope.registerAll,registerReads s line first,ih rest]
    rfl

/-! ### Register lists -/

theorem cutAbsent {c : Char} {p cs : List Char} (absent : c ∉ cs) : cutChars? (c :: p) cs = none := by
  induction cs with
  | nil => rfl
  | cons d cs ih =>
    obtain ⟨other,later⟩ := not_or.mp (List.mem_cons.not.mp absent)
    rw [cutChars?,stripStartChars?,if_neg other,ih later]
    rfl

theorem piecesAtPlain {sep : Char → Bool} {cs ds p : List Char} {ps : List (List Char)}
    (plain : ∀ c ∈ cs, sep c = false) (rest : piecesAt sep ds = p :: ps) :
    piecesAt sep (cs ++ ds) = (cs ++ p) :: ps := by
  induction cs with
  | nil => exact rest
  | cons c cs ih =>
    obtain ⟨here,later⟩ := List.forall_mem_cons.mp plain
    rw [List.cons_append,piecesAt,ih later]
    dsimp only
    rw [here,if_neg nofun,List.cons_append]

theorem piecesAtTrail {s : String} {ss : List String}
    (plain : ∀ t ∈ s :: ss, ∀ c ∈ t.toList, (c == ',') = false) :
    piecesAt (· == ',') (s.toList ++ trail ss) = s.toList :: ss.map fun t => ' ' :: t.toList := by
  induction ss generalizing s with
  | nil =>
    refine (piecesAtPlain (List.forall_mem_cons.mp plain).1 rfl).trans ?_
    rw [List.append_nil]
    rfl
  | cons t ss ih =>
    obtain ⟨first,later⟩ := List.forall_mem_cons.mp plain
    have rest : piecesAt (· == ',') (trail (t :: ss)) = [] :: (' ' :: t.toList) ::
        ss.map fun t => ' ' :: t.toList := by
      have split : trail (t :: ss) = [',',' '] ++ (t.toList ++ trail ss) := by simp [trail]
      rw [split,List.cons_append,List.cons_append,List.nil_append,piecesAt,piecesAt,ih later]
      rfl
    rw [piecesAtPlain first rest,List.append_nil,List.map_cons]

theorem registerNumeral (r : Int) : ∀ c ∈ (registerText r).toList, isNumeral c = true ∨ c = 'v' := by
  intro c member
  rw [registerChars] at member
  rcases List.mem_cons.mp member with letter | number
  · exact .inr letter
  · exact .inl (intTextNumeral r c number)

theorem joinedMembers (rs : List Int) : ∀ c ∈ (", ".intercalate (rs.map registerText)).toList,
    isNumeral c = true ∨ c ∈ ['v',',',' '] := by
  intro c member
  cases rs with
  | nil => exact absurd member List.not_mem_nil
  | cons r rs =>
    rw [List.map_cons,Instruction.intercalateTrail] at member
    have number : ∀ s, c ∈ (registerText s).toList → isNumeral c = true ∨ c ∈ ['v',',',' '] := by
      intro s member
      rcases registerNumeral s c member with digit | rfl
      · exact .inl digit
      · exact .inr (List.mem_cons_self ..)
    rcases List.mem_append.mp member with first | later
    · exact number r first
    · obtain ⟨t,text,member⟩ := List.mem_flatMap.mp later
      obtain ⟨s,-,rfl⟩ := List.mem_map.mp text
      simp only [List.mem_cons] at member
      rcases member with rfl | rfl | member
      · exact .inr (by decide)
      · exact .inr (by decide)
      · exact number s member

theorem listChars (rs : List Int) :
    (listText rs).toList = '\x7b' :: ((", ".intercalate (rs.map registerText)).toList ++ ['\x7d']) := by
  unfold listText
  simp only [String.toList_append,List.append_assoc]
  rfl

theorem readRegisterListText (rs : List Int) :
    readRegisterList (listText rs) = .ok (rs.map registerText) := by
  have inner : (stripStart? "\x7b" (listText rs) >>= stripEnd? "\x7d") =
      some (", ".intercalate (rs.map registerText)) := by
    have chars := listChars rs
    generalize ", ".intercalate (rs.map registerText) = body at chars
    simp [stripStart?,stripEnd?,chars,stripStartChars?]
  unfold readRegisterList
  rw [inner]
  cases rs with
  | nil => rfl
  | cons r rs =>
    have texts : ∀ t ∈ registerText r :: rs.map registerText, ∃ s, t = registerText s := by
      intro t member
      obtain ⟨s,-,rfl⟩ := List.mem_map.mp (show t ∈ (r :: rs).map registerText from member)
      exact ⟨s,rfl⟩
    have body : Text.trim (", ".intercalate ((r :: rs).map registerText)) =
        ", ".intercalate ((r :: rs).map registerText) := by
      refine String.toList_injective ?_
      rw [Text.trim,String.toList_ofList,List.map_cons,Instruction.intercalateTrail]
      refine trimTrail fun t member => ?_
      obtain ⟨s,rfl⟩ := texts t member
      exact registerSolid s
    have some_ : ", ".intercalate ((r :: rs).map registerText) ≠ "" := by
      intro none
      have := congrArg String.toList none
      rw [List.map_cons,Instruction.intercalateTrail,registerChars] at this
      contradiction
    have listed : cut? ".." (", ".intercalate ((r :: rs).map registerText)) = none := by
      refine Option.map_eq_none_iff.mpr (cutAbsent fun dot => ?_)
      exact absurd (joinedMembers _ _ dot) (by decide)
    dsimp only
    rw [body,if_neg some_,listed]
    dsimp only
    refine congrArg Except.ok ?_
    rw [pieces,List.map_cons,Instruction.intercalateTrail,piecesAtTrail]
    · have behind : ∀ s, Text.trim (String.ofList (' ' :: (registerText s).toList)) = registerText s := by
        intro s
        rw [Text.trim,String.toList_ofList]
        exact (congrArg String.ofList (registerSolid s).1).trans String.ofList_toList
      have first : Text.trim (registerText r) = registerText r :=
        (congrArg String.ofList (registerSolid r).1).trans String.ofList_toList
      simp only [List.map_cons,List.map_map,String.ofList_toList,first]
      exact congrArg (_ :: ·) (List.map_congr_left fun s _ => behind s)
    · intro t member c inside
      obtain ⟨s,rfl⟩ := texts t member
      have plain := Instruction.registerPlain s c inside
      exact beq_eq_false_iff_ne.mpr (bne_iff_ne.mp plain)

end Assembly

/-! ### Strings -/

namespace Text.Quoted

open Assembly

theorem digitsUncut {d : Int} {cs ds : List Char} (digits : ∀ c ∈ cs, isDigit c = true)
    (uncut : Uncut d true ds) : Uncut d true (cs ++ ds) := by
  induction cs with
  | nil => exact uncut
  | cons c cs ih =>
    obtain ⟨digit,later⟩ := List.forall_mem_cons.mp digits
    refine .inside ?_ ?_ (ih later) <;> rintro rfl <;> exact absurd digit (by decide)

theorem charUncut {d : Int} {ds : List Char} (c : Char) (uncut : Uncut d true ds) :
    Uncut d true (escapeChar '"' c ++ ds) := by
  unfold escapeChar
  split
  · exact .escape uncut
  · rename_i ordinary
    obtain ⟨quote,slash⟩ := not_or.mp ordinary
    split
    · exact .inside quote slash uncut
    · split
      · exact .escape uncut
      · split
        · exact .escape (digitsUncut (hexFilledDigits _ _) uncut)
        · split <;> exact .escape (digitsUncut (hexFilledDigits _ _) uncut)

theorem unitUncut {d : Int} {ds : List Char} (u : Unit8) (uncut : Uncut d true ds) :
    Uncut d true (escapeUnit '"' u ++ ds) := by
  cases u with
  | char c => exact charUncut c uncut
  | stray b => exact .escape (digitsUncut (hexFilledDigits _ _) uncut)

theorem digitsLine {cs : List Char} (digits : ∀ c ∈ cs, isDigit c = true) : '\n' ∉ cs :=
  fun member => absurd (digits _ member) (by decide)

theorem charLine (c : Char) : '\n' ∉ escapeChar '"' c := by
  unfold escapeChar
  split
  · rename_i special
    rcases special with rfl | rfl <;> decide
  · split
    · rename_i printable
      intro member
      rw [← List.mem_singleton.mp member] at printable
      exact absurd printable (by decide +kernel)
    · split
      · rename_i l short
        unfold shortEscape? at short
        intro member
        have same : '\n' = l := by simpa using member
        subst same
        split at short <;> contradiction
      · have digits := fun width => digitsLine (hexFilledDigits width c.toNat)
        split
        · simp [digits]
        · split <;> simp [digits]

theorem unitLine (u : Unit8) : '\n' ∉ escapeUnit '"' u := by
  cases u with
  | char c => exact charLine c
  | stray b =>
    have digits := digitsLine (hexFilledDigits 2 b.toNat)
    simp [escapeUnit,digits]

theorem ofBytesPiece (bs : Bytes) : Piece (ofBytes bs).toList ∧ '\n' ∉ (ofBytes bs).toList := by
  have inside : ∀ us : List Unit8, Uncut 0 true (us.flatMap (escapeUnit '"') ++ ['"']) := by
    intro us
    induction us with
    | nil => exact .closing .nil
    | cons u us ih =>
      rw [List.flatMap_cons,List.append_assoc]
      exact unitUncut u ih
  rw [ofBytes,String.toList_ofList]
  refine ⟨⟨.opening (inside _),trimEnds (fun c first => ?_) fun c last => ?_⟩,?_⟩
  · cases first
    rfl
  · rw [List.getLast?_concat] at last
    cases last
    rfl
  · intro member
    rcases List.mem_cons.mp member with same | member
    · exact absurd same (by decide)
    · rcases List.mem_append.mp member with unit | last
      · obtain ⟨u,-,member⟩ := List.mem_flatMap.mp unit
        exact unitLine u member
      · exact absurd last (by decide)

end Text.Quoted

end RegCode
