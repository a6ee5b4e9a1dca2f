import RegCode.Decimal
import RegCode.Descriptor
import RegCode.Proofs.Assembly.Formed

/-! Texts without a line break, and what leaves them so: putting them together, cutting them up, writing
numbers and quoting. -/
namespace RegCode

namespace Text

def OneLine (s : String) : Prop := '\n' ∉ s.toList

instance (s : String) : Decidable (OneLine s) := inferInstanceAs (Decidable (_ ∉ _))

variable {s t : String} {cs ds : List Char}

@[simp] theorem oneLineAppend : OneLine (s ++ t) ↔ OneLine s ∧ OneLine t := by
  simp [OneLine]

@[simp] theorem oneLineOfList : OneLine (String.ofList cs) ↔ '\n' ∉ cs := by
  simp [OneLine]

theorem OneLine.subset (line : OneLine s) (within : cs ⊆ s.toList) : OneLine (String.ofList cs) :=
  oneLineOfList.mpr fun member => line (within member)

theorem oneLineJoin {ss : List String} (lines : ∀ s ∈ ss, OneLine s) : OneLine (String.join ss) := by
  simpa [OneLine] using lines

theorem oneLineCopies (n : Nat) (line : OneLine s) : OneLine (copies n s) :=
  oneLineJoin fun _ member => List.eq_of_mem_replicate member ▸ line

theorem oneLineIntercalate {ss : List String} (gap : OneLine t) (lines : ∀ s ∈ ss, OneLine s) :
    OneLine (t.intercalate ss) := by
  rw [OneLine,String.toList_intercalate]
  induction ss with
  | nil => exact List.not_mem_nil
  | cons s ss ih =>
    obtain ⟨here,later⟩ := List.forall_mem_cons.mp lines
    cases ss with
    | nil => simpa [OneLine] using here
    | cons _ _ =>
      rw [List.map_cons,List.map_cons,List.intercalate_cons_cons]
      simp only [List.mem_append,not_or]
      exact ⟨⟨here,gap⟩,ih later⟩

theorem oneLineStrip {p : String} (line : OneLine s) (cut : stripStart? p s = some t) : OneLine t := by
  obtain ⟨rest,stripped,rfl⟩ := Option.map_eq_some_iff.mp cut
  exact line.subset (stripStartSome stripped ▸ List.subset_append_right ..)

theorem oneLineStripStart (p : String) (line : OneLine s) : OneLine (stripStart p s) := by
  unfold stripStart
  cases cut : stripStart? p s with
  | none => exact line
  | some t => exact oneLineStrip line cut

theorem oneLineStripEnd {p : String} (line : OneLine s) (cut : stripEnd? p s = some t) : OneLine t := by
  obtain ⟨rest,stripped,rfl⟩ := Option.map_eq_some_iff.mp cut
  refine line.subset fun c member => ?_
  have whole := stripStartSome stripped
  exact List.mem_reverse.mp (whole ▸ List.mem_append_right _ (List.mem_reverse.mp member))

theorem oneLineCutLast {c : Char} {a b : String} (line : OneLine s) (parts : cutAtLast? c s = some (a,b)) :
    OneLine a ∧ OneLine b := by
  obtain ⟨⟨x,d,y⟩,found,same⟩ := Option.map_eq_some_iff.mp parts
  cases same
  have whole : '\n' ∉ x ++ d :: y := by
    rw [← Descriptor.cutWhere?_eq found,List.mem_reverse]
    exact line
  simp only [List.mem_append,List.mem_cons,not_or] at whole
  simp [whole.1,whole.2.2]

section
variable {sep : Char → Bool}

theorem piecesNonempty (sep : Char → Bool) (cs : List Char) : piecesAt sep cs ≠ [] := by
  cases cs with
  | nil => exact List.cons_ne_nil _ _
  | cons c cs =>
    rw [piecesAt]
    split
    · exact List.cons_ne_nil _ _
    · split <;> exact List.cons_ne_nil _ _

theorem piecesFree (cs : List Char) : ∀ p ∈ piecesAt sep cs, ∀ c ∈ p, sep c = false := by
  induction cs with
  | nil => exact List.forall_mem_singleton.mpr fun _ member => absurd member List.not_mem_nil
  | cons c cs ih =>
    obtain ⟨p,ps,rest⟩ := List.exists_cons_of_ne_nil (piecesNonempty sep cs)
    rw [rest] at ih
    rw [piecesAt,rest]
    dsimp only
    split
    · exact List.forall_mem_cons.mpr ⟨fun _ member => absurd member List.not_mem_nil,ih⟩
    · rename_i other
      obtain ⟨first,later⟩ := List.forall_mem_cons.mp ih
      exact List.forall_mem_cons.mpr
        ⟨List.forall_mem_cons.mpr ⟨Bool.eq_false_iff.mpr other,first⟩,later⟩

theorem oneLinePieces (s : String) : ∀ p ∈ pieces '\n' s, OneLine p := by
  refine List.forall_mem_map.mpr fun p member => oneLineOfList.mpr fun break_ => ?_
  exact absurd (piecesFree _ p member _ break_) (by decide)

theorem runsFree {acc cs : List Char} (plain : ∀ c ∈ acc, sep c = false) :
    ∀ r ∈ runsOutside sep acc cs, ∀ c ∈ r, sep c = false := by
  have taken : ∀ {acc : List Char}, (∀ c ∈ acc, sep c = false) → ∀ c ∈ acc.reverse, sep c = false :=
    fun plain c member => plain c (List.mem_reverse.mp member)
  fun_induction runsOutside sep acc cs with
  | case1 => exact nofun
  | case2 acc some => exact List.forall_mem_singleton.mpr (taken plain)
  | case3 c rest blank ih => exact ih plain
  | case4 c rest blank d ds ih =>
    exact List.forall_mem_cons.mpr ⟨taken plain,ih fun _ member => absurd member List.not_mem_nil⟩
  | case5 acc c rest other ih =>
    exact ih (List.forall_mem_cons.mpr ⟨Bool.eq_false_iff.mpr other,plain⟩)

theorem oneLineWords (s : String) : ∀ w ∈ words s, OneLine w := by
  refine List.forall_mem_map.mpr fun r member => oneLineOfList.mpr fun break_ => ?_
  exact absurd (runsFree (fun _ none => absurd none List.not_mem_nil) r member _ break_) (by decide)

end

theorem oneLineNumeral (numeral : ∀ c ∈ s.toList, isNumeral c = true) : OneLine s :=
  fun member => absurd (numeral _ member) (by decide)

@[simp] theorem oneLineInt (x : Int) : OneLine (intText x) := oneLineNumeral (intTextNumeral x)

@[simp] theorem oneLineOffset (x : Int) : OneLine (offsetText x) := oneLineNumeral (offsetTextNumeral x)

theorem oneLineDigits (digits : ∀ c ∈ cs, isDigit c = true) : '\n' ∉ cs :=
  fun member => absurd (digits _ member) (by decide)

@[simp] theorem oneLineNat (n : Nat) : OneLine (natText n) := oneLineDigits (natTextDigits n)

@[simp] theorem oneLineHex (n : Nat) : OneLine (hexText n) := oneLineDigits (hexTextDigits n)

@[simp] theorem oneLineLiteral (x : Int) : OneLine (literalText x) := by
  unfold literalText
  split <;> simp +decide

end Text

open Text

namespace Decimal

variable {ds : List Char}

theorem exponentialLine (digits : '\n' ∉ ds) (exp : Int) : OneLine (Layout.exponential ds exp) := by
  have exponent : OneLine (if (natText exp.natAbs).length < 2 then "0" ++ natText exp.natAbs
      else natText exp.natAbs) := by
    split <;> simp +decide
  have sign : OneLine (if exp < 0 then "e-" else "e+") := by split <;> decide
  unfold Layout.exponential
  dsimp only
  refine oneLineAppend.mpr ⟨oneLineAppend.mpr ⟨?_,sign⟩,exponent⟩
  split
  · decide
  · exact oneLineOfList.mpr digits
  · rw [oneLineOfList]
    simpa using digits

theorem positionalLine (digits : '\n' ∉ ds) (point : Int) : OneLine (Layout.positional ds point) := by
  have front : '\n' ∉ ds.take point.toNat := fun member => digits (List.mem_of_mem_take member)
  have back : '\n' ∉ ds.drop point.toNat := fun member => digits (List.mem_of_mem_drop member)
  unfold Layout.positional
  split
  · rw [oneLineOfList]
    simp [digits]
  · dsimp only
    rw [oneLineOfList]
    split <;> simp [front,back]

theorem textLine (l : Layout) (f : Format) (bits : Nat) : OneLine (text l f bits) := by
  have digits : ∀ n, '\n' ∉ dropTrailingZeros (natDigits 10 n) := by
    intro n member
    have inside := List.dropWhile_subset _ (List.mem_reverse.mp member)
    exact oneLineDigits (natDigitsDigits (by decide) (by decide) n) (List.mem_reverse.mp inside)
  unfold text
  split
  · decide
  · split <;> decide
  · refine oneLineAppend.mpr ⟨by split <;> decide,?_⟩
    split
    · decide
    · unfold Layout.render
      dsimp only
      split
      · exact exponentialLine (digits _) _
      · exact positionalLine (digits _) _

end Decimal

namespace Text.Quoted

theorem escapeLine {quote : Char} (other : quote ≠ '\n') (c : Char) : '\n' ∉ escapeChar quote c := by
  have hex : ∀ width n, '\n' ∉ (hexFilled width n).toList := fun width n =>
    oneLineDigits (hexFilledDigits width n)
  unfold escapeChar
  split
  · rename_i special
    rcases special with rfl | rfl
    · simp [other.symm]
    · decide
  · split
    · rename_i printable
      intro member
      rw [← List.mem_singleton.mp member] at printable
      exact absurd printable (by decide +kernel)
    · split
      · rename_i l short
        unfold shortEscape? at short
        split at short <;> first
          | contradiction
          | cases short
            decide
      · split
        · simp [hex]
        · split <;> simp [hex]

theorem ofBytesLine (bs : Bytes) : OneLine (ofBytes bs) := by
  unfold ofBytes
  simp only [oneLineOfList,List.cons_append,List.mem_cons,List.mem_append,List.mem_flatMap,not_or]
  refine ⟨by decide,?_,by decide⟩
  rintro ⟨u,-,member⟩
  cases u with
  | char c => exact escapeLine (by decide) c member
  | stray b =>
    have hex : '\n' ∉ (hexFilled 2 b.toNat).toList := oneLineDigits (hexFilledDigits 2 b.toNat)
    simp [escapeUnit,hex] at member

theorem encodeCharLine (c : Char) : OneLine (encodeChar c) := by
  unfold encodeChar
  rw [oneLineOfList]
  simp [escapeLine]

end Text.Quoted

namespace Descriptor

variable {t : String}

theorem classNameLine (line : OneLine t) : OneLine (className t) := by
  have inner : OneLine ((stripStart? "L" t >>= stripEnd? ";").getD t) := by
    cases cut : stripStart? "L" t >>= stripEnd? ";" with
    | none => exact line
    | some u =>
      obtain ⟨v,front,back⟩ := Option.bind_eq_some_iff.mp cut
      exact oneLineStripEnd (oneLineStrip line front) back
  unfold className replaceChar
  dsimp only
  rw [oneLineOfList,List.mem_map]
  rintro ⟨c,member,made⟩
  split at made
  · contradiction
  · exact inner (made ▸ member)

theorem simpleNameLine (line : OneLine t) : OneLine (simpleName t) := by
  have later : ∀ (c : Char) {s : String}, OneLine s →
      OneLine (((cutAtLast? c s).map Prod.snd).getD s) := by
    intro c s line
    cases cut : cutAtLast? c s with
    | none => exact line
    | some parts => exact (oneLineCutLast line cut).2
  unfold simpleName
  exact later '$' (later '.' (classNameLine line))

theorem elementNameLine (line : OneLine t) : OneLine (elementName t) := by
  unfold elementName
  split
  · rename_i c chars
    cases name : primitiveName? c with
    | none => exact line
    | some s =>
      rw [Option.getD_some]
      unfold primitiveName? at name
      split at name <;> first
        | contradiction
        | cases name
          decide
  · split
    · dsimp only
      split
      · rename_i short cut
        split
        · exact classNameLine line
        · exact oneLineStrip (classNameLine line) cut
      · exact classNameLine line
    · exact line

theorem sourceNameLine (line : OneLine t) : OneLine (sourceName t) := by
  unfold sourceName
  split
  · decide
  · refine oneLineAppend.mpr ⟨elementNameLine ?_,oneLineCopies _ (by decide)⟩
    exact line.subset (List.dropWhile_subset _)

end Descriptor

end RegCode
