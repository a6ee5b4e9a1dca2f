import RegCode.Text.Quoted
import RegCode.Proofs.Text.Bytes
import RegCode.Proofs.Text.Numerals

/-! Byte strings in quotes read back as they were. -/
namespace RegCode.Text

theorem digitValueOfDigit {c : Char} (digit : isDigit c = true) :
    ∃ d < 16, digitValue? c = some d := by
  unfold isDigit at digit
  unfold digitValue?
  simp only [Bool.or_eq_true,Bool.and_eq_true,decide_eq_true_eq] at digit
  dsimp only
  rcases digit with low | high
  · exact ⟨c.toNat - 48,by omega,by rw [if_pos low]⟩
  · exact ⟨c.toNat - 87,by omega,by rw [if_neg (by omega),if_pos (by omega)]⟩

theorem readDigitsOf {cs : List Char} (some_ : cs ≠ []) (digits : ∀ c ∈ cs, isDigit c = true) :
    readDigits? 16 cs = some (readOn 16 0 cs) := by
  have read : ∀ n, cs.foldlM (fun acc c => do
      let d ← digitValue? c
      if d < 16 then some (acc * 16 + d) else none) n = some (readOn 16 n cs) := by
    clear some_
    induction cs with
    | nil => exact fun n => rfl
    | cons c cs ih =>
      intro n
      obtain ⟨d,small,value⟩ := digitValueOfDigit (digits c (List.mem_cons_self ..))
      rw [List.foldlM_cons,value]
      show (if d < 16 then some (n * 16 + d) else none) >>= _ = _
      rw [if_pos small]
      refine Eq.trans (Option.bind_some ..) ?_
      rw [ih (fun x member => digits x (List.mem_cons_of_mem c member)),readOn,readOn,List.foldl_cons,
        value,Option.getD_some,Nat.mul_comm]
  unfold readDigits?
  split
  · contradiction
  · exact read 0

theorem digitsOntoLength {base : Nat} (fuel n width : Nat) (acc : List Char)
    (positive : 0 < width) (small : n < base ^ width) :
    (digitsOnto base fuel n acc).length ≤ width + acc.length := by
  induction fuel generalizing n width acc with
  | zero => exact Nat.le_add_left _ _
  | succ fuel ih =>
    rw [digitsOnto]
    split
    · rw [List.length_cons]
      omega
    · rename_i more
      obtain ⟨w,rfl⟩ := Nat.exists_eq_add_of_lt positive
      rw [Nat.zero_add] at *
      have further : 0 < w := by
        refine Nat.pos_of_ne_zero fun none => more ?_
        subst none
        exact Nat.div_eq_of_lt (by simpa using small)
      have := ih (n / base) w (digitChar (n % base) :: acc) further
        (Nat.div_lt_of_lt_mul (by rwa [Nat.pow_succ'] at small))
      rw [List.length_cons] at this
      omega

theorem hexFilledLength {width n : Nat} (positive : 0 < width) (small : n < 16 ^ width) :
    (hexFilled width n).toList.length = width := by
  have short := digitsOntoLength (n + 1).log2.succ n width [] positive small
  rw [hexFilled,String.toList_ofList,List.length_append,List.length_replicate]
  rw [List.length_nil] at short
  exact Nat.sub_add_cancel short

namespace Quoted

theorem takeHexFilled (width : Nat) {n : Nat} (positive : 0 < width) (small : n < 16 ^ width)
    (rest : List Char) : takeHex? width ((hexFilled width n).toList ++ rest) = some (n,rest) := by
  have length := hexFilledLength positive small
  have some_ : (hexFilled width n).toList ≠ [] := fun none => by
    rw [none] at length
    exact absurd length.symm (Nat.ne_of_gt positive)
  rw [takeHex?,if_neg (by rw [List.length_append,length]; omega),
    List.take_left' length,List.drop_left' length,readDigitsOf some_ (hexFilledDigits width n),
    readHexFilled]
  rfl

theorem bodyEscape {cs rest : List Char} {bs : Bytes} (read : escape? '"' cs = some (bs,rest)) :
    body? '"' ('\\' :: cs) = (body? '"' rest).map fun (more,tail) => (bs ++ more,tail) := by
  rw [body?,if_neg (by decide),if_neg (by decide),if_pos rfl]
  split
  · rename_i none
    rw [read] at none
    contradiction
  · rename_i read'
    obtain ⟨rfl,rfl⟩ := Prod.mk.inj (Option.some.inj (read.symm.trans read'))
    rfl

theorem bodyPlain {c : Char} {cs : List Char} (quote : c ≠ '"') (slash : c ≠ '\\') (line : c ≠ '\n') :
    body? '"' (c :: cs) = (body? '"' cs).map fun (more,tail) => (charBytes c ++ more,tail) := by
  rw [body?,if_neg quote,if_neg line,if_neg slash]

theorem shortEscapeReads {c l : Char} (short : shortEscape? c = some l) (cs : List Char) :
    escape? '"' (l :: cs) = some (charBytes c,cs) := by
  have byte : ∀ n : Nat, n < 0x80 → c.toNat = n → charBytes c = [n.toUInt8] := by
    rintro n small rfl
    rw [charBytes,if_pos small]
  unfold shortEscape? at short
  split at short <;> first
    | contradiction
    | rename_i number
      obtain rfl := Option.some.inj short
      rw [byte _ (by decide) number]
      rfl

theorem hexEscapeReads {n : Nat} (small : n < 256) (cs : List Char) :
    escape? '"' ('x' :: ((hexFilled 2 n).toList ++ cs)) = some ([n.toUInt8],cs) := by
  rw [escape?,takeHexFilled 2 (by decide) small,Option.map_some]

theorem codeEscapeReads (c : Char) (cs : List Char) :
    (c.toNat < 0x10000 →
      escape? '"' ('u' :: ((hexFilled 4 c.toNat).toList ++ cs)) = some (charBytes c,cs)) ∧
    escape? '"' ('U' :: ((hexFilled 8 c.toNat).toList ++ cs)) = some (charBytes c,cs) := by
  constructor
  · intro small
    show (takeHex? 4 ((hexFilled 4 c.toNat).toList ++ cs) >>= _) = _
    rw [takeHexFilled 4 (by decide) small]
    refine (Option.bind_some ..).trans ?_
    exact (if_pos c.valid).trans (by rw [Char.ofNat_toNat])
  · have range := charRange c
    show (takeHex? 8 ((hexFilled 8 c.toNat).toList ++ cs) >>= _) = _
    rw [takeHexFilled 8 (by decide) (by omega)]
    refine (Option.bind_some ..).trans ?_
    exact (if_pos c.valid).trans (by rw [Char.ofNat_toNat])

theorem bodyChar (c : Char) (cs : List Char) :
    body? '"' (escapeChar '"' c ++ cs) =
      (body? '"' cs).map fun (more,tail) => (charBytes c ++ more,tail) := by
  unfold escapeChar
  split
  · rename_i special
    refine bodyEscape ?_
    rcases special with rfl | rfl <;> rfl
  · rename_i ordinary
    obtain ⟨quote,slash⟩ := not_or.mp ordinary
    split
    · rename_i printable
      refine bodyPlain quote slash ?_
      rintro rfl
      exact absurd printable (by decide +kernel)
    · split
      · rename_i l short
        exact bodyEscape (shortEscapeReads short cs)
      · split
        · rename_i control
          have byte : charBytes c = [c.toNat.toUInt8] := by rw [charBytes,if_pos (by omega)]
          rw [byte]
          exact bodyEscape (hexEscapeReads (by omega) cs)
        · split
          · rename_i small
            exact bodyEscape ((codeEscapeReads c cs).1 small)
          · exact bodyEscape (codeEscapeReads c cs).2

theorem bodyUnit (u : Unit8) (cs : List Char) :
    body? '"' (escapeUnit '"' u ++ cs) =
      (body? '"' cs).map fun (more,tail) => (u.bytes ++ more,tail) := by
  cases u with
  | char c => exact bodyChar c cs
  | stray b =>
    have read := hexEscapeReads b.toNat_lt cs
    rw [byteOfNat rfl] at read
    exact bodyEscape read

theorem decodeOfBytes (bs : Bytes) : decode? (ofBytes bs) = some bs := by
  have read : ∀ us : List Unit8,
      body? '"' (us.flatMap (escapeUnit '"') ++ ['"']) = some (us.flatMap Unit8.bytes,[]) := by
    intro us
    induction us with
    | nil =>
      rw [List.flatMap_nil,List.nil_append,body?,if_pos rfl]
      rfl
    | cons u us ih =>
      rw [List.flatMap_cons,List.append_assoc,bodyUnit,ih]
      rfl
  unfold decode? ofBytes
  rw [String.toList_ofList]
  simp only [List.cons_append,read,unitsBytes]

theorem ofBytesInj {as bs : Bytes} (same : ofBytes as = ofBytes bs) : as = bs :=
  Option.some.inj ((decodeOfBytes as).symm.trans (same ▸ decodeOfBytes bs))

end Quoted
end RegCode.Text
