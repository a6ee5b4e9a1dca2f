import RegCode.Text.Numeral
import Mathlib.Algebra.Group.Nat.Defs
import Mathlib.Tactic.Common

/-! Numerals read back. What is written for a number is made of digits and a sign, and no two numbers
are written the same. -/
namespace RegCode.Text

def readOn (base n : Nat) (cs : List Char) : Nat :=
  cs.foldl (fun n c => base * n + (digitValue? c).getD 0) n

theorem digitValueOfChar {d : Nat} (small : d < 16) : digitValue? (digitChar d) = some d := by
  have all : ∀ d < 16, digitValue? (digitChar d) = some d := by decide
  exact all d small

variable {base : Nat}

theorem readDigitsOnto (least : 2 ≤ base) (most : base ≤ 16) (fuel n : Nat) (acc : List Char)
    (enough : n < base ^ fuel) : readOn base 0 (digitsOnto base fuel n acc) = readOn base n acc := by
  induction fuel generalizing n acc with
  | zero =>
    obtain rfl : n = 0 := by simpa using enough
    rfl
  | succ fuel ih =>
    have digit := digitValueOfChar (Nat.lt_of_lt_of_le (Nat.mod_lt n (Nat.lt_of_lt_of_le Nat.two_pos least)) most)
    have whole := Nat.div_add_mod n base
    rw [digitsOnto]
    split
    · rename_i last
      rw [readOn,List.foldl_cons,digit,Option.getD_some,Nat.mul_zero,Nat.zero_add]
      rw [last,Nat.mul_zero,Nat.zero_add] at whole
      rw [whole]
      rfl
    · rw [ih _ _ (Nat.div_lt_of_lt_mul (by rwa [Nat.pow_succ'] at enough)),readOn,List.foldl_cons,digit,
        Option.getD_some,whole]
      rfl

theorem readNatDigits (least : 2 ≤ base) (most : base ≤ 16) (n : Nat) :
    readOn base 0 (natDigits base n) = n := by
  refine readDigitsOnto least most _ n [] (Nat.lt_of_lt_of_le (Nat.lt_of_succ_lt Nat.lt_log2_self) ?_)
  exact Nat.pow_le_pow_left least _

theorem digitsOntoDigits (least : 2 ≤ base) (fuel n : Nat) (acc : List Char) :
    ∀ c ∈ digitsOnto base fuel n acc, c ∈ acc ∨ ∃ d < base, c = digitChar d := by
  induction fuel generalizing n acc with
  | zero => exact fun c member => .inl member
  | succ fuel ih =>
    have digit : ∀ c ∈ digitChar (n % base) :: acc, c ∈ acc ∨ ∃ d < base, c = digitChar d := by
      intro c member
      rcases List.mem_cons.mp member with rfl | member
      · exact .inr ⟨_,Nat.mod_lt n (by omega),rfl⟩
      · exact .inl member
    rw [digitsOnto]
    split
    · exact digit
    · intro c member
      exact (ih _ _ c member).elim (digit c) .inr

def isDigit (c : Char) : Bool := (48 ≤ c.toNat && c.toNat ≤ 57) || (97 ≤ c.toNat && c.toNat ≤ 102)

theorem natDigitsDigits (least : 2 ≤ base) (most : base ≤ 16) (n : Nat) :
    ∀ c ∈ natDigits base n, isDigit c = true := by
  intro c member
  have all : ∀ d < 16, isDigit (digitChar d) = true := by decide
  obtain ⟨d,small,rfl⟩ := (digitsOntoDigits least _ _ _ c member).resolve_left List.not_mem_nil
  exact all d (Nat.lt_of_lt_of_le small most)

theorem digitsOntoNonempty (fuel n : Nat) {acc : List Char} (some : acc ≠ []) :
    digitsOnto base fuel n acc ≠ [] := by
  induction fuel generalizing n acc with
  | zero => exact some
  | succ fuel ih =>
    rw [digitsOnto]
    split
    · exact List.cons_ne_nil _ _
    · exact ih _ (List.cons_ne_nil _ _)

theorem natDigitsNonempty (n : Nat) : natDigits base n ≠ [] := by
  rw [natDigits,digitsOnto]
  split
  · exact List.cons_ne_nil _ _
  · exact digitsOntoNonempty _ _ (List.cons_ne_nil _ _)

theorem natTextInj {m n : Nat} (same : natText m = natText n) : m = n := by
  have read : ∀ n, readOn 10 0 (natDigits 10 n) = n := readNatDigits (by decide) (by decide)
  rw [← read m,← read n,String.ofList_injective same]

theorem natTextDigits (n : Nat) : ∀ c ∈ (natText n).toList, isDigit c = true := by
  rw [natText,String.toList_ofList]
  exact natDigitsDigits (by decide) (by decide) n

theorem hexTextInj {m n : Nat} (same : hexText m = hexText n) : m = n := by
  have read : ∀ n, readOn 16 0 (natDigits 16 n) = n := readNatDigits (by decide) (by decide)
  rw [← read m,← read n,String.ofList_injective same]

theorem hexTextDigits (n : Nat) : ∀ c ∈ (hexText n).toList, isDigit c = true := by
  rw [hexText,String.toList_ofList]
  exact natDigitsDigits (by decide) (by decide) n

theorem readZeros (k : Nat) (cs : List Char) :
    readOn 16 0 (List.replicate k '0' ++ cs) = readOn 16 0 cs := by
  induction k with
  | zero => rfl
  | succ k ih => exact ih

theorem readHexFilled (width n : Nat) : readOn 16 0 (hexFilled width n).toList = n := by
  rw [hexFilled,String.toList_ofList,readZeros,readNatDigits (by decide) (by decide)]

theorem hexFilledInj {width m n : Nat} (same : hexFilled width m = hexFilled width n) : m = n := by
  rw [← readHexFilled width m,same,readHexFilled]

theorem hexFilledDigits (width n : Nat) : ∀ c ∈ (hexFilled width n).toList, isDigit c = true := by
  intro c member
  rw [hexFilled,String.toList_ofList] at member
  rcases List.mem_append.mp member with zero | digit
  · rw [(List.mem_replicate.mp zero).2]
    rfl
  · exact natDigitsDigits (by decide) (by decide) n c digit

theorem signInj (minus plus : Nat → String) (minusInj : ∀ m n, minus m = minus n → m = n)
    (plusInj : ∀ m n, plus m = plus n → m = n) (unsigned : ∀ n, '-' ∉ (plus n).toList) {x y : Int}
    (same : (if x < 0 then "-" ++ minus x.natAbs else plus x.natAbs) =
      if y < 0 then "-" ++ minus y.natAbs else plus y.natAbs) : x = y := by
  have apart : ∀ m n, "-" ++ minus m ≠ plus n := by
    intro m n same
    refine unsigned n ?_
    rw [← same,String.toList_append]
    exact List.mem_append_left _ (List.mem_singleton_self '-')
  split at same <;> split at same
  · have := minusInj _ _ ((String.append_right_inj _).mp same)
    omega
  · exact absurd same (apart _ _)
  · exact absurd same.symm (apart _ _)
  · have := plusInj _ _ same
    omega

theorem unsignedDigits {s : String} (digits : ∀ c ∈ s.toList, isDigit c = true) : '-' ∉ s.toList :=
  fun member => absurd (digits '-' member) (by decide)

theorem intTextInj {x y : Int} (same : intText x = intText y) : x = y :=
  signInj _ _ (fun _ _ => natTextInj) (fun _ _ => natTextInj) (fun n => unsignedDigits (natTextDigits n)) same

theorem offsetTextInj {x y : Int} (same : offsetText x = offsetText y) : x = y :=
  signInj _ _ (fun _ _ => hexFilledInj) (fun _ _ => hexFilledInj)
    (fun n => unsignedDigits (hexFilledDigits 4 n)) same

theorem literalTextInj {x y : Int} (same : literalText x = literalText y) : x = y := by
  have sign : ∀ t : String, "-0x" ++ t = "-" ++ ("0x" ++ t) := fun t =>
    (congrArg (· ++ t) (by decide : "-0x" = "-" ++ "0x")).trans String.append_assoc
  unfold literalText at same
  rw [sign,sign] at same
  refine signInj (fun n => "0x" ++ hexText n) (fun n => "0x" ++ hexText n) ?_ ?_ ?_ same
  · exact fun m n same => hexTextInj ((String.append_right_inj _).mp same)
  · exact fun m n same => hexTextInj ((String.append_right_inj _).mp same)
  · intro n member
    rw [String.toList_append] at member
    rcases List.mem_append.mp member with head | tail
    · exact absurd head (by decide)
    · exact unsignedDigits (hexTextDigits n) tail

def isNumeral (c : Char) : Bool := isDigit c || c == '-'

theorem signedNumeral {minus plus : String} (negative : Prop) [Decidable negative]
    (minusDigits : ∀ c ∈ minus.toList, isDigit c = true)
    (plusDigits : ∀ c ∈ plus.toList, isDigit c = true) :
    ∀ c ∈ (if negative then "-" ++ minus else plus).toList, isNumeral c = true := by
  intro c member
  split at member
  · rw [String.toList_append] at member
    rcases List.mem_append.mp member with sign | digit
    · rw [List.mem_singleton.mp sign]
      rfl
    · rw [isNumeral,minusDigits c digit,Bool.true_or]
  · rw [isNumeral,plusDigits c member,Bool.true_or]

theorem intTextNumeral (x : Int) : ∀ c ∈ (intText x).toList, isNumeral c = true :=
  signedNumeral _ (natTextDigits _) (natTextDigits _)

theorem offsetTextNumeral (x : Int) : ∀ c ∈ (offsetText x).toList, isNumeral c = true :=
  signedNumeral _ (hexFilledDigits _ _) (hexFilledDigits _ _)

theorem spanInj {α : Type} {p : α → Bool} {a b c d : List α} (first : ∀ x ∈ a, p x = true)
    (second : ∀ x ∈ b, p x = true) (stop : ∀ x ∈ c.head?, p x = false)
    (stop' : ∀ x ∈ d.head?, p x = false) (same : a ++ c = b ++ d) : a = b ∧ c = d := by
  have none : ∀ e : List α, (∀ x ∈ e.head?, p x = false) → e.takeWhile p = [] := by
    intro e stops
    cases e with
    | nil => rfl
    | cons x e => rw [List.takeWhile_cons,stops x rfl]; rfl
  have taken := congrArg (List.takeWhile p) same
  rw [List.takeWhile_append_of_pos first,List.takeWhile_append_of_pos second,none c stop,none d stop',
    List.append_nil,List.append_nil] at taken
  exact ⟨taken,List.append_cancel_left (taken ▸ same)⟩

theorem hexFilledNonempty (width n : Nat) : (hexFilled width n).toList ≠ [] := by
  intro none
  rw [hexFilled,String.toList_ofList] at none
  exact natDigitsNonempty n (List.append_eq_nil_iff.mp none).2

theorem offsetTextNonempty (x : Int) : (offsetText x).toList ≠ [] := by
  unfold offsetText
  split
  · rw [String.toList_append]
    exact fun none => hexFilledNonempty _ _ (List.append_eq_nil_iff.mp none).2
  · exact hexFilledNonempty _ _

theorem offsetDashInj {x y : Int} {c d : List Char}
    (same : (offsetText x).toList ++ '-' :: c = (offsetText y).toList ++ '-' :: d) : x = y ∧ c = d := by
  have stop : ∀ e : List Char, ∀ x ∈ ('-' :: e).head?, isDigit x = false := by
    rintro e x ⟨⟩
    rfl
  have unsigned : ∀ width n (e f : List Char), '-' :: e ≠ (hexFilled width n).toList ++ f := by
    intro width n e f same
    cases digits : (hexFilled width n).toList with
    | nil => exact hexFilledNonempty width n digits
    | cons a as =>
      have digit := hexFilledDigits width n a (digits ▸ List.mem_cons_self ..)
      rw [digits] at same
      rw [← (List.cons.inj same).1] at digit
      exact absurd digit (by decide)
  have magnitudes : ∀ width {m n : Nat}, (hexFilled width m).toList ++ '-' :: c =
      (hexFilled width n).toList ++ '-' :: d → m = n ∧ c = d := by
    intro width m n same
    obtain ⟨texts,rest⟩ :=
      spanInj (hexFilledDigits width m) (hexFilledDigits width n) (stop c) (stop d) same
    exact ⟨hexFilledInj (String.toList_injective texts),(List.cons.inj rest).2⟩
  have minus : ∀ s : String, ("-" ++ s).toList = '-' :: s.toList := fun s => String.toList_append
  unfold offsetText at same
  split at same <;> split at same
  · rw [minus,minus] at same
    have := magnitudes 3 (List.cons.inj same).2
    exact ⟨by omega,this.2⟩
  · rw [minus] at same
    exact absurd same (unsigned _ _ _ _)
  · rw [minus] at same
    exact absurd same.symm (unsigned _ _ _ _)
  · have := magnitudes 4 same
    exact ⟨by omega,this.2⟩

end RegCode.Text
