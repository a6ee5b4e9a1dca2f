import RegCode.Text.Utf8
import Mathlib.Tactic.Common

/-! Characters as bytes and back. The bytes of a character are read as that character, whatever
follows them, and what is read as a character is written with the same bytes. -/
namespace RegCode.Text

theorem toNatByte {n : Nat} (small : n < 256) : n.toUInt8.toNat = n := by
  simpa using Nat.mod_eq_of_lt small

theorem byteLt {a : UInt8} {n : Nat} (small : n < 256) : a < n.toUInt8 ↔ a.toNat < n := by
  rw [UInt8.lt_iff_toNat_lt,toNatByte small]

theorem byteLe {a : UInt8} {n : Nat} (small : n < 256) : n.toUInt8 ≤ a ↔ n ≤ a.toNat := by
  rw [UInt8.le_iff_toNat_le,toNatByte small]

theorem continuationIff {a : UInt8} {n : Nat} :
    continuation? a = some n ↔ a.toNat = 0x80 + n ∧ n < 64 := by
  unfold continuation?
  have low : (0x80 : UInt8) ≤ a ↔ 0x80 ≤ a.toNat := byteLe (n := 0x80) (by decide)
  have high : a < (0xC0 : UInt8) ↔ a.toNat < 0xC0 := byteLt (n := 0xC0) (by decide)
  simp only [low,high]
  split
  · rw [Option.some.injEq]
    omega
  · simp only [reduceCtorEq,false_iff]
    omega

theorem scalarIff {least n : Nat} {c : Char} :
    scalar? least n = some c ↔ c.toNat = n ∧ least ≤ n := by
  unfold scalar?
  split
  · rename_i fits
    rw [Option.some.injEq]
    constructor
    · rintro rfl
      exact ⟨by rw [Char.ofNat,dif_pos fits.2]; rfl,fits.1⟩
    · rintro ⟨rfl,-⟩
      exact Char.ofNat_toNat c
  · rename_i unfit
    simp only [reduceCtorEq,false_iff]
    rintro ⟨rfl,above⟩
    exact unfit ⟨above,c.valid⟩

theorem charRange (c : Char) : c.toNat < 0x110000 := by
  rcases c.valid with small | ⟨-,small⟩
  · exact Nat.lt_trans small (by decide)
  · exact small

theorem headCharCharBytes (c : Char) (rest : Bytes) :
    ∃ a more, charBytes c = a :: more ∧ headChar? (a :: more ++ rest) = some (c,more.length) := by
  have range := charRange c
  have ltLit : ∀ (a : UInt8), (a < 0x80 ↔ a.toNat < 0x80) ∧ (a < 0xE0 ↔ a.toNat < 0xE0) ∧
      (a < 0xF0 ↔ a.toNat < 0xF0) ∧ (a < 0xF8 ↔ a.toNat < 0xF8) := fun a =>
    ⟨byteLt (n := 0x80) (by decide),byteLt (n := 0xE0) (by decide),byteLt (n := 0xF0) (by decide),
      byteLt (n := 0xF8) (by decide)⟩
  have leLit : ∀ (a : UInt8), (0xC0 ≤ a ↔ 0xC0 ≤ a.toNat) ∧ (0xE0 ≤ a ↔ 0xE0 ≤ a.toNat) ∧
      (0xF0 ≤ a ↔ 0xF0 ≤ a.toNat) := fun a =>
    ⟨byteLe (n := 0xC0) (by decide),byteLe (n := 0xE0) (by decide),byteLe (n := 0xF0) (by decide)⟩
  unfold charBytes
  dsimp only
  split
  · rename_i small
    refine ⟨_,[],rfl,?_⟩
    have byte := toNatByte (n := c.toNat) (by omega)
    unfold headChar?
    simp only [List.cons_append,List.nil_append]
    rw [if_pos ((ltLit _).1.mpr (by omega)),byte,Char.ofNat_toNat]
    rfl
  · split
    · rename_i small
      refine ⟨_,[_],rfl,?_⟩
      have lead := toNatByte (n := 0xC0 + c.toNat / 64) (by omega)
      have next := continuationIff.mpr ⟨toNatByte (n := 0x80 + c.toNat % 64) (by omega),by omega⟩
      have whole : scalar? 0x80 ((0xC0 + c.toNat / 64 - 0xC0) * 64 + c.toNat % 64) = some c :=
        scalarIff.mpr (by omega)
      unfold headChar?
      simp only [List.cons_append,List.nil_append]
      rw [if_neg (by rw [(ltLit _).1]; omega),if_pos (by rw [(ltLit _).2.1,(leLit _).1]; omega)]
      simp only [List.getElem?_cons_zero,Option.bind_eq_bind,Option.bind_some,next,lead,whole]
      rfl
    · split
      · rename_i small
        refine ⟨_,[_,_],rfl,?_⟩
        have lead := toNatByte (n := 0xE0 + c.toNat / 4096) (by omega)
        have next := continuationIff.mpr
          ⟨toNatByte (n := 0x80 + c.toNat / 64 % 64) (by omega),by omega⟩
        have last := continuationIff.mpr ⟨toNatByte (n := 0x80 + c.toNat % 64) (by omega),by omega⟩
        have whole : scalar? 0x800 ((0xE0 + c.toNat / 4096 - 0xE0) * 4096 + c.toNat / 64 % 64 * 64 +
            c.toNat % 64) = some c := scalarIff.mpr (by omega)
        unfold headChar?
        simp only [List.cons_append,List.nil_append]
        rw [if_neg (by rw [(ltLit _).1]; omega),if_neg (by rw [(ltLit _).2.1,(leLit _).1]; omega),
          if_pos (by rw [(ltLit _).2.2.1,(leLit _).2.1]; omega)]
        simp only [List.getElem?_cons_zero,List.getElem?_cons_succ,Option.bind_eq_bind,Option.bind_some,
          next,last,lead,whole]
        rfl
      · refine ⟨_,[_,_,_],rfl,?_⟩
        have lead := toNatByte (n := 0xF0 + c.toNat / 262144) (by omega)
        have next := continuationIff.mpr
          ⟨toNatByte (n := 0x80 + c.toNat / 4096 % 64) (by omega),by omega⟩
        have third := continuationIff.mpr
          ⟨toNatByte (n := 0x80 + c.toNat / 64 % 64) (by omega),by omega⟩
        have last := continuationIff.mpr ⟨toNatByte (n := 0x80 + c.toNat % 64) (by omega),by omega⟩
        have whole : scalar? 0x10000 ((0xF0 + c.toNat / 262144 - 0xF0) * 262144 +
            c.toNat / 4096 % 64 * 4096 + c.toNat / 64 % 64 * 64 + c.toNat % 64) = some c :=
          scalarIff.mpr (by omega)
        unfold headChar?
        simp only [List.cons_append,List.nil_append]
        rw [if_neg (by rw [(ltLit _).1]; omega),if_neg (by rw [(ltLit _).2.1,(leLit _).1]; omega),
          if_neg (by rw [(ltLit _).2.2.1,(leLit _).2.1]; omega),
          if_pos (by rw [(ltLit _).2.2.2,(leLit _).2.2]; omega)]
        refine Option.bind_eq_some_iff.mpr ⟨_,next,?_⟩
        refine Option.bind_eq_some_iff.mpr ⟨_,third,?_⟩
        refine Option.bind_eq_some_iff.mpr ⟨_,last,?_⟩
        rw [lead,whole]
        rfl

theorem byteOfNat {a : UInt8} {n : Nat} (same : n = a.toNat) : n.toUInt8 = a := by
  subst same
  simp

theorem continuedIff {rest : Bytes} {i n : Nat} :
    (rest[i]? >>= continuation?) = some n ↔ ∃ b, rest[i]? = some b ∧ b.toNat = 0x80 + n ∧ n < 64 := by
  simp only [Option.bind_eq_bind,Option.bind_eq_some_iff,continuationIff]

theorem charBytesHeadChar {a : UInt8} {rest : Bytes} {c : Char} {k : Nat}
    (read : headChar? (a :: rest) = some (c,k)) :
    k ≤ rest.length ∧ charBytes c = a :: rest.take k := by
  have ltLit : (a < 0x80 ↔ a.toNat < 0x80) ∧ (a < 0xE0 ↔ a.toNat < 0xE0) ∧
      (a < 0xF0 ↔ a.toNat < 0xF0) ∧ (a < 0xF8 ↔ a.toNat < 0xF8) :=
    ⟨byteLt (n := 0x80) (by decide),byteLt (n := 0xE0) (by decide),byteLt (n := 0xF0) (by decide),
      byteLt (n := 0xF8) (by decide)⟩
  have leLit : (0xC0 ≤ a ↔ 0xC0 ≤ a.toNat) ∧ (0xE0 ≤ a ↔ 0xE0 ≤ a.toNat) ∧ (0xF0 ≤ a ↔ 0xF0 ≤ a.toNat) :=
    ⟨byteLe (n := 0xC0) (by decide),byteLe (n := 0xE0) (by decide),byteLe (n := 0xF0) (by decide)⟩
  unfold headChar? at read
  dsimp only at read
  split at read
  · rename_i one
    rw [ltLit.1] at one
    obtain ⟨rfl,rfl⟩ := Prod.mk.inj (Option.some.inj read)
    have valid : a.toNat.isValidChar := .inl (by omega)
    have number : (Char.ofNat a.toNat).toNat = a.toNat := by rw [Char.ofNat,dif_pos valid]; rfl
    refine ⟨Nat.zero_le _,?_⟩
    unfold charBytes
    simp only [number,if_pos one,byteOfNat rfl,List.take_zero]
  · split at read
    · rename_i two
      rw [leLit.1,ltLit.2.1] at two
      obtain ⟨n,next,read⟩ := Option.bind_eq_some_iff.mp read
      obtain ⟨d,whole,same⟩ := Option.bind_eq_some_iff.mp read
      obtain ⟨rfl,rfl⟩ := Prod.mk.inj (Option.some.inj same)
      obtain ⟨b,here,byte,small⟩ := continuedIff.mp next
      obtain ⟨number,least⟩ := scalarIff.mp whole
      have bytes : rest.take 1 = [b] := by
        cases rest with
        | nil => contradiction
        | cons x xs => rw [← Option.some.inj here]; rfl
      refine ⟨List.length_pos_iff.mpr fun none => (by simp [none] at here),?_⟩
      unfold charBytes
      dsimp only
      rw [if_neg (by omega),if_pos (by omega),bytes,byteOfNat (a := a) (by omega),
        byteOfNat (a := b) (by omega)]
    · split at read
      · rename_i three
        rw [leLit.2.1,ltLit.2.2.1] at three
        obtain ⟨n,next,read⟩ := Option.bind_eq_some_iff.mp read
        obtain ⟨l,last,read⟩ := Option.bind_eq_some_iff.mp read
        obtain ⟨d,whole,same⟩ := Option.bind_eq_some_iff.mp read
        obtain ⟨rfl,rfl⟩ := Prod.mk.inj (Option.some.inj same)
        obtain ⟨b,here,byte,small⟩ := continuedIff.mp next
        obtain ⟨e,there,byte',small'⟩ := continuedIff.mp last
        obtain ⟨number,least⟩ := scalarIff.mp whole
        have bytes : rest.take 2 = [b,e] := by
          match rest with
          | [] | [_] => contradiction
          | x :: y :: ys =>
            rw [← Option.some.inj here,← Option.some.inj there]
            rfl
        refine ⟨(List.getElem?_eq_some_iff.mp there).1,?_⟩
        unfold charBytes
        dsimp only
        rw [if_neg (by omega),if_neg (by omega),if_pos (by omega),bytes,byteOfNat (a := a) (by omega),
          byteOfNat (a := b) (by omega),byteOfNat (a := e) (by omega)]
      · split at read
        · rename_i four
          rw [leLit.2.2,ltLit.2.2.2] at four
          obtain ⟨n,next,read⟩ := Option.bind_eq_some_iff.mp read
          obtain ⟨t,third,read⟩ := Option.bind_eq_some_iff.mp read
          obtain ⟨l,last,read⟩ := Option.bind_eq_some_iff.mp read
          obtain ⟨d,whole,same⟩ := Option.bind_eq_some_iff.mp read
          obtain ⟨rfl,rfl⟩ := Prod.mk.inj (Option.some.inj same)
          obtain ⟨b,here,byte,small⟩ := continuedIff.mp next
          obtain ⟨f,middle,byte'',small''⟩ := continuedIff.mp third
          obtain ⟨e,there,byte',small'⟩ := continuedIff.mp last
          obtain ⟨number,least⟩ := scalarIff.mp whole
          have bytes : rest.take 3 = [b,f,e] := by
            match rest with
            | [] | [_] | [_,_] => contradiction
            | x :: y :: z :: zs =>
              rw [← Option.some.inj here,← Option.some.inj middle,← Option.some.inj there]
              rfl
          refine ⟨(List.getElem?_eq_some_iff.mp there).1,?_⟩
          unfold charBytes
          dsimp only
          rw [if_neg (by omega),if_neg (by omega),if_neg (by omega),bytes,
            byteOfNat (a := a) (by omega),byteOfNat (a := b) (by omega),byteOfNat (a := f) (by omega),
            byteOfNat (a := e) (by omega)]
        · contradiction

theorem unitsAfterDrop (skip : Nat) (bs : Bytes) : unitsAfter skip bs = units (bs.drop skip) := by
  induction skip generalizing bs with
  | zero => rfl
  | succ skip ih =>
    cases bs with
    | nil => rfl
    | cons b bs => exact ih bs

theorem unitsChars (cs : List Char) : units (cs.flatMap charBytes) = cs.map .char := by
  induction cs with
  | nil => rfl
  | cons c cs ih =>
    obtain ⟨a,more,bytes,read⟩ := headCharCharBytes c (cs.flatMap charBytes)
    rw [List.flatMap_cons,bytes,List.cons_append,units,unitsAfter,← List.cons_append,read]
    dsimp only
    rw [unitsAfterDrop,List.drop_left,ih,List.map_cons]

theorem ofBytesBytesOf (s : String) : ofBytes (bytesOf s) = s := by
  refine String.toList_injective ?_
  rw [ofBytes,bytesOf,unitsChars,String.toList_ofList,List.map_map]
  exact List.map_id _

theorem bytesOfInj {s t : String} (same : bytesOf s = bytesOf t) : s = t := by
  rw [← ofBytesBytesOf s,same,ofBytesBytesOf]

def Unit8.bytes : Unit8 → Bytes
  | .char c => charBytes c
  | .stray b => [b]

theorem unitsAfterBytes (skip : Nat) (bs : Bytes) :
    (unitsAfter skip bs).flatMap Unit8.bytes = bs.drop skip := by
  fun_induction unitsAfter skip bs with
  | case1 => rw [List.drop_nil]; rfl
  | case2 skip b rest ih => exact ih
  | case3 a rest c more read ih =>
    rw [List.flatMap_cons,ih,Unit8.bytes,(charBytesHeadChar read).2,List.cons_append,
      List.take_append_drop]
    rfl
  | case4 a rest read ih =>
    rw [List.flatMap_cons,ih]
    rfl

theorem unitsBytes (bs : Bytes) : (units bs).flatMap Unit8.bytes = bs := unitsAfterBytes 0 bs

end RegCode.Text
