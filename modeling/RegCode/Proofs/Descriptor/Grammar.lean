import RegCode.Proofs.Assembly.Formed
import RegCode.Text.Utf8

/-! Descriptors and their grammar. A list of parameters has just one division into types, and it is the one
that is read. Reading looks at nothing but marks of one byte each, so that it does not matter whether the
bytes of a text are read or its characters. -/
namespace RegCode

namespace Text

def speltChars (cs : List Char) : List Char := cs.flatMap fun c => (charBytes c).map byteChar

def spelt (s : String) : String := String.ofList (byteChars s)

theorem speltToList (s : String) : (spelt s).toList = speltChars s.toList := by
  simp [spelt, byteChars, bytesOf, speltChars, List.map_flatMap]

theorem speltOfList (cs : List Char) : spelt (String.ofList cs) = String.ofList (speltChars cs) := by
  simp [← String.toList_inj, speltToList]

theorem speltNil : speltChars [] = [] := rfl

theorem speltCons (c : Char) (cs : List Char) :
    speltChars (c :: cs) = (charBytes c).map byteChar ++ speltChars cs := rfl

theorem speltAppend (cs ds : List Char) : speltChars (cs ++ ds) = speltChars cs ++ speltChars ds := by
  simp [speltChars]

theorem byteCharNat (b : UInt8) : (byteChar b).toNat = b.toNat := by
  have valid : b.toNat.isValidChar := .inl (Nat.lt_trans b.toNat_lt (by decide))
  rw [byteChar, Char.ofNat, dif_pos valid]
  rfl

theorem speltLow {c : Char} (low : c.toNat < 0x80) (cs : List Char) :
    speltChars (c :: cs) = c :: speltChars cs := by
  have same : byteChar c.toNat.toUInt8 = c := by
    refine Char.toNat_inj.mp ?_
    rw [byteCharNat]
    exact Nat.mod_eq_of_lt (Nat.lt_trans low (by decide))
  simp [speltCons, charBytes, low, same]

theorem byteHigh {n : Nat} (least : 0x80 ≤ n) (most : n < 0x100) : 0x80 ≤ (byteChar n.toUInt8).toNat := by
  have number : n.toUInt8.toNat = n := Nat.mod_eq_of_lt most
  rw [byteCharNat, number]
  exact least

theorem speltHigh {c : Char} (high : 0x80 ≤ c.toNat) :
    ∃ b bs, (charBytes c).map byteChar = b :: bs ∧ ∀ x ∈ b :: bs, 0x80 ≤ x.toNat := by
  have range : c.toNat < 0x110000 := by
    rcases c.valid with small | ⟨-, small⟩
    · exact Nat.lt_trans small (by decide)
    · exact small
  unfold charBytes
  dsimp only
  rw [if_neg (Nat.not_lt.mpr high)]
  split
  · refine ⟨_, _, rfl, List.forall_mem_cons.mpr ⟨byteHigh (by omega) (by omega), ?_⟩⟩
    simp only [List.map_cons, List.map_nil, List.forall_mem_singleton]
    exact byteHigh (by omega) (by omega)
  · split
    · refine ⟨_, _, rfl, List.forall_mem_cons.mpr ⟨byteHigh (by omega) (by omega), ?_⟩⟩
      simp only [List.map_cons, List.map_nil, List.forall_mem_cons]
      exact ⟨byteHigh (by omega) (by omega), byteHigh (by omega) (by omega), nofun⟩
    · refine ⟨_, _, rfl, List.forall_mem_cons.mpr ⟨byteHigh (by omega) (by omega), ?_⟩⟩
      simp only [List.map_cons, List.map_nil, List.forall_mem_cons]
      exact ⟨byteHigh (by omega) (by omega), byteHigh (by omega) (by omega), byteHigh (by omega) (by omega),
        nofun⟩

theorem cutAtIff {m c : Char} {cs a b : List Char} :
    cutWhere? (· == m) cs = some (a, c, b) ↔ c = m ∧ m ∉ a ∧ cs = a ++ m :: b := by
  constructor
  · intro cut
    obtain ⟨before, ends⟩ := cutWhereSome cut
    obtain rfl : c = m := beq_iff_eq.mp ends
    exact ⟨rfl, fun member => absurd (before _ member) (by simp), Descriptor.cutWhere?_eq cut⟩
  · intro ⟨same, absent, parts⟩
    subst same parts
    refine cutWhereFirst (fun x member => ?_) (by simp) b
    exact beq_eq_false_iff_ne.mpr fun same => absent (same ▸ member)

theorem speltSolid (c : Char) (cs : List Char) : speltChars (c :: cs) ≠ [] := by
  rcases Nat.lt_or_ge c.toNat 0x80 with low | high
  · simp [speltLow low]
  · obtain ⟨b, bs, bytes, -⟩ := speltHigh high
    simp [speltCons, bytes]

theorem speltEmptyIff (cs : List Char) : speltChars cs = [] ↔ cs = [] := by
  cases cs with
  | nil => simp [speltNil]
  | cons c cs => simp [speltSolid]

theorem cutWherePast {p : Char → Bool} {cs : List Char} (before : ∀ c ∈ cs, p c = false) (ds : List Char) :
    cutWhere? p (cs ++ ds) = (cutWhere? p ds).map fun (a, c, b) => (cs ++ a, c, b) := by
  induction cs with
  | nil => simp
  | cons c cs ih =>
    obtain ⟨here, later⟩ := List.forall_mem_cons.mp before
    simp [cutWhere?, here, ih later, Function.comp_def]

theorem speltFirst {m c : Char} (low : m.toNat < 0x80) (other : c ≠ m) :
    ∀ x ∈ (charBytes c).map byteChar, (x == m) = false := by
  intro x member
  rw [beq_eq_false_iff_ne]
  intro same
  subst same
  rcases Nat.lt_or_ge c.toNat 0x80 with small | high
  · have single := speltLow small []
    rw [speltCons, speltNil, List.append_nil] at single
    rw [single, List.mem_singleton] at member
    exact other member.symm
  · obtain ⟨b, bs, bytes, all⟩ := speltHigh high
    rw [bytes] at member
    exact absurd (all x member) (Nat.not_le.mpr low)

theorem cutWhereSpelt {m : Char} (low : m.toNat < 0x80) (cs : List Char) :
    cutWhere? (· == m) (speltChars cs) =
      (cutWhere? (· == m) cs).map fun (a, c, b) => (speltChars a, c, speltChars b) := by
  induction cs with
  | nil => rfl
  | cons c cs ih =>
    by_cases here : c = m
    · subst here
      rw [speltLow low]
      simp [cutWhere?, speltChars]
    · rw [speltCons, cutWherePast (speltFirst low here), ih]
      simp [cutWhere?, here, Function.comp_def, speltCons]

end Text

namespace Descriptor

open Text

/-- A type of a parameter: a letter, a class name that its first semicolon ends, or an array of such. -/
inductive IsType : List Char → Prop where
  | letter {c : Char} (primitive : c ∈ "ZBSCIJFD".toList) : IsType [c]
  | object {name : List Char} (plain : ';' ∉ name) : IsType ('L' :: name ++ [';'])
  | array {t : List Char} (element : IsType t) : IsType ('[' :: t)

theorem letterIff (c : Char) : isParameterLetter c = true ↔ c ∈ "ZBSCIJFD".toList := by
  unfold isParameterLetter primitiveName?
  split <;> simp_all

theorem headTypeOf {t : List Char} (type : IsType t) (rest : List Char) :
    headType? (t ++ rest) = some (t, rest) := by
  induction type with
  | @letter c primitive =>
    have letter := (letterIff c).mpr primitive
    have array : c ≠ '[' := by
      intro same
      simp [same] at primitive
    have object : c ≠ 'L' := by
      intro same
      simp [same] at primitive
    simp [headType?, array, object, letter]
  | @object name plain =>
    have cut := cutAtIff.mpr ⟨rfl, plain, Eq.refl (name ++ ';' :: rest)⟩
    simp [headType?, cut]
  | array element ih => simp [headType?, ih]

theorem headTypeIff {cs t rest : List Char} :
    headType? cs = some (t, rest) ↔ IsType t ∧ cs = t ++ rest := by
  constructor
  · intro head
    refine ⟨?_, headType?_append head⟩
    induction cs generalizing t with
    | nil => contradiction
    | cons c cs ih =>
      rw [headType?] at head
      split at head
      · rename_i bracket
        obtain ⟨⟨u, more⟩, inner, same⟩ := Option.map_eq_some_iff.mp head
        cases same
        exact bracket ▸ .array (ih inner)
      · split at head
        · rename_i object
          obtain ⟨⟨name, mark, more⟩, cut, same⟩ := Option.map_eq_some_iff.mp head
          cases same
          obtain ⟨ends, plain, -⟩ := cutAtIff.mp cut
          rw [object, ends]
          exact .object plain
        · split at head
          · rename_i letter
            cases head
            exact .letter ((letterIff c).mp letter)
          · contradiction
  · rintro ⟨type, whole⟩
    rw [whole]
    exact headTypeOf type rest

theorem splitTypesHead {cs t rest : List Char} (head : headType? cs = some (t, rest)) :
    splitTypes? cs = (splitTypes? rest).map (t :: ·) := by
  obtain ⟨c, more, rfl⟩ : ∃ c more, cs = c :: more := by
    refine List.exists_cons_of_ne_nil ?_
    intro empty
    simp [empty, headType?] at head
  rw [splitTypes?]
  split <;> simp_all

theorem splitTypesIff {cs : List Char} {ts : List (List Char)} :
    splitTypes? cs = some ts ↔ (∀ t ∈ ts, IsType t) ∧ ts.flatten = cs := by
  constructor
  · intro split
    refine ⟨?_, splitTypesFlatten split⟩
    fun_induction splitTypes? cs generalizing ts with
    | case1 => simp_all
    | case2 => contradiction
    | case3 c rest t more head ih =>
      obtain ⟨us, later, rfl⟩ := Option.map_eq_some_iff.mp split
      exact List.forall_mem_cons.mpr ⟨(headTypeIff.mp head).1, ih later⟩
  · rintro ⟨types, whole⟩
    subst whole
    induction ts with
    | nil => simp [splitTypes?]
    | cons t ts ih =>
      obtain ⟨first, later⟩ := List.forall_mem_cons.mp types
      simp [splitTypesHead (headTypeOf first ts.flatten), ih later]

theorem splitParamsIff {s : String} {ts : List String} :
    splitParams? s = some ts ↔ (∀ t ∈ ts, IsType t.toList) ∧ String.join ts = s := by
  have whole : String.join ts = s ↔ (ts.map String.toList).flatten = s.toList := by
    rw [← String.toList_inj, String.toList_join, List.flatMap_def]
  rw [whole, ← List.forall_mem_map, ← splitTypesIff, splitParams?, Option.map_eq_some_iff]
  constructor
  · rintro ⟨us, split, rfl⟩
    simpa [Function.comp_def] using split
  · intro split
    exact ⟨_, split, by simp [Function.comp_def]⟩

theorem Signature.parseIff {d : String} {g : Signature} : Signature.parse? d = some g ↔
    ∃ p, d = "(" ++ p ++ ")" ++ g.result ∧ ')' ∉ p.toList ∧ splitParams? p = some g.params ∧
      g.result ≠ "" := by
  constructor
  · intro parsed
    unfold Signature.parse? at parsed
    split at parsed
    · rename_i cs opened
      obtain ⟨⟨ps, mark, result⟩, cut, parsed⟩ := Option.bind_eq_some_iff.mp parsed
      simp only at parsed
      split at parsed
      · contradiction
      · rename_i some_
        obtain ⟨params, types, made⟩ := Option.bind_eq_some_iff.mp parsed
        cases made
        obtain ⟨-, plain, whole⟩ := cutAtIff.mp cut
        refine ⟨String.ofList ps, ?_, by simpa using plain, by simp [splitParams?, types], by simpa using some_⟩
        simp [← String.toList_inj, opened, whole]
    · contradiction
  · rintro ⟨p, rfl, plain, split, some_⟩
    obtain ⟨types, cut, made⟩ := Option.map_eq_some_iff.mp split
    have parts := cutAtIff.mpr ⟨rfl, plain, Eq.refl (p.toList ++ ')' :: g.result.toList)⟩
    have opened : ("(" ++ p ++ ")" ++ g.result).toList = '(' :: (p.toList ++ ')' :: g.result.toList) := by
      simp
    have result : g.result.toList ≠ [] := by simpa using some_
    simp [Signature.parse?, opened, parts, result, cut, made]

theorem Signature.parseOfTypes {g : Signature} (types : ∀ t ∈ g.params, IsType t.toList)
    (plain : ∀ t ∈ g.params, ')' ∉ t.toList) (result : g.result ≠ "") :
    Signature.parse? g.text = some g := by
  refine Signature.parseIff.mpr ⟨String.join g.params, rfl, ?_, splitParamsIff.mpr ⟨types, rfl⟩, result⟩
  rw [String.toList_join, List.mem_flatMap]
  rintro ⟨t, member, inside⟩
  exact plain t member inside

theorem headTypeSpelt (cs : List Char) : headType? (speltChars cs) =
    (headType? cs).map fun (t, rest) => (speltChars t, speltChars rest) := by
  induction cs with
  | nil => rfl
  | cons c cs ih =>
    rcases Nat.lt_or_ge c.toNat 0x80 with low | high
    · rw [speltLow low, headType?, headType?]
      split
      · simp [ih, speltLow low, Function.comp_def]
      · split
        · rename_i object
          rw [cutWhereSpelt (by decide)]
          cases cut : cutWhere? (· == ';') cs with
          | none => rfl
          | some parts =>
            obtain ⟨a, d, b⟩ := parts
            obtain ⟨rfl, -, -⟩ := cutAtIff.mp cut
            have mark : speltChars [';'] = [';'] := speltLow (by decide) []
            simp [speltLow low, speltAppend, mark]
        · split
          · simp [speltLow low, speltNil]
          · rfl
    · obtain ⟨b, bs, bytes, all⟩ := speltHigh high
      have other : ∀ d : Char, 0x80 ≤ d.toNat → ∀ ds, headType? (d :: ds) = none := by
        intro d above ds
        have array : d ≠ '[' := by rintro rfl; exact absurd above (by decide)
        have object : d ≠ 'L' := by rintro rfl; exact absurd above (by decide)
        have letter : ¬ isParameterLetter d = true := by
          rw [letterIff]
          intro member
          have low : ∀ x ∈ "ZBSCIJFD".toList, x.toNat < 0x80 := by simp
          exact absurd above (Nat.not_le.mpr (low d member))
        rw [headType?, if_neg array, if_neg object, if_neg letter]
      rw [speltCons, bytes, List.cons_append, other b (all b (List.mem_cons_self ..)), other c high]
      rfl

theorem splitTypesSpelt (cs : List Char) :
    splitTypes? (speltChars cs) = (splitTypes? cs).map (·.map speltChars) := by
  fun_induction splitTypes? cs with
  | case1 => simp [speltNil, splitTypes?]
  | case2 c rest refused =>
    have still := headTypeSpelt (c :: rest)
    rw [refused] at still
    unfold splitTypes?
    split
    · rename_i empty
      exact absurd empty (speltSolid c rest)
    · split <;> simp_all
  | case3 c rest t more head ih =>
    have still := headTypeSpelt (c :: rest)
    rw [head] at still
    simp [splitTypesHead still, ih, Function.comp_def]

theorem splitParamsSpelt (s : String) : splitParams? (spelt s) = (splitParams? s).map (·.map spelt) := by
  simp [splitParams?, speltToList, splitTypesSpelt, Function.comp_def, speltOfList]

namespace Signature

def parseOpened? (cs : List Char) : Option Signature := do
  let (ps, _, result) ← cutWhere? (· == ')') cs
  if result = [] then none
  else
    let params ← splitTypes? ps
    some ⟨params.map String.ofList, String.ofList result⟩

theorem parseOpened {s : String} {cs : List Char} (opened : s.toList = '(' :: cs) :
    parse? s = parseOpened? cs := by
  simp only [parse?, opened, parseOpened?]

theorem parseUnopened {s : String} {c : Char} {cs : List Char} (other : c ≠ '(') (head : s.toList = c :: cs) :
    parse? s = none := by
  unfold parse?
  split
  · rename_i opened
    rw [head] at opened
    exact absurd (List.cons.inj opened).1 other
  · rfl

def spelt (g : Signature) : Signature := ⟨g.params.map Text.spelt, Text.spelt g.result⟩

theorem parseOpenedSpelt (cs : List Char) :
    parseOpened? (speltChars cs) = (parseOpened? cs).map spelt := by
  unfold parseOpened?
  rw [cutWhereSpelt (by decide)]
  cases cutWhere? (· == ')') cs with
  | none => rfl
  | some parts =>
    obtain ⟨ps, mark, result⟩ := parts
    simp only [Option.map_some, Option.bind_eq_bind, Option.bind_some, speltEmptyIff, splitTypesSpelt]
    split
    · rfl
    · cases splitTypes? ps with
      | none => rfl
      | some ts => simp [spelt, Function.comp_def, speltOfList]

theorem parseSpelt (s : String) : parse? (Text.spelt s) = (parse? s).map spelt := by
  have bytes := speltToList s
  cases whole : s.toList with
  | nil =>
    rw [whole, speltNil] at bytes
    simp [parse?, whole, bytes]
  | cons c cs =>
    rw [whole] at bytes
    by_cases opened : c = '('
    · subst opened
      rw [speltLow (by decide)] at bytes
      rw [parseOpened bytes, parseOpened whole, parseOpenedSpelt]
    · obtain ⟨b, bs, parts⟩ := List.exists_cons_of_ne_nil (speltSolid c [])
      have other : b ≠ '(' := by
        refine beq_eq_false_iff_ne.mp (speltFirst (by decide) opened b ?_)
        rw [speltCons, speltNil, List.append_nil] at parts
        simp [parts]
      have head : speltChars (c :: cs) = b :: (bs ++ speltChars cs) := by
        have joined := speltAppend [c] cs
        rw [parts] at joined
        exact joined
      rw [parseUnopened other (bytes.trans head), parseUnopened opened whole]
      rfl

end Signature

/-- A list of parameters is read just when it is a row of types, and as that row, of which there is one. A
descriptor is read just when such a list stands in its parentheses and something behind them. Writing and
reading undo each other. What is read from the bytes of a text is spelt as what is read from its characters. -/
theorem grammarExact :
    (∀ s ts, splitParams? s = some ts ↔ (∀ t ∈ ts, IsType t.toList) ∧ String.join ts = s) ∧
      (∀ ts us : List String, (∀ t ∈ ts, IsType t.toList) → (∀ u ∈ us, IsType u.toList) →
        String.join ts = String.join us → ts = us) ∧
      (∀ d g, Signature.parse? d = some g ↔ ∃ p, d = "(" ++ p ++ ")" ++ g.result ∧ ')' ∉ p.toList ∧
        splitParams? p = some g.params ∧ g.result ≠ "") ∧
      (∀ (m : MethodRef) d, Signature.parse? d = some ⟨m.params, m.result⟩ → m.descriptor = d) ∧
      (∀ m : MethodRef, (∀ t ∈ m.params, IsType t.toList) → (∀ t ∈ m.params, ')' ∉ t.toList) → m.result ≠ "" →
        Signature.parse? m.descriptor = some ⟨m.params, m.result⟩) ∧
      (∀ s, splitParams? (spelt s) = (splitParams? s).map (·.map spelt)) ∧
      ∀ d, Signature.parse? (spelt d) = (Signature.parse? d).map Signature.spelt := by
  refine ⟨fun _ _ => splitParamsIff, ?_, fun _ _ => Signature.parseIff, fun _ _ => Signature.parseText,
    fun m => Signature.parseOfTypes (g := ⟨m.params, m.result⟩), splitParamsSpelt, Signature.parseSpelt⟩
  intro ts us types others same
  have first := splitParamsIff.mpr ⟨types, same⟩
  have second := splitParamsIff.mpr ⟨others, rfl⟩
  exact Option.some.inj (first.symm.trans second)

/-- A long, an array of arrays and a class whose name holds other marks and letters above ASCII. -/
theorem grammarExactMixed :
    Signature.parse? "(J[[ILa[(é;)Lb;" = some ⟨["J", "[[I", "La[(é;"], "Lb;"⟩ ∧
      Signature.parse? (spelt "(J[[ILa[(é;)Lb;") =
        some (Signature.spelt ⟨["J", "[[I", "La[(é;"], "Lb;"⟩) := by
  obtain ⟨-, -, -, -, read, -, bytes⟩ := grammarExact
  have long : IsType "J".toList := .letter (by decide)
  have arrays : IsType "[[I".toList := .array (.array (.letter (by decide)))
  have object : IsType ('L' :: ['a', '[', '(', 'é'] ++ [';']) := .object (by decide)
  have whole : Signature.parse? "(J[[ILa[(é;)Lb;" = some ⟨["J", "[[I", "La[(é;"], "Lb;"⟩ := by
    refine read ⟨"La;", "f", ["J", "[[I", "La[(é;"], "Lb;"⟩ ?_ (by decide) (by decide)
    simp only [List.forall_mem_cons]
    exact ⟨long, arrays, object, nofun⟩
  exact ⟨whole, by rw [bytes, whole]; rfl⟩

end Descriptor

end RegCode
