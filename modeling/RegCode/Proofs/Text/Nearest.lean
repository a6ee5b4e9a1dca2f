import RegCode.Text.Distance
import RegCode.Proofs.Text.Bytes
import Mathlib.Order.Bounds.Basic

/-! The distance of two texts is the least number of edits, one byte each, that lead from the one to the
other in lower case. Each row holds the distances of a beginning of the one text to all beginnings of the
other. What is suggested for a name is the first of the candidates that have the least distance. -/
namespace RegCode.Text

inductive Edit : Bytes → Bytes → Prop where
  | insert (front back : Bytes) (b : UInt8) : Edit (front ++ back) (front ++ b :: back)
  | delete (front back : Bytes) (b : UInt8) : Edit (front ++ b :: back) (front ++ back)
  | substitute (front back : Bytes) (a b : UInt8) : Edit (front ++ a :: back) (front ++ b :: back)

/-- So many edits, one after the other. -/
inductive Edits : Nat → Bytes → Bytes → Prop where
  | done (s : Bytes) : Edits 0 s s
  | step {n : Nat} {s t u : Bytes} (first : Edit s t) (rest : Edits n t u) : Edits (n + 1) s u

/-- The least number of edits that lead from one to the other. -/
def Apart (n : Nat) (s t : Bytes) : Prop := IsLeast {m | Edits m s t} n

section Distances

variable {s t u p q : Bytes} {b c : UInt8} {m n : Nat}

theorem Edit.symm (edit : Edit s t) : Edit t s := by
  cases edit with
  | insert front back b => exact .delete front back b
  | delete front back b => exact .insert front back b
  | substitute front back a b => exact .substitute front back b a

theorem Edit.before (edit : Edit s t) (rest : Bytes) : Edit (s ++ rest) (t ++ rest) := by
  cases edit with
  | insert front back b => simpa using Edit.insert front (back ++ rest) b
  | delete front back b => simpa using Edit.delete front (back ++ rest) b
  | substitute front back a b => simpa using Edit.substitute front (back ++ rest) a b

theorem Edit.length (edit : Edit s t) : s.length ≤ t.length + 1 := by
  cases edit <;> simp only [List.length_append,List.length_cons] <;> omega

theorem endWithin {front back : Bytes} (whole : p ++ [c] = front ++ back) :
    back = [] ∨ ∃ mid, back = mid ++ [c] ∧ p = front ++ mid := by
  rcases List.eq_nil_or_concat back with none_ | ⟨mid,x,rfl⟩
  · exact .inl none_
  · rw [List.concat_eq_append,← List.append_assoc] at whole
    obtain ⟨same,ends⟩ := List.append_inj' whole rfl
    obtain rfl := List.singleton_inj.mp ends
    exact .inr ⟨mid,List.concat_eq_append,same⟩

theorem Edit.last (edit : Edit (p ++ [c]) u) :
    (∃ p', Edit p p' ∧ u = p' ++ [c]) ∨ u = p ∨ (∃ d, u = p ++ [d]) ∨ ∃ d, u = p ++ [c] ++ [d] := by
  generalize whole : p ++ [c] = s at edit
  cases edit with
  | insert front back b =>
    rcases endWithin whole with rfl | ⟨mid,rfl,rfl⟩
    · exact .inr (.inr (.inr ⟨b,by rw [List.append_nil]⟩))
    · exact .inl ⟨_,.insert front mid b,by simp⟩
  | delete front back b =>
    rcases endWithin (whole.trans (List.append_cons ..)) with rfl | ⟨mid,rfl,rfl⟩
    · obtain ⟨rfl,-⟩ := List.append_inj' whole rfl
      exact .inr (.inl (List.append_nil _))
    · rw [← List.append_cons]
      exact .inl ⟨_,.delete front mid b,by simp⟩
  | substitute front back a b =>
    rcases endWithin (whole.trans (List.append_cons ..)) with rfl | ⟨mid,rfl,rfl⟩
    · obtain ⟨rfl,-⟩ := List.append_inj' whole rfl
      exact .inr (.inr (.inl ⟨b,rfl⟩))
    · rw [← List.append_cons]
      exact .inl ⟨_,.substitute front mid a b,by simp⟩

namespace Edits

theorem trans (first : Edits m s t) (then_ : Edits n t u) : Edits (m + n) s u := by
  induction first with
  | done => rwa [Nat.zero_add]
  | step first _ ih =>
    rw [Nat.add_right_comm]
    exact .step first (ih then_)

theorem single (edit : Edit s t) : Edits 1 s t := .step edit (.done t)

theorem symm (edits : Edits n s t) : Edits n t s := by
  induction edits with
  | done s => exact .done s
  | step first _ ih => exact ih.trans (single first.symm)

theorem before (edits : Edits n s t) (rest : Bytes) : Edits n (s ++ rest) (t ++ rest) := by
  induction edits with
  | done s => exact .done _
  | step first _ ih => exact .step (first.before rest) ih

theorem length (edits : Edits n s t) : s.length ≤ t.length + n := by
  induction edits with
  | done s => exact Nat.le_refl _
  | step first _ ih =>
    have one := first.length
    omega

theorem fewer (one : Edits m s t) (other : Edits n s t) : Edits (min m n) s t := by
  rcases Nat.le_total m n with less | less
  · rwa [Nat.min_eq_left less]
  · rwa [Nat.min_eq_right less]

theorem zeroIff : Edits 0 s t ↔ s = t := by
  constructor
  · intro edits
    cases edits
    rfl
  · rintro rfl
    exact .done s

theorem takeOut (s : Bytes) (b : UInt8) : Edits 1 (s ++ [b]) s := by
  simpa using single (.delete s [] b)

theorem putIn (s : Bytes) (b : UInt8) : Edits 1 s (s ++ [b]) := (takeOut s b).symm

theorem exchange (s : Bytes) (b c : UInt8) : Edits (if b = c then 0 else 1) (s ++ [c]) (s ++ [b]) := by
  split
  · subst c
    exact .done _
  · exact single (.substitute s [] c b)

theorem last (edits : Edits n (p ++ [c]) (q ++ [b])) :
    (∃ m < n, Edits m p (q ++ [b])) ∨ (∃ m < n, Edits m (p ++ [c]) q) ∨
      ∃ m, Edits m p q ∧ m + (if b = c then 0 else 1) ≤ n := by
  -- The first edit decides. The induction is on the number of edits: where the first one appends a byte,
  -- the others are divided at that byte, and what leads to the end before it is divided once more.
  induction n using Nat.strongRecOn generalizing p c with
  | ind n ih =>
  generalize source : p ++ [c] = s at edits
  generalize target : q ++ [b] = t at edits
  cases edits with
  | done =>
    obtain ⟨rfl,ends⟩ := List.append_inj' (source.trans target.symm) rfl
    obtain rfl := List.singleton_inj.mp ends
    exact .inr (.inr ⟨0,.done p,by rw [if_pos rfl]⟩)
  | @step n _ u _ first rest =>
    subst source target
    rcases first.last with ⟨p',edit,rfl⟩ | rfl | ⟨d,rfl⟩ | ⟨d,rfl⟩
    · -- before the end
      rcases ih n (Nat.lt_succ_self n) rest with ⟨m,less,way⟩ | ⟨m,less,way⟩ | ⟨m,way,most⟩
      · exact .inl ⟨m + 1,by omega,.step edit way⟩
      · exact .inr (.inl ⟨m + 1,by omega,.step (edit.before [c]) way⟩)
      · exact .inr (.inr ⟨m + 1,.step edit way,by omega⟩)
    · exact .inl ⟨n,Nat.lt_succ_self n,rest⟩
    · -- another end
      rcases ih n (Nat.lt_succ_self n) rest with ⟨m,less,way⟩ | ⟨m,less,way⟩ | ⟨m,way,most⟩
      · exact .inl ⟨m,by omega,way⟩
      · exact .inr (.inl ⟨m + 1,by omega,.step first way⟩)
      · exact .inr (.inr ⟨m,way,by split <;> omega⟩)
    · -- one more end
      rcases ih n (Nat.lt_succ_self n) rest with ⟨m,less,way⟩ | ⟨m,less,way⟩ | ⟨m,way,most⟩
      · rcases ih m (by omega) way with ⟨k,fewer,back⟩ | ⟨k,fewer,back⟩ | ⟨k,back,most⟩
        · exact .inl ⟨k,by omega,back⟩
        · exact .inr (.inl ⟨k,by omega,back⟩)
        · exact .inr (.inr ⟨k,back,by omega⟩)
      · exact .inr (.inl ⟨m + 1,by omega,.step first way⟩)
      · exact .inr (.inl ⟨m,by omega,way⟩)

end Edits

namespace Apart

theorem symm (apart : Apart n s t) : Apart n t s :=
  ⟨apart.1.symm,fun _ edits => apart.2 edits.symm⟩

theorem triangle {k : Nat} (whole : Apart k s u) (left : Apart m s t) (right : Apart n t u) :
    k ≤ m + n := whole.2 (left.1.trans right.1)

theorem zeroIff (apart : Apart n s t) : n = 0 ↔ s = t := by
  constructor
  · rintro rfl
    exact Edits.zeroIff.mp apart.1
  · rintro rfl
    exact Nat.le_zero.mp (apart.2 (.done s))

theorem empty (s : Bytes) : Apart s.length s [] := by
  refine ⟨?_,fun m edits => ?_⟩
  · induction s with
    | nil => exact .done []
    | cons b s ih => exact Edits.step (.delete [] s b) ih
  · simpa using edits.length

theorem ends {up left corner : Nat} (above : Apart up p (q ++ [b])) (beside : Apart left (p ++ [c]) q)
    (across : Apart corner p q) :
    Apart (min (min (up + 1) (left + 1)) (corner + if b = c then 0 else 1)) (p ++ [c]) (q ++ [b]) := by
  constructor
  · have first := (Edits.takeOut p c).trans above.1
    have second := beside.1.trans (Edits.putIn q b)
    have third := (across.1.before [c]).trans (Edits.exchange q b c)
    rw [Nat.add_comm] at first
    exact (first.fewer second).fewer third
  · intro n edits
    rcases edits.last with ⟨m,less,way⟩ | ⟨m,less,way⟩ | ⟨m,way,most⟩
    · have least : up ≤ m := above.2 way
      omega
    · have least : left ≤ m := beside.2 way
      omega
    · have least : corner ≤ m := across.2 way
      omega

end Apart

inductive Row (s : Bytes) : Bytes → Bytes → List Nat → Prop where
  | last {q : Bytes} {n : Nat} (apart : Apart n s q) : Row s q [] [n]
  | next {q bs : Bytes} {b : UInt8} {n : Nat} {row : List Nat} (apart : Apart n s q)
      (rest : Row s (q ++ [b]) bs row) : Row s q (b :: bs) (n :: row)

namespace Row

variable {row : List Nat}

theorem first (q t : Bytes) : Row [] q t (List.range' q.length (t.length + 1)) := by
  induction t generalizing q with
  | nil => exact .last (Apart.empty q).symm
  | cons b t ih =>
    have rest := ih (q ++ [b])
    rw [List.length_append] at rest
    exact .next (Apart.empty q).symm rest

theorem head (made : Row s q t row) : ∃ n above, row = n :: above ∧ Apart n s q := by
  cases made with
  | last apart => exact ⟨_,_,rfl,apart⟩
  | next apart _ => exact ⟨_,_,rfl,apart⟩

theorem extend (made : Row s q t row) {left : Nat} (beside : Apart left (s ++ [c]) q) :
    Row (s ++ [c]) q t (left :: extendRow c left t row) := by
  induction made generalizing left with
  | last => exact .last beside
  | @next q bs b d row across rest ih =>
    obtain ⟨u,above,rfl,higher⟩ := rest.head
    exact .next beside (ih (higher.ends beside across))

theorem following (made : Row s [] t row) (c : UInt8) : Row (s ++ [c]) [] t (nextRow t row c) := by
  obtain ⟨d,above,rfl,apart⟩ := made.head
  obtain rfl := apart.unique (Apart.empty s)
  have beside := Apart.empty (s ++ [c])
  rw [List.length_append] at beside
  exact made.extend beside

theorem run (made : Row s [] t row) (rest : Bytes) : Row (s ++ rest) [] t (rest.foldl (nextRow t) row) := by
  induction rest generalizing s row with
  | nil => rwa [List.append_nil]
  | cons c rest ih =>
    rw [List.append_cons]
    exact ih (made.following c)

theorem lastEntry (made : Row s q t row) : ∃ n, row.getLast? = some n ∧ Apart n s (q ++ t) := by
  induction made with
  | last apart => exact ⟨_,rfl,by rwa [List.append_nil]⟩
  | next apart rest ih =>
    obtain ⟨n,ends,apart⟩ := ih
    obtain ⟨u,above,rfl,-⟩ := rest.head
    exact ⟨n,by rw [List.getLast?_cons_cons,ends],by rwa [List.append_cons]⟩

end Row

theorem byteDistanceApart (s t : Bytes) : Apart (byteDistance s t) s t := by
  have start : Row [] [] t (List.range (t.length + 1)) := by
    rw [List.range_eq_range']
    exact Row.first [] t
  obtain ⟨n,ends,apart⟩ := (start.run s).lastEntry
  rw [byteDistance,ends]
  exact apart

theorem distanceApart (s t : Bytes) : Apart (distance s t) (lowerBytes s) (lowerBytes t) :=
  byteDistanceApart _ _

end Distances

def FirstNearest (name : Bytes) (candidates : List Bytes) (c : Bytes) : Prop :=
  ∃ front back, candidates = front ++ c :: back ∧ c ≠ name ∧
    (∀ a ∈ front, a ≠ name → distance name c < distance name a) ∧
      ∀ a ∈ back, a ≠ name → distance name c ≤ distance name a

def Best (name : Bytes) (bound : Int) (seen : List Bytes) : Option (Nat × Bytes) → Prop
  | some (d, c) => FirstNearest name seen c ∧ distance name c = d ∧ d < bound
  | none => ∀ c ∈ seen, c ≠ name → bound ≤ distance name c

variable {name c a : Bytes} {limit : Int} {seen : List Bytes} {best : Option (Nat × Bytes)}

theorem FirstNearest.member (first : FirstNearest name seen c) : c ∈ seen := by
  obtain ⟨front,back,rfl,-⟩ := first
  exact List.mem_append_right _ List.mem_cons_self

theorem FirstNearest.least (first : FirstNearest name seen c) :
    ∀ a ∈ seen, a ≠ name → distance name c ≤ distance name a := by
  obtain ⟨front,back,rfl,-,before,after⟩ := first
  intro a member other
  rcases List.mem_append.mp member with earlier | later
  · exact Nat.le_of_lt (before a earlier other)
  · rcases List.mem_cons.mp later with rfl | later
    · exact Nat.le_refl _
    · exact after a later other

theorem FirstNearest.more (first : FirstNearest name seen c)
    (behind : a ≠ name → distance name c ≤ distance name a) : FirstNearest name (seen ++ [a]) c := by
  obtain ⟨front,back,rfl,other,before,after⟩ := first
  refine ⟨front,back ++ [a],by simp,other,before,fun x member => ?_⟩
  rcases List.mem_append.mp member with old | new
  · exact after x old
  · obtain rfl := List.mem_singleton.mp new
    exact behind

theorem nearerNone : nearer name limit none a =
    if a ≠ name ∧ (distance name a : Int) < wrap64 (limit + 1) then some (distance name a, a) else none := rfl

theorem nearerSome {d : Nat} : nearer name limit (some (d, c)) a =
    if a ≠ name ∧ (distance name a : Int) < d then some (distance name a, a) else some (d, c) := rfl

theorem Best.next (known : Best name (wrap64 (limit + 1)) seen best) (a : Bytes) :
    Best name (wrap64 (limit + 1)) (seen ++ [a]) (nearer name limit best a) := by
  cases best with
  | none =>
    rw [nearerNone]
    split
    · rename_i taken
      refine ⟨⟨seen,[],rfl,taken.1,fun x member other => ?_,nofun⟩,rfl,taken.2⟩
      have far := known x member other
      omega
    · rename_i left
      intro x member other
      rcases List.mem_append.mp member with old | new
      · exact known x old other
      · obtain rfl := List.mem_singleton.mp new
        exact Int.not_lt.mp fun nearer => left ⟨other,nearer⟩
  | some found =>
    obtain ⟨d,c⟩ := found
    obtain ⟨first,same,within⟩ := known
    rw [nearerSome]
    split
    · rename_i taken
      refine ⟨⟨seen,[],rfl,taken.1,fun x member other => ?_,nofun⟩,rfl,?_⟩
      · have least := first.least x member other
        omega
      · omega
    · rename_i left
      refine ⟨first.more fun other => ?_,same,within⟩
      have far := Int.not_lt.mp fun nearer => left ⟨other,nearer⟩
      omega

theorem Best.run (known : Best name (wrap64 (limit + 1)) seen best) (candidates : List Bytes) :
    Best name (wrap64 (limit + 1)) (seen ++ candidates) (candidates.foldl (nearer name limit) best) := by
  induction candidates generalizing seen best with
  | nil => rwa [List.append_nil]
  | cons a candidates ih =>
    rw [List.append_cons]
    exact ih (known.next a)

theorem nearestBound (name : Bytes) (limit : Int) (candidates : List Bytes) :
    (∃ c, FirstNearest name candidates c ∧ distance name c < wrap64 (limit + 1) ∧
      nearest name limit candidates = c) ∨
    (∀ c ∈ candidates, c ≠ name → wrap64 (limit + 1) ≤ distance name c) ∧
      nearest name limit candidates = [] := by
  have start : Best name (wrap64 (limit + 1)) [] none := nofun
  have known := start.run candidates
  rw [List.nil_append] at known
  unfold nearest
  cases result : candidates.foldl (nearer name limit) none with
  | none =>
    rw [result] at known
    exact .inr ⟨known,rfl⟩
  | some found =>
    obtain ⟨d,c⟩ := found
    rw [result] at known
    obtain ⟨first,rfl,within⟩ := known
    exact .inl ⟨c,first,within,rfl⟩

/-- What should be suggested: the first nearest if it is within the limit, nothing if all are beyond it. -/
def Answers (name : Bytes) (limit : Int) (candidates : List Bytes) (found : Bytes) : Prop :=
  (FirstNearest name candidates found ∧ distance name found ≤ limit) ∨
    (∀ c ∈ candidates, c ≠ name → limit < distance name c) ∧ found = []

theorem nearestAnswers (name : Bytes) (candidates : List Bytes) (natural : 0 ≤ limit) (fits : limit < maxInt64) :
    Answers name limit candidates (nearest name limit candidates) := by
  have room : wrap64 (limit + 1) = limit + 1 :=
    Int.bmod_eq_of_le (by omega) (by unfold maxInt64 at fits; omega)
  rcases nearestBound name limit candidates with ⟨c,first,within,rfl⟩ | ⟨far,none_⟩
  · exact .inl ⟨first,by omega⟩
  · refine .inr ⟨fun c member other => ?_,none_⟩
    have beyond := far c member other
    omega

theorem nearestGreatest (name : Bytes) (candidates : List Bytes) : nearest name maxInt64 candidates = [] := by
  have negative : wrap64 (maxInt64 + 1) < 0 := by decide
  rcases nearestBound name maxInt64 candidates with ⟨c,-,within,-⟩ | ⟨-,none_⟩
  · omega
  · exact none_

theorem nearestTexts (name : String) (limit : Int) (candidates : List String) :
    bytesOf ((nearest? name limit candidates).getD "") =
      nearest (bytesOf name) limit (candidates.map bytesOf) := by
  unfold nearest?
  dsimp only
  split
  · rename_i none_
    rw [none_]
    rfl
  · rename_i some_
    rcases nearestBound (bytesOf name) limit (candidates.map bytesOf) with ⟨c,first,-,same⟩ | ⟨-,none_⟩
    · obtain ⟨text,-,rfl⟩ := List.mem_map.mp first.member
      rw [same,Option.getD_some,ofBytesBytesOf]
    · exact absurd none_ some_

/-- The distance of two texts is the least number of bytes to put in, take out and exchange on the way from
the one to the other in lower case. What is suggested is the first of the candidates other than the name that
have the least distance if it is within the limit, else nothing, just when one can be added to the limit in 64
bits or nothing is right: under the greatest limit nothing is suggested. It is the same for texts and bytes. -/
theorem nearestFirst (s t u name : Bytes) (candidates : List Bytes) (text : String) (texts : List String)
    (limit : Int) (natural : 0 ≤ limit) (fits : limit ≤ maxInt64) :
    IsLeast {n | Edits n (lowerBytes s) (lowerBytes t)} (distance s t) ∧
      distance s t = distance t s ∧
      distance s u ≤ distance s t + distance t u ∧
      (distance s t = 0 ↔ lowerBytes s = lowerBytes t) ∧
      (Answers name limit candidates (nearest name limit candidates) ↔
        limit < maxInt64 ∨ Answers name limit candidates []) ∧
      nearest name maxInt64 candidates = [] ∧
      bytesOf ((nearest? text limit texts).getD "") = nearest (bytesOf text) limit (texts.map bytesOf) := by
  refine ⟨distanceApart s t,(distanceApart s t).unique (distanceApart t s).symm,
    (distanceApart s u).triangle (distanceApart s t) (distanceApart t u),(distanceApart s t).zeroIff,?_,
    nearestGreatest name candidates,nearestTexts text limit texts⟩
  rcases Int.lt_or_eq_of_le fits with less | rfl
  · exact iff_of_true (nearestAnswers name candidates natural less) (.inl less)
  · rw [nearestGreatest]
    exact ⟨.inr,fun either => either.resolve_left (Int.lt_irrefl _)⟩

def misspelt : List Bytes := ["Conut", "counts", "COUNT", "donuts"].map bytesOf

/-- Two of the candidates are at the least distance but for the name itself. Under the greatest limit nothing
is suggested although they are within it. -/
theorem nearestFirstMisspelt :
    (0 : Int) ≤ 2 ∧ 2 ≤ maxInt64 ∧ 0 ≤ maxInt64 ∧
      IsLeast {n | Edits n (lowerBytes (bytesOf "Conut")) (lowerBytes (bytesOf "COUNT"))} 2 ∧
      distance (bytesOf "Conut") (bytesOf "donuts") = 2 ∧
      Answers (bytesOf "Conut") 2 misspelt (bytesOf "COUNT") ∧
      nearest (bytesOf "Conut") 2 misspelt = bytesOf "COUNT" ∧
      ¬ Answers (bytesOf "Conut") maxInt64 misspelt (nearest (bytesOf "Conut") maxInt64 misspelt) := by
  have two : distance (bytesOf "Conut") (bytesOf "COUNT") = 2 := by decide +kernel
  have found : nearest (bytesOf "Conut") 2 misspelt = bytesOf "COUNT" := by decide +kernel
  obtain ⟨least,-,-,-,small,-⟩ := nearestFirst (bytesOf "Conut") (bytesOf "COUNT") [] (bytesOf "Conut") misspelt
    "Conut" [] 2 (by decide) (by decide)
  obtain ⟨-,-,-,-,great,-⟩ := nearestFirst [] [] [] (bytesOf "Conut") misspelt "Conut" [] maxInt64 (by decide)
    (by decide)
  refine ⟨by decide,by decide,by decide,two ▸ least,by decide +kernel,found ▸ small.mpr (.inl (by decide)),
    found,fun right => ?_⟩
  rcases great.mp right with less | ⟨first,-⟩ | ⟨far,-⟩
  · exact absurd less (by decide)
  · exact absurd first.member (by decide)
  · have beyond := far (bytesOf "COUNT") (by decide) (by decide)
    rw [two] at beyond
    exact absurd beyond (by decide)

end RegCode.Text
