import RegCode.Chains
import Mathlib.Data.List.Induction
import Mathlib.Data.List.Sort

/-! Sorted lists of locations as sets. Membership says all about such a list, so an order on the
sets of definitions that is read off membership is antisymmetric. -/
namespace RegCode

namespace Ascending

variable {α : Type} [LinearOrder α] [BEq α] [LawfulBEq α]

theorem keptOfRuns (a : α) (as acc : List α) :
    ∃ bs, List.eraseRepsBy.loop (· == ·) a as acc = acc.reverse ++ a :: bs ∧
      (∀ x, x ∈ a :: bs ↔ x ∈ a :: as) ∧
      ((a :: as).Pairwise (· ≤ ·) → (a :: bs).Pairwise (· < ·)) := by
  induction as generalizing a acc with
  | nil => exact ⟨[],by simp [List.eraseRepsBy.loop],fun _ => .rfl,fun _ => by simp⟩
  | cons c as ih =>
    unfold List.eraseRepsBy.loop
    by_cases same : a = c
    · subst same
      obtain ⟨bs,kept,members,sorted⟩ := ih a acc
      refine ⟨bs,by simpa using kept,fun x => by rw [members]; simp,fun ascends => ?_⟩
      exact sorted (List.pairwise_cons.mp ascends).2
    · obtain ⟨bs,kept,members,sorted⟩ := ih c (a :: acc)
      refine ⟨c :: bs,?_,fun x => ?_,fun ascends => ?_⟩
      · rw [beq_false_of_ne same]
        simpa using kept
      · rw [List.mem_cons,members,← List.mem_cons]
      · obtain ⟨least,rest⟩ := List.pairwise_cons.mp ascends
        refine List.pairwise_cons.mpr ⟨fun x member => ?_,sorted rest⟩
        have first : a < c := lt_of_le_of_ne (least c (List.mem_cons_self ..)) same
        rcases List.mem_cons.mp ((members x).mp member) with rfl | member
        · exact first
        · exact lt_of_lt_of_le first ((List.pairwise_cons.mp rest).1 x member)

theorem dedupSorts (xs : List α) :
    (∀ x, x ∈ (xs.mergeSort (· ≤ ·)).eraseReps ↔ x ∈ xs) ∧ ((xs.mergeSort (· ≤ ·)).eraseReps).Pairwise (· < ·) := by
  have sorted : (xs.mergeSort (· ≤ ·)).Pairwise (· ≤ ·) := by
    have sorts : (xs.mergeSort (· ≤ ·)).Pairwise (fun a b => decide (a ≤ b) = true) :=
      List.pairwise_mergeSort (fun a b c first second => by
        simp only [decide_eq_true_eq] at *
        exact le_trans first second) (fun a b => by simpa using le_total a b) xs
    simpa using sorts
  have members : ∀ x, x ∈ xs.mergeSort (· ≤ ·) ↔ x ∈ xs := fun x => List.mem_mergeSort
  cases all : xs.mergeSort (· ≤ ·) with
  | nil =>
    simp only [all] at members
    exact ⟨members,.nil⟩
  | cons a as =>
    obtain ⟨bs,kept,same,strict⟩ := keptOfRuns a as []
    rw [all] at sorted
    have kept : (a :: as).eraseReps = a :: bs := kept
    rw [kept]
    exact ⟨fun x => (same x).trans (all ▸ members x),strict sorted⟩

end Ascending

def Locs.Canonical (ds : List Loc) : Prop := ds.Pairwise (· < ·)

namespace Locs

theorem memInsert {d l : Loc} {ds : List Loc} : d ∈ insert l ds ↔ d = l ∨ d ∈ ds := by
  induction ds with
  | nil => simp [insert]
  | cons a as ih =>
    simp only [insert]
    split
    · simp only [List.mem_cons,ih]; tauto
    · split
      · rename_i same; subst same; simp
      · simp

theorem memUnion {d : Loc} {as bs : List Loc} : d ∈ union as bs ↔ d ∈ as ∨ d ∈ bs := by
  induction as with
  | nil => simp [union]
  | cons a as ih => rw [union,memInsert,ih,List.mem_cons,or_assoc]

theorem canonicalInsert {l : Loc} {ds : List Loc} (sorted : Canonical ds) :
    Canonical (insert l ds) := by
  unfold Canonical at *
  induction ds with
  | nil => simp [insert]
  | cons a as ih =>
    obtain ⟨least,rest⟩ := List.pairwise_cons.mp sorted
    simp only [insert]
    split
    · rename_i less
      refine List.pairwise_cons.mpr ⟨fun d member => ?_,ih rest⟩
      rcases memInsert.mp member with rfl | h
      · exact less
      · exact least d h
    · split
      · exact sorted
      · rename_i less other
        have first : l < a := Int.lt_iff_le_and_ne.mpr ⟨Int.not_lt.mp less,Ne.symm other⟩
        refine List.pairwise_cons.mpr ⟨fun d member => ?_,sorted⟩
        rcases List.mem_cons.mp member with rfl | h
        · exact first
        · exact Int.lt_trans first (least d h)

theorem canonicalUnion {as bs : List Loc} (sorted : Canonical bs) : Canonical (union as bs) := by
  induction as with
  | nil => exact sorted
  | cons a as ih => exact canonicalInsert ih

theorem eqOfMem {as bs : List Loc} (left : Canonical as) (right : Canonical bs)
    (same : ∀ d, d ∈ as ↔ d ∈ bs) : as = bs :=
  List.Pairwise.eq_of_mem_iff left right same

end Locs

namespace DefSet

structure Shaped (size : Nat) (s : DefSet) : Prop where
  size : s.defs.size = size
  sorted : ∀ v, Locs.Canonical (s.get v)

instance : LE DefSet := ⟨fun a b => ∀ v, ∀ d ∈ a.get v, d ∈ b.get v⟩

theorem leRefl (s : DefSet) : s ≤ s := fun _ _ h => h

theorem leTrans {a b c : DefSet} (ab : a ≤ b) (bc : b ≤ c) : a ≤ c :=
  fun v d h => bc v d (ab v d h)

theorem leAntisymm {size : Nat} {a b : DefSet} (left : Shaped size a) (right : Shaped size b)
    (ab : a ≤ b) (ba : b ≤ a) : a = b := by
  obtain ⟨as⟩ := a
  obtain ⟨bs⟩ := b
  have sizes : as.size = bs.size := left.size.trans right.size.symm
  congr 1
  refine Array.ext sizes fun v hv hv' => ?_
  have same := Locs.eqOfMem (left.sorted v) (right.sorted v) fun d => ⟨ab v d,ba v d⟩
  simpa [get,hv,hv'] using same

@[simp] theorem getEmpty (size : Nat) (v : VarId) : (empty size).get v = [] := by
  simp only [get,empty,Array.getElem?_replicate]
  split <;> rfl

theorem shapedEmpty (size : Nat) : Shaped size (empty size) :=
  ⟨by simp [empty],fun v => by simp [Locs.Canonical]⟩

theorem getSet {s : DefSet} {v w : VarId} {ds : List Loc} (inside : v < s.defs.size) :
    (s.set v ds).get w = if w = v then ds else s.get w := by
  simp only [get,set,Array.getElem?_setIfInBounds]
  by_cases h : w = v
  · subst h; simp [inside]
  · simp [h,Ne.symm h]

theorem shapedSet {size : Nat} {s : DefSet} {v : VarId} {ds : List Loc} (shaped : Shaped size s)
    (sorted : Locs.Canonical ds) : Shaped size (s.set v ds) := by
  refine ⟨by simp [set,shaped.size],fun w => ?_⟩
  by_cases inside : v < s.defs.size
  · rw [getSet inside]
    split
    · exact sorted
    · exact shaped.sorted w
  · have same : s.set v ds = s := by
      simp only [set,Array.setIfInBounds,dif_neg inside]
    rw [same]; exact shaped.sorted w

theorem memUnion {size : Nat} {a b : DefSet} (left : Shaped size a) (right : Shaped size b)
    {v : VarId} {d : Loc} : d ∈ (a.union b).get v ↔ d ∈ a.get v ∨ d ∈ b.get v := by
  have sizes : a.defs.size = b.defs.size := left.size.trans right.size.symm
  simp only [get,union,Array.getElem?_zipWith]
  by_cases inside : v < a.defs.size
  · have inside' : v < b.defs.size := sizes ▸ inside
    simp [inside,inside',Locs.memUnion]
  · have outside : ¬v < b.defs.size := sizes ▸ inside
    simp [Array.getElem?_eq_none (Nat.not_lt.mp inside),
      Array.getElem?_eq_none (Nat.not_lt.mp outside)]

theorem shapedUnion {size : Nat} {a b : DefSet} (left : Shaped size a) (right : Shaped size b) :
    Shaped size (a.union b) := by
  have sizes : a.defs.size = b.defs.size := left.size.trans right.size.symm
  refine ⟨by simp [union,left.size,right.size],fun v => ?_⟩
  have la := left.sorted v
  have lb := right.sorted v
  simp only [get,union,Array.getElem?_zipWith] at la lb ⊢
  by_cases inside : v < a.defs.size
  · have inside' : v < b.defs.size := sizes ▸ inside
    simp only [inside,inside',Array.getElem?_eq_getElem,Option.getD_some] at la lb ⊢
    exact Locs.canonicalUnion lb
  · simp [Array.getElem?_eq_none (Nat.not_lt.mp inside),Locs.Canonical]

end DefSet

end RegCode

/-! Sets of definitions on the way through the statements of a node. What an exception can take
along is what reaches the point after some of the statements. -/
namespace RegCode

def Bounded (size : Nat) (ss : List Stmt) : Prop := ∀ s ∈ ss, ∀ v, s.def? = some v → v < size

theorem Bounded.tail {size : Nat} {s : Stmt} {ss : List Stmt} (h : Bounded size (s :: ss)) :
    Bounded size ss := fun t member => h t (List.mem_cons_of_mem _ member)

theorem Bounded.take {size : Nat} {ss : List Stmt} (h : Bounded size ss) (k : Nat) :
    Bounded size (ss.take k) := fun t member => h t (List.mem_of_mem_take member)

namespace DefSet

variable {size : Nat}

theorem memAfter {s : DefSet} {st : Stmt} {v : VarId} {d : Loc}
    (inside : ∀ w, st.def? = some w → w < s.defs.size) :
    d ∈ (s.after st).get v ↔
      (st.def? = some v ∧ d = st.loc) ∨ (st.def? ≠ some v ∧ d ∈ s.get v) := by
  unfold after
  split
  · rename_i w h
    rw [getSet (inside w h),h]
    by_cases same : v = w
    · subst same; simp
    · simp [same,Ne.symm same]
  · rename_i h; simp [h]

theorem memDuring {s : DefSet} {st : Stmt} {v : VarId} {d : Loc}
    (inside : ∀ w, st.def? = some w → w < s.defs.size) :
    d ∈ (s.during st).get v ↔ (st.def? = some v ∧ d = st.loc) ∨ d ∈ s.get v := by
  unfold during
  split
  · rename_i w h
    rw [getSet (inside w h),h]
    by_cases same : v = w
    · subst same; simp [Locs.memInsert]
    · simp [same,Ne.symm same]
  · rename_i h; simp [h]

theorem shapedAfter {s : DefSet} (shaped : Shaped size s) (st : Stmt) : Shaped size (s.after st) := by
  unfold after
  split
  · exact shapedSet shaped (by simp [Locs.Canonical])
  · exact shaped

theorem shapedDuring {s : DefSet} (shaped : Shaped size s) (st : Stmt) :
    Shaped size (s.during st) := by
  unfold during
  split
  · exact shapedSet shaped (Locs.canonicalInsert (shaped.sorted _))
  · exact shaped

theorem shapedFoldAfter {s : DefSet} (shaped : Shaped size s) (ss : List Stmt) :
    Shaped size (ss.foldl after s) := by
  induction ss generalizing s with
  | nil => exact shaped
  | cons st ss ih => exact ih (shapedAfter shaped st)

theorem shapedFoldDuring {s : DefSet} (shaped : Shaped size s) (ss : List Stmt) :
    Shaped size (ss.foldl during s) := by
  induction ss generalizing s with
  | nil => exact shaped
  | cons st ss ih => exact ih (shapedDuring shaped st)

theorem foldAfterMono {a b : DefSet} {ss : List Stmt} (left : Shaped size a) (right : Shaped size b)
    (bounded : Bounded size ss) (le : a ≤ b) : ss.foldl after a ≤ ss.foldl after b := by
  induction ss generalizing a b with
  | nil => exact le
  | cons st ss ih =>
    refine ih (shapedAfter left st) (shapedAfter right st) bounded.tail fun v d member => ?_
    have inside := bounded st (List.mem_cons_self ..)
    rw [memAfter (by rwa [right.size])]
    rw [memAfter (by rwa [left.size])] at member
    exact member.imp id fun h => ⟨h.1,le v d h.2⟩

theorem memFoldDuring {s : DefSet} {ss : List Stmt} {v : VarId} {d : Loc} (shaped : Shaped size s)
    (bounded : Bounded size ss) :
    d ∈ (ss.foldl during s).get v ↔
      ∃ k, k ≤ ss.length ∧ d ∈ ((ss.take k).foldl after s).get v := by
  induction ss using List.reverseRecOn with
  | nil => simp
  | append_singleton ss st ih =>
    have front : Bounded size ss := fun t member => bounded t (by simp [member])
    have inside := bounded st (by simp)
    have all := shapedFoldAfter shaped ss
    rw [List.foldl_append,List.foldl_cons,List.foldl_nil,
      memDuring (by rwa [(shapedFoldDuring shaped ss).size]),ih front]
    constructor
    · rintro (⟨defines,rfl⟩ | ⟨k,short,member⟩)
      · refine ⟨ss.length + 1,by simp,?_⟩
        rw [List.take_of_length_le (by simp),List.foldl_append,List.foldl_cons,List.foldl_nil,
          memAfter (by rwa [all.size])]
        exact .inl ⟨defines,rfl⟩
      · exact ⟨k,by simp; omega,by rwa [List.take_append_of_le_length short]⟩
    · rintro ⟨k,short,member⟩
      by_cases inner : k ≤ ss.length
      · rw [List.take_append_of_le_length inner] at member
        exact .inr ⟨k,inner,member⟩
      · rw [List.take_of_length_le (by simp; omega),List.foldl_append,List.foldl_cons,
          List.foldl_nil,memAfter (by rwa [all.size])] at member
        rcases member with h | ⟨-,h⟩
        · exact .inl h
        · exact .inr ⟨ss.length,le_refl _,by rwa [List.take_length]⟩

theorem foldDuringMono {a b : DefSet} {ss : List Stmt} (left : Shaped size a)
    (right : Shaped size b) (bounded : Bounded size ss) (le : a ≤ b) :
    ss.foldl during a ≤ ss.foldl during b := by
  intro v d member
  obtain ⟨k,short,h⟩ := (memFoldDuring left bounded).mp member
  exact (memFoldDuring right bounded).mpr
    ⟨k,short,foldAfterMono left right (bounded.take k) le v d h⟩

theorem memFoldUnion {s : DefSet} {f : NodeId → DefSet} {is : List NodeId} {v : VarId} {d : Loc}
    (shaped : Shaped size s) (all : ∀ i, Shaped size (f i)) :
    d ∈ (is.foldl (fun acc i => acc.union (f i)) s).get v ↔
      d ∈ s.get v ∨ ∃ i ∈ is, d ∈ (f i).get v := by
  induction is generalizing s with
  | nil => simp
  | cons i is ih =>
    rw [List.foldl_cons,ih (shapedUnion shaped (all i)),memUnion shaped (all i)]
    simp [or_assoc]

theorem shapedFoldUnion {s : DefSet} {f : NodeId → DefSet} {is : List NodeId}
    (shaped : Shaped size s) (all : ∀ i, Shaped size (f i)) :
    Shaped size (is.foldl (fun acc i => acc.union (f i)) s) := by
  induction is generalizing s with
  | nil => exact shaped
  | cons i is ih => exact ih (shapedUnion shaped (all i))

end DefSet

end RegCode
