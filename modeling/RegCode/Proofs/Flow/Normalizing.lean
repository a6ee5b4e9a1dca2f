import RegCode.Proofs.Flow.Blocks

/-! Normalised exception tables. The ranges stand in order and apart, none that could be one is left in
two, and the range over an offset has the handlers that the directives over it ask for. A list of
directives has just one such table. -/
namespace RegCode

def CatchDirective.covers (d : CatchDirective) (o : Int) : Bool := d.start ≤ o && o < d.stop

namespace TryTable

def handlersAt (ds : List CatchDirective) (o : Int) : List Handler :=
  ((ds.filter (·.covers o)).map fun d => ⟨d.type,d.handler⟩).eraseDupsBy fun a b => a.type == b.type

def Applies (ts : List TryRange) (o : Int) (hs : List Handler) : Prop :=
  ∃ t ∈ ts, t.covers o = true ∧ t.handlers = hs

structure Parted (ts : List TryRange) : Prop where
  filled : ∀ t ∈ ts, t.start < t.stop
  sorted : ts.Pairwise (·.stop ≤ ·.start)

/-- The table that directives ask for. -/
structure Normal (ds : List CatchDirective) (ts : List TryRange) : Prop extends Parted ts where
  apart : ts.Pairwise fun t u => t.stop = u.start → t.handlers ≠ u.handlers
  handlers : ∀ t ∈ ts, ∀ o, t.covers o = true → t.handlers = handlersAt ds o
  covers : ∀ o, (∃ t ∈ ts, t.covers o = true) ↔ ∃ d ∈ ds, d.covers o = true

variable {ds : List CatchDirective} {ts us : List TryRange} {t u : TryRange} {o lo hi : Int}
  {hs : List Handler}

theorem coversIff : t.covers o = true ↔ t.start ≤ o ∧ o < t.stop := by simp [TryRange.covers]

@[simp]
theorem appliesNil : Applies [] o hs ↔ False := by simp [Applies]

theorem appliesCons : Applies (t :: ts) o hs ↔ t.covers o = true ∧ t.handlers = hs ∨ Applies ts o hs := by
  simp [Applies]

theorem firstOfTypeKept (hs acc : List Handler) :
    List.eraseDupsBy.loop (fun a b => a.type == b.type) hs acc =
      acc.reverse ++ (firstOfType hs).filter fun h => !acc.any (h.type == ·.type) := by
  induction hs generalizing acc with
  | nil => simp [List.eraseDupsBy.loop,firstOfType]
  | cons h hs ih =>
    unfold List.eraseDupsBy.loop
    cases known : acc.any (h.type == ·.type) with
    | true =>
      obtain ⟨a,member,same⟩ := List.any_eq_true.mp known
      rw [ih,firstOfType,List.filter_cons_of_neg (by simp [known]),List.filter_filter]
      refine congrArg _ (List.filter_congr fun k _ => ?_)
      cases new : acc.any (k.type == ·.type) with
      | true => simp
      | false =>
        have differ := List.any_eq_false.mp new a member
        rw [eq_of_beq same]
        simpa using differ
    | false =>
      dsimp only
      rw [ih,firstOfType,List.filter_cons_of_pos (by simp [known]),List.filter_filter,
        List.reverse_cons,List.append_assoc]
      refine congrArg (acc.reverse ++ h :: ·) (List.filter_congr fun k _ => ?_)
      rw [List.any_cons,Bool.not_or,Bool.and_comm]
      rfl

theorem firstOfTypeDedup (hs : List Handler) :
    firstOfType hs = hs.eraseDupsBy fun a b => a.type == b.type := by
  simpa [List.eraseDupsBy] using (firstOfTypeKept hs []).symm

theorem handlersNone : handlersAt ds o = [] ↔ ∀ d ∈ ds, d.covers o = false := by
  unfold handlersAt
  rw [← firstOfTypeDedup]
  cases holding : ds.filter (·.covers o) with
  | nil => simpa [firstOfType] using holding
  | cons d rest =>
    have covered : d ∈ ds.filter (·.covers o) := holding ▸ List.mem_cons_self ..
    obtain ⟨member,covers⟩ := List.mem_filter.mp covered
    refine iff_of_false (by simp [firstOfType]) fun none => ?_
    simp [none d member] at covers

def Closed (ds : List CatchDirective) (lo : Int) (rest : List Int) : Prop :=
  ∀ d ∈ ds, (d.start ≤ lo ∨ d.start ∈ rest) ∧ (d.stop ≤ lo ∨ d.stop ∈ rest)

theorem Closed.next {rest : List Int} (closed : Closed ds lo (hi :: rest)) (less : lo < hi) :
    Closed ds hi rest := by
  have onward : ∀ x, x ≤ lo ∨ x ∈ hi :: rest → x ≤ hi ∨ x ∈ rest := by
    rintro x (early | here)
    · exact .inl (by omega)
    · rcases List.mem_cons.mp here with rfl | later
      · exact .inl (Int.le_refl _)
      · exact .inr later
  exact fun d member => ⟨onward _ (closed d member).1,onward _ (closed d member).2⟩

theorem Closed.handlers {rest : List Int} (closed : Closed ds lo (hi :: rest))
    (sorted : (hi :: rest).Pairwise (· < ·)) (reaches : lo ≤ o) (short : o < hi) :
    handlersOver ds lo hi = handlersAt ds o := by
  have least : ∀ x ∈ hi :: rest, hi ≤ x := by
    rintro x (_ | ⟨_,later⟩)
    · exact Int.le_refl _
    · exact Int.le_of_lt ((List.pairwise_cons.mp sorted).1 x later)
  unfold handlersOver handlersAt
  rw [firstOfTypeDedup]
  refine congrArg (fun holding => (List.map _ holding).eraseDupsBy _) (List.filter_congr fun d member => ?_)
  obtain ⟨start,stop⟩ := closed d member
  have start : d.start ≤ lo ∨ hi ≤ d.start := start.imp_right (least _)
  have stop : d.stop ≤ lo ∨ hi ≤ d.stop := stop.imp_right (least _)
  rw [CatchDirective.covers,Bool.eq_iff_iff]
  simp only [Bool.and_eq_true,decide_eq_true_eq]
  omega

theorem segmentsCons {rest : List Int} : segments ds (lo :: hi :: rest) =
    if handlersOver ds lo hi = [] then segments ds (hi :: rest)
    else ⟨lo,hi,handlersOver ds lo hi⟩ :: segments ds (hi :: rest) := by
  rw [segments]
  split
  · rename_i none
    rw [if_pos none]
  · rename_i some
    rw [if_neg some]

theorem segmentsParted {rest : List Int} (sorted : (lo :: rest).Pairwise (· < ·)) :
    Parted (segments ds (lo :: rest)) ∧ ∀ t ∈ segments ds (lo :: rest), lo ≤ t.start := by
  induction rest generalizing lo with
  | nil => exact ⟨⟨by simp [segments],.nil⟩,by simp [segments]⟩
  | cons hi rest ih =>
    obtain ⟨least,sorted⟩ := List.pairwise_cons.mp sorted
    have less := least hi (List.mem_cons_self ..)
    obtain ⟨parted,after⟩ := ih sorted
    have later : ∀ t ∈ segments ds (hi :: rest), lo ≤ t.start := fun t member => by
      have := after t member
      omega
    rw [segmentsCons]
    split
    · exact ⟨parted,later⟩
    · exact ⟨⟨List.forall_mem_cons.mpr ⟨less,parted.filled⟩,List.pairwise_cons.mpr ⟨after,parted.sorted⟩⟩,
        List.forall_mem_cons.mpr ⟨Int.le_refl _,later⟩⟩

theorem segmentsApply {rest : List Int} (sorted : (lo :: rest).Pairwise (· < ·)) (closed : Closed ds lo rest) :
    Applies (segments ds (lo :: rest)) o hs ↔ lo ≤ o ∧ hs ≠ [] ∧ hs = handlersAt ds o := by
  induction rest generalizing lo with
  | nil =>
    refine iff_of_false (by simp [segments]) fun ⟨reaches,held,same⟩ => held (same.trans ?_)
    refine handlersNone.mpr fun d member => ?_
    have stop : d.stop ≤ lo := by simpa using (closed d member).2
    simp only [CatchDirective.covers,Bool.and_eq_false_iff,decide_eq_false_iff_not]
    omega
  | cons hi rest ih =>
    obtain ⟨least,sorted⟩ := List.pairwise_cons.mp sorted
    have less := least hi (List.mem_cons_self ..)
    have here : lo ≤ o → o < hi → handlersOver ds lo hi = handlersAt ds o := closed.handlers sorted
    have rest := ih sorted (closed.next less)
    rw [segmentsCons]
    split
    · rename_i none
      rw [rest]
      refine ⟨fun ⟨reaches,held⟩ => ⟨by omega,held⟩,fun ⟨reaches,held,same⟩ => ⟨?_,held,same⟩⟩
      by_contra short
      exact held (same.trans ((here reaches (by omega)).symm.trans none))
    · rename_i some
      rw [appliesCons,rest,coversIff]
      by_cases short : o < hi
      · have beyond : ¬hi ≤ o := by omega
        constructor
        · rintro (⟨⟨reaches,-⟩,rfl⟩ | ⟨later,-⟩)
          · exact ⟨reaches,some,here reaches short⟩
          · contradiction
        · rintro ⟨reaches,-,same⟩
          exact .inl ⟨⟨reaches,short⟩,(here reaches short).trans same.symm⟩
      · have later : hi ≤ o := by omega
        constructor
        · rintro (⟨⟨-,under⟩,-⟩ | ⟨-,held⟩)
          · contradiction
          · exact ⟨by omega,held⟩
        · exact fun ⟨_,held⟩ => .inr ⟨later,held⟩

theorem joinStarts (member : u ∈ joinTouching ts) : ∃ t ∈ ts, t.start = u.start := by
  induction ts generalizing u with
  | nil => contradiction
  | cons t ts ih =>
    rw [joinTouching] at member
    split at member
    · exact ⟨t,List.mem_cons_self ..,by rw [List.mem_singleton.mp member]⟩
    · rename_i v vs joined
      have later : ∀ w ∈ v :: vs, ∃ t' ∈ t :: ts, t'.start = w.start := fun w member => by
        obtain ⟨t',among,same⟩ := ih (joined ▸ member)
        exact ⟨t',List.mem_cons_of_mem t among,same⟩
      split at member
      · rcases List.mem_cons.mp member with rfl | member
        · exact ⟨t,List.mem_cons_self ..,rfl⟩
        · exact later u (List.mem_cons_of_mem v member)
      · rcases List.mem_cons.mp member with rfl | member
        · exact ⟨u,List.mem_cons_self ..,rfl⟩
        · exact later u member

theorem joinExact (parted : Parted ts) : Parted (joinTouching ts) ∧
    (joinTouching ts).Pairwise (fun t u => t.stop = u.start → t.handlers ≠ u.handlers) ∧
    ∀ o hs, Applies (joinTouching ts) o hs ↔ Applies ts o hs := by
  induction ts with
  | nil => exact ⟨parted,.nil,fun _ _ => .rfl⟩
  | cons t ts ih =>
    obtain ⟨full,filled⟩ := List.forall_mem_cons.mp parted.filled
    obtain ⟨first,sorted⟩ := List.pairwise_cons.mp parted.sorted
    obtain ⟨rest,unlike,same⟩ := ih ⟨filled,sorted⟩
    have after : ∀ u ∈ joinTouching ts, t.stop ≤ u.start := fun u member => by
      obtain ⟨t',among,start⟩ := joinStarts member
      exact start ▸ first t' among
    rw [joinTouching]
    cases joined : joinTouching ts with
    | nil =>
      rw [joined] at same
      exact ⟨⟨by simpa using full,List.pairwise_singleton ..⟩,List.pairwise_singleton ..,
        fun o hs => by rw [appliesCons,appliesCons,same]⟩
    | cons u us =>
      rw [joined] at rest unlike same after
      obtain ⟨wide,filled⟩ := List.forall_mem_cons.mp rest.filled
      obtain ⟨past,sorted⟩ := List.pairwise_cons.mp rest.sorted
      obtain ⟨other,unlike'⟩ := List.pairwise_cons.mp unlike
      dsimp only
      split
      · rename_i touch
        obtain ⟨meet,alike⟩ := touch
        refine ⟨⟨List.forall_mem_cons.mpr ⟨by dsimp only; omega,filled⟩,
          List.pairwise_cons.mpr ⟨past,sorted⟩⟩,List.pairwise_cons.mpr ⟨fun w among => ?_,unlike'⟩,
          fun o hs => ?_⟩
        · rw [alike]
          exact other w among
        · rw [appliesCons,appliesCons,← same,appliesCons,coversIff,coversIff,coversIff,← or_assoc,← alike,
            ← or_and_right]
          refine or_congr_left (and_congr_left fun _ => ?_)
          dsimp only
          omega
      · rename_i differ
        refine ⟨⟨List.forall_mem_cons.mpr ⟨full,rest.filled⟩,List.pairwise_cons.mpr ⟨after,rest.sorted⟩⟩,
          List.pairwise_cons.mpr ⟨fun w among meet alike => ?_,unlike⟩,
          fun o hs => by rw [appliesCons,same,appliesCons]⟩
        rcases List.mem_cons.mp among with rfl | among
        · exact differ ⟨meet,alike⟩
        · have := after u (List.mem_cons_self ..)
          have := past w among
          omega

theorem boundsClosed (ds : List CatchDirective) {rest : List Int} (all : bounds ds = lo :: rest) :
    Closed ds lo rest ∧ ∀ d ∈ ds, lo ≤ d.start := by
  obtain ⟨members,sorted⟩ := ascendingSorts (ds.flatMap fun d => [d.start,d.stop])
  have among : ∀ d ∈ ds, d.start ∈ lo :: rest ∧ d.stop ∈ lo :: rest := fun d member => by
    rw [← all]
    exact ⟨(members _).mpr (List.mem_flatMap.mpr ⟨d,member,by simp⟩),
      (members _).mpr (List.mem_flatMap.mpr ⟨d,member,by simp⟩)⟩
  refine ⟨fun d member => ⟨?_,?_⟩,fun d member => ?_⟩
  · exact (List.mem_cons.mp (among d member).1).imp_left Int.le_of_eq
  · exact (List.mem_cons.mp (among d member).2).imp_left Int.le_of_eq
  · have sorted : (lo :: rest).Pairwise (· < ·) := all ▸ sorted
    rcases List.mem_cons.mp (among d member).1 with same | later
    · exact Int.le_of_eq same.symm
    · exact Int.le_of_lt ((List.pairwise_cons.mp sorted).1 _ later)

theorem segmentsExact (ds : List CatchDirective) : Parted (segments ds (bounds ds)) ∧
    ∀ o hs, Applies (segments ds (bounds ds)) o hs ↔ hs ≠ [] ∧ hs = handlersAt ds o := by
  cases all : bounds ds with
  | nil =>
    have none : ds = [] := List.eq_nil_iff_forall_not_mem.mpr fun d member => by
      have := ((ascendingSorts (ds.flatMap fun d => [d.start,d.stop])).1 d.start).mpr
        (List.mem_flatMap.mpr ⟨d,member,by simp⟩)
      rw [show ascending _ = [] from all] at this
      contradiction
    subst none
    refine ⟨⟨by simp [segments],.nil⟩,fun o hs => iff_of_false (by simp [segments]) fun ⟨held,same⟩ => ?_⟩
    exact held (same.trans (handlersNone.mpr fun d member => absurd member List.not_mem_nil))
  | cons lo rest =>
    have sorted : (lo :: rest).Pairwise (· < ·) := all ▸ (ascendingSorts _).2
    obtain ⟨closed,least⟩ := boundsClosed ds all
    refine ⟨(segmentsParted sorted).1,fun o hs => ?_⟩
    rw [segmentsApply sorted closed]
    refine ⟨fun ⟨_,held⟩ => held,fun ⟨held,same⟩ => ⟨?_,held,same⟩⟩
    -- Below the least bound no directive holds.
    by_contra below
    refine held (same.trans (handlersNone.mpr fun d member => ?_))
    have := least d member
    simp only [CatchDirective.covers,Bool.and_eq_false_iff,decide_eq_false_iff_not]
    omega

theorem Normal.applies (normal : Normal ds ts) : Applies ts o hs ↔ hs ≠ [] ∧ hs = handlersAt ds o := by
  have some : (∃ t ∈ ts, t.covers o = true) ↔ handlersAt ds o ≠ [] := by
    rw [normal.covers,Ne,handlersNone]
    simp
  constructor
  · rintro ⟨t,member,covers,rfl⟩
    have same := normal.handlers t member o covers
    exact ⟨same ▸ some.mp ⟨t,member,covers⟩,same⟩
  · rintro ⟨held,rfl⟩
    obtain ⟨t,member,covers⟩ := some.mpr held
    exact ⟨t,member,covers,normal.handlers t member o covers⟩

theorem firstStop (parted : Parted (t :: ts))
    (apart : (t :: ts).Pairwise fun t u => t.stop = u.start → t.handlers ≠ u.handlers)
    (same : ∀ o hs, Applies (u :: us) o hs → Applies (t :: ts) o hs) (start : t.start = u.start)
    (alike : t.handlers = u.handlers) (wide : t.start < t.stop) : u.stop ≤ t.stop := by
  by_contra beyond
  obtain ⟨v,member,covers,handlers⟩ := same t.stop u.handlers
    ⟨u,List.mem_cons_self ..,coversIff.mpr (by omega),rfl⟩
  obtain ⟨reaches,-⟩ := coversIff.mp covers
  rcases List.mem_cons.mp member with rfl | later
  · exact Int.lt_irrefl _ (coversIff.mp covers).2
  · have after := (List.pairwise_cons.mp parted.sorted).1 v later
    exact (List.pairwise_cons.mp apart).1 v later (by omega) (alike.trans handlers.symm)

theorem firstStart (parted : Parted (t :: ts)) (covered : Applies (t :: ts) o hs) : t.start ≤ o := by
  obtain ⟨v,member,covers,-⟩ := covered
  have reaches := (coversIff.mp covers).1
  rcases List.mem_cons.mp member with rfl | later
  · exact reaches
  · have := (List.pairwise_cons.mp parted.sorted).1 v later
    have := parted.filled t (List.mem_cons_self ..)
    omega

theorem firstHandlers (parted : Parted (t :: ts)) (applies : Applies (t :: ts) t.start hs) : t.handlers = hs := by
  obtain ⟨v,member,covers,rfl⟩ := applies
  rcases List.mem_cons.mp member with rfl | later
  · rfl
  · have := (List.pairwise_cons.mp parted.sorted).1 v later
    have := parted.filled t (List.mem_cons_self ..)
    have := (coversIff.mp covers).1
    omega

theorem laterApplies (parted : Parted (t :: ts)) :
    Applies ts o hs ↔ Applies (t :: ts) o hs ∧ t.stop ≤ o := by
  constructor
  · rintro ⟨v,member,covers,rfl⟩
    have := (List.pairwise_cons.mp parted.sorted).1 v member
    have := (coversIff.mp covers).1
    exact ⟨⟨v,List.mem_cons_of_mem t member,covers,rfl⟩,by omega⟩
  · rintro ⟨⟨v,member,covers,rfl⟩,past⟩
    rcases List.mem_cons.mp member with rfl | member
    · have := (coversIff.mp covers).2
      omega
    · exact ⟨v,member,covers,rfl⟩

theorem tablesAgree (left : Parted ts) (right : Parted us)
    (apart : ts.Pairwise fun t u => t.stop = u.start → t.handlers ≠ u.handlers)
    (apart' : us.Pairwise fun t u => t.stop = u.start → t.handlers ≠ u.handlers)
    (same : ∀ o hs, Applies ts o hs ↔ Applies us o hs) : ts = us := by
  have begins : ∀ {t : TryRange} {ts}, Parted (t :: ts) → Applies (t :: ts) t.start t.handlers :=
    fun {t ts} parted => ⟨t,List.mem_cons_self ..,
      coversIff.mpr ⟨Int.le_refl _,parted.filled t (List.mem_cons_self ..)⟩,rfl⟩
  induction ts generalizing us with
  | nil =>
    cases us with
    | nil => rfl
    | cons u us => exact absurd ((same _ _).mpr (begins right)) (by simp)
  | cons t ts ih =>
    cases us with
    | nil => exact absurd ((same _ _).mp (begins left)) (by simp)
    | cons u us =>
      have start : t.start = u.start := Int.le_antisymm (firstStart left ((same _ _).mpr (begins right)))
        (firstStart right ((same _ _).mp (begins left)))
      have alike : t.handlers = u.handlers :=
        firstHandlers left (start ▸ (same _ _).mpr (begins right))
      have stop : t.stop = u.stop := Int.le_antisymm
        (firstStop right apart' (fun o hs => (same o hs).mp) start.symm alike.symm
          (right.filled u (List.mem_cons_self ..)))
        (firstStop left apart (fun o hs => (same o hs).mpr) start alike (left.filled t (List.mem_cons_self ..)))
      have first : t = u := by
        cases t
        cases u
        simp_all
      have tail : ∀ {t : TryRange} {ts}, Parted (t :: ts) → Parted ts := fun parted =>
        ⟨fun v member => parted.filled v (List.mem_cons_of_mem _ member),(List.pairwise_cons.mp parted.sorted).2⟩
      rw [first,ih (tail left) (tail right) (List.pairwise_cons.mp apart).2 (List.pairwise_cons.mp apart').2
        fun o hs => by rw [laterApplies left,laterApplies right,same,stop]]

/-- Normalising gives the one table that the directives ask for. -/
theorem normalIff : Normal ds ts ↔ ts = normalize ds := by
  obtain ⟨cut,given⟩ := segmentsExact ds
  obtain ⟨parted,apart,same⟩ := joinExact cut
  constructor
  · exact fun normal => tablesAgree normal.toParted parted normal.apart apart fun o hs => by
      rw [normal.applies,normalize,same,given]
  · rintro rfl
    have holds : ∀ o hs, Applies (normalize ds) o hs ↔ hs ≠ [] ∧ hs = handlersAt ds o := fun o hs =>
      (same o hs).trans (given o hs)
    refine ⟨parted,apart,fun t member o covers => ((holds o _).mp ⟨t,member,covers,rfl⟩).2,fun o => ?_⟩
    have held : (∃ t ∈ normalize ds, t.covers o = true) ↔ handlersAt ds o ≠ [] :=
      ⟨fun ⟨t,member,covers⟩ => ((holds o _).mp ⟨t,member,covers,rfl⟩).2 ▸
          ((holds o _).mp ⟨t,member,covers,rfl⟩).1,
        fun some => by
          obtain ⟨t,member,covers,-⟩ := (holds o _).mpr ⟨some,rfl⟩
          exact ⟨t,member,covers⟩⟩
    rw [held,Ne,handlersNone]
    simp

end TryTable
end RegCode
