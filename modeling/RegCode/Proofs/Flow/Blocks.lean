import RegCode.Block
import RegCode.Verify
import RegCode.Proofs.Flow.Lowering
import RegCode.Proofs.Reaching.Transfer
import Mathlib.Data.List.Sort

/-! Blocks of verified code. A block holds the instructions between its bounds, and only the result
of a call keeps it from being cut where protection changes. -/
namespace RegCode

/-- No instruction ends beyond 64 bits. -/
def Method.Fits (m : Method) : Prop := ∀ i ∈ m.code, i.offset + i.width ≤ Text.maxInt64

def Method.Ascending (m : Method) : Prop := m.code.Pairwise (·.offset < ·.offset)

variable {m : Method} {b : Block} {i : Instruction} {o : Int}

namespace Verify

theorem layoutAscends {start : Int} {code : List Instruction} (laid : layout start code = .ok ())
    (fits : ∀ i ∈ code, i.offset + i.width ≤ Text.maxInt64) (positive : 0 ≤ start) :
    code.Pairwise (·.offset < ·.offset) ∧ (∀ i ∈ code, start ≤ i.offset) ∧
      ∀ i ∈ code, ∀ last ∈ code.getLast?, i.offset < last.next := by
  induction code generalizing start with
  | nil => exact ⟨.nil,fun _ member => absurd member List.not_mem_nil,fun _ member =>
    absurd member List.not_mem_nil⟩
  | cons i rest ih =>
    unfold layout at laid
    split at laid
    · contradiction
    · rename_i here
      split at laid
      · contradiction
      · rename_i wide
        have room := fits i (List.mem_cons_self ..)
        have next : i.next = i.offset + i.width := by
          unfold Instruction.next Text.wrap64
          unfold Text.maxInt64 at room
          rw [Int.bmod_eq_of_le (by omega) (by omega)]
        obtain ⟨sorted,above,below⟩ := ih laid (fun j member => fits j (List.mem_cons_of_mem i member))
          (by omega)
        refine ⟨List.pairwise_cons.mpr ⟨fun j member => ?_,sorted⟩,fun j member => ?_,
          fun j member last final => ?_⟩
        · have := above j member
          omega
        · rcases List.mem_cons.mp member with rfl | member
          · omega
          · have := above j member
            omega
        · cases rest with
          | nil =>
            cases List.mem_singleton.mp member
            have : i = last := by simpa using final
            subst this
            omega
          | cons k rest =>
            rw [List.getLast?_cons_cons] at final
            rcases List.mem_cons.mp member with rfl | member
            · have := above k (List.mem_cons_self ..)
              have := below k (List.mem_cons_self ..) last final
              omega
            · exact below j member last final

theorem forMOk {α : Type} {check : α → Except Violation Unit} {as : List α}
    (clear : as.forM check = .ok ()) : ∀ a ∈ as, check a = .ok () := by
  induction as with
  | nil => exact fun _ member => absurd member List.not_mem_nil
  | cons a as ih =>
    obtain ⟨_,first,rest⟩ := okOfBind (show (check a >>= fun _ => as.forM check) = .ok () from clear)
    exact List.forall_mem_cons.mpr ⟨first,ih rest⟩

theorem verified (valid : m.verify = .ok ()) (code : m.code ≠ []) :
    layout 0 m.code = .ok () ∧ ∀ t ∈ m.tries, tryRange m t = .ok () := by
  have clear : violation m = .ok () := by
    unfold Method.verify at valid
    split at valid
    · assumption
    · contradiction
  unfold violation at clear
  split at clear
  · contradiction
  · split at clear
    · contradiction
    · obtain ⟨_,laid,clear⟩ := okOfBind clear
      obtain ⟨_,-,clear⟩ := okOfBind clear
      obtain ⟨_,-,clear⟩ := okOfBind clear
      exact ⟨laid,forMOk clear⟩

theorem boundsOfRange {t : TryRange} (valid : tryRange m t = .ok ()) :
    (∃ j ∈ m.code, j.offset = t.start) ∧ (t.stop = m.codeEnd ∨ ∃ j ∈ m.code, j.offset = t.stop) := by
  unfold tryRange at valid
  split at valid
  · contradiction
  · split at valid
    · contradiction
    · rename_i aligned
      have boundary : ∀ o, isBoundary m o = true ↔ ∃ j ∈ m.code, j.offset = o := by
        simp [isBoundary]
      obtain ⟨start,stop⟩ : isBoundary m t.start = true ∧
          (t.stop = m.codeEnd ∨ isBoundary m t.stop = true) := by
        simpa [or_iff_not_imp_left] using aligned
      exact ⟨(boundary _).mp start,stop.imp id (boundary _).mp⟩

end Verify

theorem Method.ascends (valid : m.verify = .ok ()) (fits : m.Fits) : m.Ascending := by
  by_cases code : m.code = []
  · rw [Ascending,code]
    exact .nil
  · exact (Verify.layoutAscends (Verify.verified valid code).1 fits (Int.le_refl 0)).1

theorem Method.beforeEnd (valid : m.verify = .ok ()) (fits : m.Fits) (member : i ∈ m.code) :
    i.offset < m.codeEnd := by
  have laid := (Verify.verified valid (List.ne_nil_of_mem member)).1
  have final := List.getLast?_eq_some_getLast (List.ne_nil_of_mem member)
  have below := (Verify.layoutAscends laid fits (Int.le_refl 0)).2.2 i member _ final
  simpa [codeEnd,final] using below

namespace Method

theorem Ascending.lt (ascending : m.Ascending) {k l : Nat} {i j : Instruction}
    (here : m.code[k]? = some i) (there : m.code[l]? = some j) (less : k < l) :
    i.offset < j.offset := by
  obtain ⟨inside,rfl⟩ := List.getElem?_eq_some_iff.mp here
  obtain ⟨inside',rfl⟩ := List.getElem?_eq_some_iff.mp there
  exact List.pairwise_iff_getElem.mp ascending k l inside inside' less

theorem searchParts (ascending : m.Ascending) (o : Int) {lo hi : Nat} (ordered : lo ≤ hi)
    (inside : hi ≤ m.code.length) (before : ∀ k i, k < lo → m.code[k]? = some i → i.offset < o)
    (after : ∀ k i, hi ≤ k → m.code[k]? = some i → o ≤ i.offset) :
    (∀ k i, k < searchOffset m.code.toArray o lo hi → m.code[k]? = some i → i.offset < o) ∧
      ∀ k i, searchOffset m.code.toArray o lo hi ≤ k → m.code[k]? = some i → o ≤ i.offset := by
  fun_induction searchOffset m.code.toArray o lo hi with
  | case1 lo hi less mid above ih =>
    have within : mid < m.code.length := by omega
    have here := List.getElem?_eq_getElem within
    refine ih (by omega) (by omega) before fun k j later there => ?_
    have reaches : o ≤ m.code[mid].offset := by simpa [here] using above
    rcases Nat.eq_or_lt_of_le later with rfl | later
    · exact Option.some.inj (here.symm.trans there) ▸ reaches
    · have := ascending.lt here there later
      omega
  | case2 lo hi less mid below ih =>
    have within : mid < m.code.length := by omega
    have here := List.getElem?_eq_getElem within
    refine ih (by omega) inside (fun k j earlier there => ?_) after
    have short : m.code[mid].offset < o := by simpa [here] using below
    rcases Nat.eq_or_lt_of_le (Nat.le_of_lt_succ earlier) with rfl | earlier
    · exact Option.some.inj (here.symm.trans there) ▸ short
    · have := ascending.lt there here earlier
      omega
  | case3 lo hi done => exact ⟨before,fun k i later => after k i (by omega)⟩

theorem positionAtIff (ascending : m.Ascending) {k : Nat} :
    positionAt? m.code.toArray o = some k ↔ ∃ i, m.code[k]? = some i ∧ i.offset = o := by
  obtain ⟨before,after⟩ := searchParts ascending o (Nat.zero_le m.code.length) (Nat.le_refl _)
    (fun k i below => absurd below (Nat.not_lt_zero k)) fun k i above there => by
      rw [List.getElem?_eq_none above] at there
      contradiction
  unfold positionAt?
  simp only [List.getElem?_toArray,List.size_toArray]
  constructor
  · intro found
    split at found
    · rename_i i here
      split at found
      · rename_i same
        exact ⟨i,Option.some.inj found ▸ here,same⟩
      · contradiction
    · contradiction
  · rintro ⟨i,here,rfl⟩
    have same : searchOffset m.code.toArray i.offset 0 m.code.length = k := by
      refine Nat.le_antisymm (Nat.le_of_not_lt fun short => ?_) (Nat.le_of_not_lt fun beyond => ?_)
      · exact Int.lt_irrefl _ (before k i short here)
      · have within := (List.getElem?_eq_some_iff.mp here).1
        have there := List.getElem?_eq_getElem (Nat.lt_trans beyond within)
        have := after _ _ (Nat.le_refl _) there
        have := ascending.lt there here beyond
        omega
    rw [same,here]
    simp

end Method

namespace TryTable

theorem ascendingSorts (xs : List Int) :
    (∀ x, x ∈ ascending xs ↔ x ∈ xs) ∧ (ascending xs).Pairwise (· < ·) := Ascending.dedupSorts xs

end TryTable

namespace Block

theorem startsIff (ascending : m.Ascending) :
    o ∈ starts m ↔ o ∈ leaders m ∧ ∃ i ∈ m.code, i.offset = o ∧ i.family ≠ .moveResult := by
  unfold starts
  rw [List.mem_filter,(TryTable.ascendingSorts _).1]
  refine and_congr_right fun _ => ⟨fun leads => ?_,?_⟩
  · cases found : Method.positionAt? m.code.toArray o with
    | none =>
      rw [found] at leads
      contradiction
    | some k =>
      obtain ⟨i,here,same⟩ := (Method.positionAtIff ascending).mp found
      refine ⟨i,List.mem_of_getElem? here,same,?_⟩
      simpa [found,here] using leads
  · rintro ⟨i,member,same,other⟩
    obtain ⟨k,here⟩ := List.getElem?_of_mem member
    rw [(Method.positionAtIff ascending).mpr ⟨i,here,same⟩]
    simpa [here] using other

theorem startsSorted (m : Method) : (starts m).Pairwise (· < ·) :=
  (TryTable.ascendingSorts _).2.filter _

structure Cut (m : Method) (b : Block) : Prop where
  start : b.start ∈ starts m
  insts : ∀ i, i ∈ b.insts ↔ i ∈ m.code ∧ b.start ≤ i.offset ∧ i.offset < b.stop
  next : ∀ o ∈ starts m, b.start < o → b.stop ≤ o
  ends : b.stop = m.codeEnd ∨ b.stop ∈ starts m

theorem beforeOffset {stop : Int} {code : List Instruction}
    (sorted : code.Pairwise (·.offset < ·.offset)) :
    i ∈ code.takeWhile (fun j => decide (j.offset < stop)) ↔ i ∈ code ∧ i.offset < stop := by
  induction code with
  | nil => simp
  | cons j rest ih =>
    obtain ⟨least,sorted⟩ := List.pairwise_cons.mp sorted
    rw [List.takeWhile_cons]
    split
    · rename_i before
      rw [List.mem_cons,ih sorted,List.mem_cons]
      constructor
      · rintro (rfl | ⟨member,short⟩)
        · exact ⟨.inl rfl,of_decide_eq_true before⟩
        · exact ⟨.inr member,short⟩
      · rintro ⟨rfl | member,short⟩
        · exact .inl rfl
        · exact .inr ⟨member,short⟩
    · rename_i beyond
      have beyond : stop ≤ j.offset := by simpa using beyond
      refine ⟨fun member => absurd member List.not_mem_nil,fun ⟨member,short⟩ => ?_⟩
      rcases List.mem_cons.mp member with rfl | member
      · omega
      · have := least i member
        omega

theorem fromOffset (ascending : m.Ascending) {k : Nat} {first : Instruction}
    (here : m.code[k]? = some first) :
    i ∈ m.code.drop k ↔ i ∈ m.code ∧ first.offset ≤ i.offset := by
  constructor
  · intro member
    obtain ⟨l,there⟩ := List.getElem?_of_mem member
    rw [List.getElem?_drop] at there
    refine ⟨List.mem_of_getElem? there,?_⟩
    rcases Nat.eq_zero_or_pos l with rfl | later
    · exact Int.le_of_eq (congrArg _ (Option.some.inj (here.symm.trans there)))
    · exact Int.le_of_lt (ascending.lt here there (by omega))
  · rintro ⟨member,reaches⟩
    obtain ⟨l,there⟩ := List.getElem?_of_mem member
    have later : k ≤ l := Nat.le_of_not_lt fun earlier => by
      have := ascending.lt there here earlier
      omega
    refine List.mem_of_getElem? (i := l - k) ?_
    rw [List.getElem?_drop,Nat.add_sub_cancel' later,there]

theorem buildCut (ascending : m.Ascending) {id : Nat} {start stop : Int} (starts_ : start ∈ starts m)
    (next : ∀ o ∈ starts m, start < o → stop ≤ o) (ends : stop = m.codeEnd ∨ stop ∈ starts m) :
    (build m m.code.toArray id start stop).Cut m := by
  refine ⟨starts_,fun i => ?_,next,ends⟩
  obtain ⟨-,first,member,same,-⟩ := (startsIff ascending).mp starts_
  obtain ⟨k,here⟩ := List.getElem?_of_mem member
  have insts : (build m m.code.toArray id start stop).insts =
      (m.code.drop k).takeWhile fun j => decide (j.offset < stop) := by
    unfold build
    simp only [(Method.positionAtIff ascending).mpr ⟨first,here,same⟩]
  rw [insts]
  show _ ↔ i ∈ m.code ∧ start ≤ i.offset ∧ i.offset < stop
  rw [beforeOffset (ascending.sublist (List.drop_sublist ..)),fromOffset ascending here,same,and_assoc]

theorem buildAllStarts (m : Method) (code : Array Instruction) (id : Nat) (os : List Int) :
    (buildAll m code id os).map (·.start) = os := by
  fun_induction buildAll m code id os with
  | case1 => rfl
  | case2 => rfl
  | case3 id start stop rest ih =>
    rw [List.map_cons,ih]
    rfl

theorem buildAllCut (ascending : m.Ascending) {id : Nat} {os : List Int} (before : List Int)
    (parts : starts m = before ++ os) (member : b ∈ buildAll m m.code.toArray id os) : b.Cut m := by
  induction os generalizing id before with
  | nil => contradiction
  | cons start os ih =>
    have here : start ∈ starts m := parts ▸ List.mem_append_right before (List.mem_cons_self ..)
    -- Of the starts in order, those after this one are the rest of the list.
    have later : ∀ o ∈ starts m, start < o → o ∈ os := by
      intro o among beyond
      have sorted := startsSorted m
      rw [parts] at among sorted
      obtain ⟨-,-,apart⟩ := List.pairwise_append.mp sorted
      rcases List.mem_append.mp among with earlier | among
      · have := apart o earlier start (List.mem_cons_self ..)
        omega
      · exact (List.mem_cons.mp among).resolve_left (by omega)
    cases os with
    | nil =>
      cases List.mem_singleton.mp member
      exact buildCut ascending here
        (fun o among beyond => absurd (later o among beyond) List.not_mem_nil) (.inl rfl)
    | cons stop rest =>
      rcases List.mem_cons.mp member with rfl | member
      · refine buildCut ascending here (fun o among beyond => ?_) (.inr (parts ▸ by simp))
        have sorted := startsSorted m
        rw [parts] at sorted
        obtain ⟨-,sorted,-⟩ := List.pairwise_append.mp sorted
        have least := (List.pairwise_cons.mp (List.pairwise_cons.mp sorted).2).1
        rcases List.mem_cons.mp (later o among beyond) with rfl | among
        · exact Int.le_refl _
        · exact Int.le_of_lt (least o among)
      · exact ih (before ++ [start]) (by rw [parts]; simp) member

theorem splitCut (ascending : m.Ascending) (member : b ∈ split m) : b.Cut m := by
  unfold split at member
  split at member
  · exact buildAllCut ascending [] rfl member
  · contradiction

theorem splitApart (m : Method) : ((split m).map (·.start)).Nodup := by
  unfold split
  split
  · rw [buildAllStarts]
    exact (startsSorted m).imp Int.ne_of_lt
  · exact List.nodup_nil

theorem Cut.bounds {t : TryRange} (cut : b.Cut m) (valid : m.verify = .ok ()) (fits : m.Fits)
    (range : t ∈ m.tries) (bound : o = t.start ∨ o = t.stop) (beyond : b.start < o)
    (before : o < b.stop) : ∃ j ∈ b.insts, j.offset = o ∧ j.family = .moveResult := by
  have ascending := Method.ascends valid fits
  have code : ∀ p ∈ starts m, p < m.codeEnd := fun p member => by
    obtain ⟨-,i,there,rfl,-⟩ := (startsIff ascending).mp member
    exact Method.beforeEnd valid fits there
  have leads : o ∈ leaders m := by
    refine List.mem_append_right _ (List.mem_flatMap.mpr ⟨t,range,?_⟩)
    rcases bound with rfl | rfl <;> simp
  obtain ⟨-,k,member,-⟩ := (startsIff ascending).mp cut.start
  obtain ⟨start,stop⟩ := Verify.boundsOfRange
    ((Verify.verified valid (List.ne_nil_of_mem member)).2 t range)
  obtain ⟨j,there,rfl⟩ : ∃ j ∈ m.code, j.offset = o := by
    rcases bound with rfl | rfl
    · exact start
    · refine stop.resolve_left fun last => ?_
      rcases cut.ends with ends | among
      · omega
      · have := code _ among
        omega
  refine ⟨j,(cut.insts j).mpr ⟨there,Int.le_of_lt beyond,before⟩,rfl,?_⟩
  by_contra other
  have := cut.next j.offset ((startsIff ascending).mpr ⟨leads,j,there,rfl,other⟩) beyond
  omega

theorem Cut.changes {t : TryRange} (cut : b.Cut m) (valid : m.verify = .ok ()) (fits : m.Fits)
    (member : i ∈ b.insts) (range : t ∈ m.tries) (differ : t.covers i.offset ≠ t.covers b.start) :
    ∃ j ∈ b.insts, j.family = .moveResult ∧ j.offset ≤ i.offset ∧
      (t.start = j.offset ∨ t.stop = j.offset) := by
  obtain ⟨-,reaches,short⟩ := (cut.insts i).mp member
  have bound : b.start < t.start ∧ t.start ≤ i.offset ∨ b.start < t.stop ∧ t.stop ≤ i.offset := by
    by_contra apart
    refine differ (Bool.eq_iff_iff.mpr ?_)
    simp only [TryRange.covers,Bool.and_eq_true,decide_eq_true_eq]
    omega
  rcases bound with ⟨beyond,before⟩ | ⟨beyond,before⟩
  · obtain ⟨j,inside,here,result⟩ := cut.bounds valid fits range (.inl rfl) beyond (by omega)
    exact ⟨j,inside,result,by omega,.inl here.symm⟩
  · obtain ⟨j,inside,here,result⟩ := cut.bounds valid fits range (.inr rfl) beyond (by omega)
    exact ⟨j,inside,result,by omega,.inr here.symm⟩

end Block
end RegCode

/-! Where blocks of verified code lead. Every target of a branch and of a switch, every handler and
whatever a block falls through to is the start of a block, as long as none of them is the result of a
call. -/
namespace RegCode

/-- Control never arrives at the result of a call but from the call. -/
def Method.Clear (m : Method) : Prop := ∀ i ∈ m.code, i.family = .moveResult →
  (∀ j ∈ m.code, i.offset ∉ j.targets) ∧ ∀ t ∈ m.tries, ∀ h ∈ t.handlers, h.target ≠ i.offset

variable {m : Method} {b : Block} {i : Instruction} {o : Int}

namespace Verify

structure Checked (m : Method) : Prop where
  led : ∀ i ∈ m.code, branches m i = .ok ()
  fed : ∀ i ∈ m.code, ∃ prev, operands m prev i = .ok ()
  first : ∀ i ∈ m.code.head?, i.offset = 0 ∧ operands m none i = .ok ()
  last : ∀ i ∈ m.code.getLast?, i.family.isTerminator = true

theorem instructionsOk {prev : Option Instruction} {code : List Instruction}
    (clear : instructions m prev code = .ok ()) :
    (∀ i ∈ code, branches m i = .ok () ∧ ∃ prev, operands m prev i = .ok ()) ∧
      ∀ i ∈ code.head?, operands m prev i = .ok () := by
  induction code generalizing prev with
  | nil => simp
  | cons i rest ih =>
    unfold instructions at clear
    obtain ⟨_,-,clear⟩ := okOfBind clear
    obtain ⟨_,leads,clear⟩ := okOfBind clear
    obtain ⟨_,fits,clear⟩ := okOfBind clear
    refine ⟨List.forall_mem_cons.mpr ⟨⟨leads,prev,fits⟩,(ih clear).1⟩,fun j same => ?_⟩
    cases Option.some.inj same
    exact fits

theorem checked (valid : m.verify = .ok ()) : Checked m := by
  have clear : violation m = .ok () := by
    unfold Method.verify at valid
    split at valid
    · assumption
    · contradiction
  unfold violation at clear
  split at clear
  · rename_i code
    constructor <;> simp [code]
  · rename_i first rest code
    split at clear
    · contradiction
    · rename_i start
      obtain ⟨_,-,clear⟩ := okOfBind clear
      obtain ⟨_,each,clear⟩ := okOfBind clear
      obtain ⟨_,ends,-⟩ := okOfBind clear
      obtain ⟨all,head⟩ := instructionsOk each
      refine ⟨fun i member => (all i member).1,fun i member => (all i member).2,fun i same => ⟨?_,head i same⟩,
        fun i same => ?_⟩
      · rw [code] at same
        cases Option.some.inj same
        exact not_not.mp start
      · unfold ending at ends
        rw [show m.code.getLast? = some i from same] at ends
        by_contra other
        simp [other] at ends

theorem boundaryIff : isBoundary m o = true ↔ ∃ j ∈ m.code, j.offset = o := by simp [isBoundary]

theorem Checked.target (checked : Checked m) (member : i ∈ m.code) (leads : o ∈ i.targets) :
    ∃ j ∈ m.code, j.offset = o := by
  have clear := checked.led i member
  unfold branches at clear
  split at clear
  · contradiction
  · rename_i none
    exact boundaryIff.mp (by simpa using List.find?_eq_none.mp none o leads)

theorem handlerOfRange {t : TryRange} {h : Handler} (valid : tryRange m t = .ok ()) (member : h ∈ t.handlers) :
    ∃ j ∈ m.code, j.offset = h.target := by
  unfold tryRange at valid
  split at valid
  · contradiction
  · split at valid
    · contradiction
    · split at valid
      · contradiction
      · rename_i none
        exact boundaryIff.mp (by simpa using List.find?_eq_none.mp none h member)

end Verify

namespace Block

def leads (b : Block) : List Int := b.targets ++ b.fall.toList

theorem splitStarts (code : m.code ≠ []) : (split m).map (·.start) = starts m := by
  have some : m.hasCode = true := by simpa [Method.hasCode] using code
  rw [split,if_pos some,buildAllStarts]

theorem codeOf (member : b ∈ split m) : m.code ≠ [] := by
  rintro none
  rw [split,if_neg (by simp [Method.hasCode,none])] at member
  contradiction

theorem startOf (code : m.code ≠ []) (start : o ∈ starts m) : ∃ b ∈ split m, b.start = o := by
  rw [← splitStarts code] at start
  exact List.mem_map.mp start

theorem buildAllOf {code : Array Instruction} {id : Nat} {os : List Int} (member : b ∈ buildAll m code id os) :
    ∃ id start stop, b = build m code id start stop := by
  induction os generalizing id with
  | nil => contradiction
  | cons start os ih =>
    cases os with
    | nil => exact ⟨id,start,m.codeEnd,List.mem_singleton.mp member⟩
    | cons stop rest =>
      rcases List.mem_cons.mp member with rfl | member
      · exact ⟨id,start,stop,rfl⟩
      · exact ih member

theorem splitOf (member : b ∈ split m) : ∃ id start stop, b = build m m.code.toArray id start stop := by
  unfold split at member
  split at member
  · exact buildAllOf member
  · contradiction

theorem splitInsts (member : b ∈ split m) : b.insts ⊆ m.code := by
  obtain ⟨id,start,stop,rfl⟩ := splitOf member
  unfold build
  dsimp only
  split
  · exact List.Subset.trans (List.takeWhile_subset _) (List.drop_subset _ _)
  · exact List.nil_subset _

theorem splitEnds {last : Instruction} (member : b ∈ split m) (ends : b.last? = some last) :
    b.targets = last.targets ∧
      b.fall = if !last.family.isTerminator && decide (b.stop < m.codeEnd) then some b.stop else none := by
  obtain ⟨id,start,stop,rfl⟩ := splitOf member
  have final : (build m m.code.toArray id start stop).insts.getLast? = some last := ends
  have parts : (build m m.code.toArray id start stop).targets =
      ((build m m.code.toArray id start stop).insts.getLast?.map Instruction.targets).getD [] ∧
      (build m m.code.toArray id start stop).fall =
        if ((build m m.code.toArray id start stop).insts.getLast?.any fun i => !i.family.isTerminator) &&
          decide (stop < m.codeEnd) then some stop else none := ⟨rfl,rfl⟩
  rw [final] at parts
  exact parts

theorem buildAllForward {code : Array Instruction} {id : Nat} {os : List Int}
    (sorted : os.Pairwise (· < ·)) (before : ∀ o ∈ os, o < m.codeEnd)
    (member : b ∈ buildAll m code id os) : b.start < b.stop := by
  induction os generalizing id with
  | nil => contradiction
  | cons start os ih =>
    obtain ⟨least,sorted⟩ := List.pairwise_cons.mp sorted
    cases os with
    | nil =>
      cases List.mem_singleton.mp member
      exact before start (List.mem_cons_self ..)
    | cons stop rest =>
      rcases List.mem_cons.mp member with rfl | member
      · exact least stop (List.mem_cons_self ..)
      · exact ih sorted (fun o among => before o (List.mem_cons_of_mem start among)) member

section
variable (valid : m.verify = .ok ()) (fits : m.Fits)
include valid fits

theorem startInside (start : o ∈ starts m) : 0 ≤ o ∧ o < m.codeEnd := by
  obtain ⟨-,i,there,rfl,-⟩ := (startsIff (Method.ascends valid fits)).mp start
  have laid := (Verify.verified valid (List.ne_nil_of_mem there)).1
  exact ⟨(Verify.layoutAscends laid fits (Int.le_refl 0)).2.1 i there,Method.beforeEnd valid fits there⟩

theorem lastOf (member : b ∈ split m) : ∃ last, b.last? = some last ∧ last ∈ m.code := by
  have ascending := Method.ascends valid fits
  have cut := splitCut ascending member
  obtain ⟨-,i,there,same,-⟩ := (startsIff ascending).mp cut.start
  have forward : b.start < b.stop := by
    unfold split at member
    split at member
    · exact buildAllForward (startsSorted m) (fun o start => (startInside valid fits start).2) member
    · contradiction
  have held := (cut.insts i).mpr ⟨there,Int.le_of_eq same.symm,by omega⟩
  have final := List.getLast?_eq_some_getLast (List.ne_nil_of_mem held)
  exact ⟨_,final,((cut.insts _).mp (List.mem_of_getLast? final)).1⟩

theorem firstStart {first : Block} {rest : List Block} (blocks : split m = first :: rest) :
    first.start = 0 := by
  have ascending := Method.ascends valid fits
  have member : first ∈ split m := blocks ▸ List.mem_cons_self ..
  have code := codeOf member
  obtain ⟨i,head⟩ : ∃ i, m.code.head? = some i := by
    rw [← Option.isSome_iff_exists,List.isSome_head?]
    simpa using code
  obtain ⟨zero,fed⟩ := (Verify.checked valid).first i head
  have other : i.family ≠ .moveResult := by
    intro result
    simp [Verify.operands,result] at fed
  have start : (0 : Int) ∈ starts m := (startsIff ascending).mpr
    ⟨by simp [leaders,head,zero],i,List.mem_of_mem_head? head,zero,other⟩
  have sorted := startsSorted m
  rw [← splitStarts code,blocks] at sorted start
  have least := (List.pairwise_cons.mp sorted).1
  have inside := (startInside valid fits (splitCut ascending member).start).1
  rcases List.mem_cons.mp start with same | later
  · exact same.symm
  · have less : first.start < 0 := least 0 later
    omega

variable (clear : m.Clear)
include clear

omit clear in
theorem leaderStart (there : ∃ j ∈ m.code, j.offset = o) (leads : o ∈ leaders m)
    (free : ∀ j ∈ m.code, j.offset = o → j.family ≠ .moveResult) : ∃ c ∈ split m, c.start = o := by
  obtain ⟨j,member,same⟩ := there
  exact startOf (List.ne_nil_of_mem member)
    ((startsIff (Method.ascends valid fits)).mpr ⟨leads,j,member,same,free j member same⟩)

theorem leadsStart (member : b ∈ split m) (out : o ∈ b.leads) : ∃ c ∈ split m, c.start = o := by
  obtain ⟨last,ends,there⟩ := lastOf valid fits member
  obtain ⟨targets,fall⟩ := splitEnds member ends
  have code := codeOf member
  have cut := splitCut (Method.ascends valid fits) member
  rcases List.mem_append.mp out with out | out
  · rw [targets] at out
    refine leaderStart valid fits ((Verify.checked valid).target there out) ?_ fun j among same result => ?_
    · refine List.mem_append_left _ (List.mem_append_right _ (List.mem_flatMap.mpr ⟨last,there,?_⟩))
      exact List.mem_append_left _ out
    · exact (clear j among result).1 last there (same ▸ out)
  · rw [fall] at out
    split at out
    · rename_i inside
      simp only [Option.toList_some,List.mem_singleton] at out
      subst out
      simp only [Bool.and_eq_true,decide_eq_true_eq] at inside
      exact startOf code (cut.ends.resolve_left fun last => by omega)
    · contradiction

theorem handlerStart {t : TryRange} {h : Handler} (range : t ∈ m.tries) (code : m.code ≠ [])
    (listed : h ∈ t.handlers) : ∃ c ∈ split m, c.start = h.target := by
  refine leaderStart valid fits
    (Verify.handlerOfRange ((Verify.verified valid code).2 t range) listed) ?_ fun j among same result =>
      (clear j among result).2 t range h listed same.symm
  refine List.mem_append_right _ (List.mem_flatMap.mpr ⟨t,range,?_⟩)
  exact List.mem_cons_of_mem _ (List.mem_cons_of_mem _ (List.mem_map_of_mem listed))

end

end Block
end RegCode
