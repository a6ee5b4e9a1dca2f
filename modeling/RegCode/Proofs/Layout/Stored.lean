import RegCode.Layout
import RegCode.Proofs.Text.OneLine
import Mathlib.Data.List.DropRight

/-! Text that was laid out is laid out as it stands. -/
namespace RegCode

namespace Text

def ended (ps : List (List Char)) : List Char := ps.flatMap (· ++ ['\n'])

theorem endedAppend (ps qs : List (List Char)) : ended (ps ++ qs) = ended ps ++ ended qs :=
  List.flatMap_append

def linesOf (cs : List Char) : List (List Char) := piecesAt (· == '\n') cs

theorem linesNonempty (cs : List Char) : linesOf cs ≠ [] := piecesNonempty _ cs

theorem linesCons {c : Char} (plain : c ≠ '\n') {cs p : List Char} {ps : List (List Char)}
    (rest : linesOf cs = p :: ps) : linesOf (c :: cs) = (c :: p) :: ps := by
  unfold linesOf at rest ⊢
  rw [piecesAt,rest]
  exact if_neg (mt beq_iff_eq.mp plain)

theorem linesBreak (cs : List Char) : linesOf ('\n' :: cs) = [] :: linesOf cs := by
  obtain ⟨p,ps,rest⟩ := List.exists_cons_of_ne_nil (linesNonempty cs)
  rw [rest]
  unfold linesOf at rest ⊢
  rw [piecesAt,rest]
  rfl

theorem endedLines (cs : List Char) : ended (linesOf cs) = cs ++ ['\n'] := by
  induction cs with
  | nil => rfl
  | cons c cs ih =>
    by_cases break_ : c = '\n'
    · rw [break_,linesBreak,ended,List.flatMap_cons]
      exact congrArg ('\n' :: ·) ih
    · obtain ⟨p,ps,rest⟩ := List.exists_cons_of_ne_nil (linesNonempty cs)
      rw [rest] at ih
      rw [linesCons break_ rest]
      exact congrArg (c :: ·) ih

theorem linesPlain (cs : List Char) : ∀ p ∈ linesOf cs, '\n' ∉ p :=
  fun p member break_ => absurd (piecesFree cs p member _ break_) (by decide)

theorem linesAppend {p : List Char} (plain : '\n' ∉ p) (cs : List Char) :
    linesOf (p ++ '\n' :: cs) = p :: linesOf cs := by
  induction p with
  | nil => exact linesBreak cs
  | cons c p ih =>
    exact linesCons (Ne.symm (List.ne_of_not_mem_cons plain)) (ih (List.not_mem_of_not_mem_cons plain))

theorem linesEnded {ps : List (List Char)} (plain : ∀ p ∈ ps, '\n' ∉ p) :
    linesOf (ended ps) = ps ++ [[]] := by
  induction ps with
  | nil => rfl
  | cons p ps ih =>
    obtain ⟨first,rest⟩ := List.forall_mem_cons.mp plain
    have parts : ended (p :: ps) = p ++ '\n' :: ended ps := by simp [ended]
    rw [parts,linesAppend first,ih rest]
    rfl

theorem linesOfEnded {ps : List (List Char)} {cs : List Char} (plain : ∀ p ∈ ps, '\n' ∉ p)
    (same : cs ++ ['\n'] = ended ps) : linesOf cs = ps := by
  have ends : linesOf (cs ++ ['\n']) = linesOf cs ++ [[]] := by
    rw [← endedLines,linesEnded (linesPlain cs)]
  rw [same,linesEnded plain] at ends
  exact (List.append_cancel_right ends).symm

end Text

namespace Layout

open Text

def trimmed (l : List Char) : List Char :=
  (l.reverse.dropWhile fun c => c == ' ' || c == '\t').reverse

theorem trimmedPlain {l : List Char} (plain : '\n' ∉ l) : '\n' ∉ trimmed l := by
  intro member
  exact plain (List.mem_reverse.mp (List.dropWhile_subset _ (List.mem_reverse.mp member)))

theorem trimmedAgain (l : List Char) : trimmed (trimmed l) = trimmed l := by
  unfold trimmed
  rw [List.reverse_reverse,List.dropWhile_idempotent]

theorem intercalateEnded {ps : List (List Char)} (some : ps ≠ []) :
    ("\n".intercalate (ps.map String.ofList)).toList ++ ['\n'] = ended ps := by
  rw [String.toList_intercalate]
  induction ps with
  | nil => exact absurd rfl some
  | cons p ps ih =>
    cases ps with
    | nil => simp [ended]
    | cons q ps =>
      have := ih (List.cons_ne_nil q ps)
      simp_all [ended]

theorem trimLineEndsChars (s : String) :
    (trimLineEnds s).toList ++ ['\n'] = ended ((linesOf s.toList).map trimmed) := by
  rw [← intercalateEnded (mt List.map_eq_nil_iff.mp (linesNonempty _)),List.map_map]
  unfold trimLineEnds pieces
  dsimp only
  rw [List.map_map]
  congr 3
  refine List.map_congr_left fun l _ => ?_
  simp [trimmed]

theorem endedBreak {ps : List (List Char)} (some : ps ≠ []) : ∃ cs, ended ps = cs ++ ['\n'] :=
  ⟨_,(intercalateEnded some).symm⟩

theorem stripBreak (cs : List Char) :
    stripEnd? "\n" (String.ofList (cs ++ ['\n'])) = some (String.ofList cs) := by
  unfold stripEnd?
  rw [String.toList_ofList,String.toList_ofList,List.reverse_append]
  change (Option.some cs.reverse).map _ = _
  rw [Option.map_some,List.reverse_reverse]

variable {o : Options} {ps : List (List Char)}

def inked (o : Options) (cs : List Char) : List Char := if o.trimLines then trimmed cs else cs

theorem inkedPlain {cs : List Char} (plain : '\n' ∉ cs) : '\n' ∉ inked o cs := by
  unfold inked
  split
  · exact trimmedPlain plain
  · exact plain

theorem inkedAgain (cs : List Char) : inked o (inked o cs) = inked o cs := by
  unfold inked
  split
  · exact trimmedAgain cs
  · rfl

theorem finishEnded (plain : ∀ p ∈ ps, '\n' ∉ p) :
    finish o (String.ofList (ended ps)) = String.ofList (ended (ps.map (inked o))) := by
  have closed : ∀ qs, String.ofList (ended qs) ≠ "" → endsWith "\n" (String.ofList (ended qs)) = true := by
    intro qs some
    have lines : qs ≠ [] := fun none => some (by rw [none]; rfl)
    obtain ⟨cs,break_⟩ := endedBreak lines
    rw [endsWith,break_,stripBreak]
    rfl
  have text : (if o.trimLines then trimLineEnds (String.ofList (ended ps)) else String.ofList (ended ps)) =
      String.ofList (ended (ps.map (inked o))) := by
    unfold inked
    split
    · have chars := trimLineEndsChars (String.ofList (ended ps))
      rw [String.toList_ofList,linesEnded plain,List.map_append,endedAppend] at chars
      apply String.toList_injective
      rw [String.toList_ofList]
      exact List.append_cancel_right chars
    · rw [List.map_id']
  unfold finish
  rw [text]
  dsimp only
  split
  · rename_i open_
    simp only [Bool.and_eq_true,bne_iff_ne,Bool.not_eq_eq_eq_not,Bool.not_true] at open_
    rw [closed _ open_.1.2] at open_
    exact absurd open_.2 Bool.false_ne_true.symm
  · rfl

def shown (o : Options) (l : Line) : List (List Char) :=
  (linesOf (copies l.depth o.unit ++ l.text).toList).map (inked o)

theorem shownPlain {l : Line} : ∀ p ∈ shown o l, '\n' ∉ p := by
  intro p member
  obtain ⟨cs,line,rfl⟩ := List.mem_map.mp member
  exact inkedPlain (linesPlain _ cs line)

theorem shownNonempty (l : Line) : shown o l ≠ [] := mt List.map_eq_nil_iff.mp (linesNonempty _)

theorem renderShown (o : Options) (ls : List Line) :
    render o ls = String.ofList (ended (ls.flatMap (shown o))) := by
  have joined : String.join (ls.map (Line.render o)) = String.ofList (ended (ls.flatMap fun l =>
      linesOf (copies l.depth o.unit ++ l.text).toList)) := by
    apply String.toList_injective
    rw [String.toList_ofList]
    induction ls with
    | nil => rfl
    | cons l ls ih =>
      rw [List.flatMap_cons,endedAppend,endedLines,← ih]
      simp [Line.render]
  rw [render,joined,finishEnded,List.map_flatMap]
  · rfl
  · intro p member
    obtain ⟨l,-,line⟩ := List.mem_flatMap.mp member
    exact linesPlain _ p line

theorem renderSome {ls : List Line} (some : ls ≠ []) : render o ls ≠ "" := by
  obtain ⟨l,rest,rfl⟩ := List.exists_cons_of_ne_nil some
  obtain ⟨cs,break_⟩ :=
    endedBreak (List.append_ne_nil_of_left_ne_nil (shownNonempty (o := o) l) (rest.flatMap (shown o)))
  rw [renderShown,List.flatMap_cons,break_,ne_eq,String.ofList_eq_empty_iff]
  exact List.append_ne_nil_of_right_ne_nil cs (List.cons_ne_nil _ _)

theorem storedLinesEnded (depth : Nat) (some : ps ≠ []) (plain : ∀ p ∈ ps, '\n' ∉ p) :
    storedLines depth (String.ofList (ended ps)) =
      ps.map fun p => if p = [] then .blank else ⟨depth,String.ofList p⟩ := by
  obtain ⟨cs,break_⟩ := endedBreak some
  unfold storedLines
  rw [break_,stripEnd,stripBreak,Option.getD_some,pieces,String.toList_ofList,List.map_map,
    show piecesAt (· == '\n') cs = ps from linesOfEnded plain break_.symm]
  refine List.map_congr_left fun p _ => ?_
  simp

theorem unitLine (o : Options) : OneLine o.unit := by
  unfold Options.unit
  split
  · decide
  · exact oneLineCopies _ (by decide)

theorem shownLine {l : Line} (line : OneLine l.text) :
    shown o l = [inked o ((copies l.depth o.unit).toList ++ l.text.toList)] := by
  have plain := oneLineAppend.mpr ⟨oneLineCopies l.depth (unitLine o),line⟩
  have alone : linesOf (copies l.depth o.unit ++ l.text).toList = [(copies l.depth o.unit ++ l.text).toList] :=
    linesOfEnded (List.forall_mem_singleton.mpr plain) (List.append_nil _).symm
  rw [shown,alone,String.toList_append]
  rfl

theorem shownStored {cs : List Char} (depth : Nat) (plain : '\n' ∉ cs) :
    shown o (if cs = [] then .blank else ⟨depth,String.ofList cs⟩) =
      [inked o (if cs = [] then [] else (copies depth o.unit).toList ++ cs)] := by
  split
  · exact shownLine (l := .blank) (by decide)
  · rw [shownLine (l := ⟨depth,String.ofList cs⟩) (oneLineOfList.mpr plain),String.toList_ofList]

theorem storedAgain {ls : List Line} (some : ls ≠ []) :
    render o (storedLines 0 (render o ls)) = render o ls := by
  obtain ⟨l,rest,rfl⟩ := List.exists_cons_of_ne_nil some
  have all : ∀ p ∈ (l :: rest).flatMap (shown o), '\n' ∉ p ∧ inked o p = p := by
    intro p member
    obtain ⟨l,-,line⟩ := List.mem_flatMap.mp member
    refine ⟨shownPlain p line,?_⟩
    obtain ⟨cs,-,rfl⟩ := List.mem_map.mp line
    exact inkedAgain cs
  have lines : (l :: rest).flatMap (shown o) ≠ [] := by
    rw [List.flatMap_cons]
    exact List.append_ne_nil_of_left_ne_nil (shownNonempty l) _
  rw [renderShown o (l :: rest),storedLinesEnded 0 lines fun p member => (all p member).1,renderShown,
    List.flatMap_map]
  congr 2
  refine (List.flatMap_congr fun p member => ?_).trans (List.flatMap_singleton' _)
  obtain ⟨plain,inks⟩ := all p member
  rw [shownStored 0 plain]
  split
  · rename_i none
    rw [← none,inks]
  · exact congrArg ([·]) inks

theorem declarationSome (o : Options) (depth : Nat) (s : MethodSource) : declarationLines o depth s ≠ [] := by
  intro none
  unfold declarationLines at none
  have rest := (List.append_eq_nil_iff.mp none).2
  split at rest
  · exact absurd (List.append_eq_nil_iff.mp rest).2 (List.cons_ne_nil _ _)
  · exact absurd rest (List.cons_ne_nil _ _)

theorem methodTextStored (m : Method) {s : MethodSource} (some : methodLines o 0 s ≠ []) :
    methodText o { method := m, body := .stored (methodText o s) } = methodText o s := storedAgain some

end Layout

/-! Text that was laid out on its own and then put further in. It stands there as if it had been laid out there,
as long as no line of it falls into several. -/

mutual

/-- The same class, with methods that stand to each other as `R` says, in the class and in those inside it. -/
inductive ClassSource.Alike (R : MethodSource → MethodSource → Prop) : ClassSource → ClassSource → Prop
  | mk {cls : Class} {ms ms' : List MethodSource} {ns ns' : List ClassSource}
    (methods : List.Forall₂ R ms ms') (nested : ClassSource.AlikeAll R ns ns') :
    ClassSource.Alike R (.mk cls ms ns) (.mk cls ms' ns')

inductive ClassSource.AlikeAll (R : MethodSource → MethodSource → Prop) :
    List ClassSource → List ClassSource → Prop
  | nil : ClassSource.AlikeAll R [] []
  | cons {c c' : ClassSource} {cs cs' : List ClassSource} (first : ClassSource.Alike R c c')
    (rest : ClassSource.AlikeAll R cs cs') : ClassSource.AlikeAll R (c :: cs) (c' :: cs')

end

namespace Layout

open Text

def Line.deeper (depth : Nat) (l : Line) : Line := ⟨depth + l.depth,l.text⟩

section
variable (o : Options) (t : VarTable) (depth k : Nat)

theorem labelDeeper (inside : 0 < k) (label : String) :
    labelLines (depth + k) label = (labelLines k label).map (Line.deeper depth) := by
  unfold labelLines
  split
  · rfl
  · simp [Line.deeper,Nat.add_sub_assoc inside]

theorem stmtDeeper (ss : List Stmt) :
    stmtLines t (depth + k) ss = (stmtLines t k ss).map (Line.deeper depth) := by
  simp [stmtLines,Line.deeper]

theorem armDeeper (h : ArmHead) : armLines (depth + k) h = (armLines k h).map (Line.deeper depth) := by
  unfold armLines
  split <;> simp [Line.deeper]

theorem openingDeeper (head : String) :
    opening o (depth + k) head = (opening o k head).map (Line.deeper depth) := by
  unfold opening
  split <;> rfl

theorem closingDeeper (tail : String) :
    closing (depth + k) tail = (closing k tail).map (Line.deeper depth) := rfl

theorem closingBeforeDeeper :
    closingBefore o (depth + k) = (closingBefore o k).map (Line.deeper depth) := by
  unfold closingBefore
  split <;> rfl

theorem reopeningDeeper (head : String) :
    reopening o (depth + k) head = (reopening o k head).map (Line.deeper depth) := by
  simp [reopening,openingDeeper,closingBeforeDeeper]

theorem codeDeeper (m : Method) : codeComment (depth + k) m = (codeComment k m).map (Line.deeper depth) := by
  simp [codeComment,Line.deeper]

end

section
variable {o : Options} {t : VarTable} {depth : Nat}

mutual

theorem treeDeeper : (x : Tree String) → {k : Nat} → (lead : String) → 0 < k →
    treeLines o t (depth + k) lead x = (treeLines o t k lead x).map (Line.deeper depth)
  | .block l body, k, lead, inside => by
    simp [treeLines,labelDeeper depth k inside,bodyDeeper body inside]
  | .stmts l _ ss, k, lead, inside => by
    simp [treeLines,labelDeeper depth k inside,stmtDeeper]
  | .branch l _ c a none, k, lead, inside => by
    simp [treeLines,labelDeeper depth k inside,openingDeeper,closingDeeper,Nat.add_assoc,
      bodyDeeper a k.succ_pos]
  | .branch l _ c a (some b), k, lead, inside => by
    simp [treeLines,labelDeeper depth k inside,openingDeeper,Nat.add_assoc,bodyDeeper a k.succ_pos,
      elseDeeper b inside]
  | .loop l _ _ _ c body, k, lead, inside => by
    simp [treeLines,labelDeeper depth k inside,openingDeeper,closingDeeper,Nat.add_assoc,
      bodyDeeper body k.succ_pos]
  | .switch l _ v arms, k, lead, inside => by
    simp [treeLines,labelDeeper depth k inside,openingDeeper,closingDeeper,Nat.add_assoc,
      armsDeeper arms k.succ_pos]
  | .guarded l _ body cs none, k, lead, inside => by
    simp [treeLines,labelDeeper depth k inside,openingDeeper,closingDeeper,Nat.add_assoc,
      bodyDeeper body k.succ_pos,catchesDeeper cs inside]
  | .guarded l _ body cs (some z), k, lead, inside => by
    simp [treeLines,labelDeeper depth k inside,openingDeeper,closingDeeper,reopeningDeeper,Nat.add_assoc,
      bodyDeeper body k.succ_pos,catchesDeeper cs inside,bodyDeeper z k.succ_pos]
  | .goto l _, k, lead, inside | .breakTo l _, k, lead, inside | .continueTo l _, k, lead, inside => by
    simp [treeLines,labelDeeper depth k inside,Line.deeper]

theorem bodyDeeper : (xs : List (Tree String)) → {k : Nat} → 0 < k →
    bodyLines o t (depth + k) xs = (bodyLines o t k xs).map (Line.deeper depth)
  | [], _, _ => by simp [bodyLines]
  | x :: xs, k, inside => by simp [bodyLines,treeDeeper x "" inside,bodyDeeper xs inside]

theorem elseDeeper : (xs : List (Tree String)) → {k : Nat} → 0 < k →
    elseLines o t (depth + k) xs = (elseLines o t k xs).map (Line.deeper depth)
  | [], k, inside => by simp [elseLines,reopeningDeeper,closingDeeper]
  | [x], k, inside => by
    unfold elseLines
    split
    · simp [closingBeforeDeeper,treeDeeper x (nextHead o "else ") inside]
    · simp [reopeningDeeper,closingDeeper,Nat.add_assoc,treeDeeper x "" k.succ_pos]
  | x :: y :: ys, k, inside => by
    simp [elseLines,reopeningDeeper,closingDeeper,Nat.add_assoc,treeDeeper x "" k.succ_pos,
      bodyDeeper (y :: ys) k.succ_pos]

theorem armsDeeper : (arms : List (ArmHead × List (Tree String))) → {k : Nat} → 0 < k →
    armsLines o t (depth + k) arms = (armsLines o t k arms).map (Line.deeper depth)
  | [], _, _ => by simp [armsLines]
  | (h,body) :: rest, k, inside => by
    simp [armsLines,armDeeper,Nat.add_assoc,bodyDeeper body k.succ_pos,armsDeeper rest inside]

theorem catchesDeeper : (cs : List (CatchHead × List (Tree String))) → {k : Nat} → 0 < k →
    catchesLines o t (depth + k) cs = (catchesLines o t k cs).map (Line.deeper depth)
  | [], _, _ => by simp [catchesLines]
  | (h,body) :: rest, k, inside => by
    simp [catchesLines,reopeningDeeper,Nat.add_assoc,bodyDeeper body k.succ_pos,catchesDeeper rest inside]

end

end

theorem declarationDeeper (o : Options) (depth : Nat) (s : MethodSource) :
    declarationLines o depth s = (declarationLines o 0 s).map (Line.deeper depth) := by
  have body : methodBodyLines o s.vars (depth + 1) s.body =
      (methodBodyLines o s.vars (0 + 1) s.body).map (Line.deeper depth) := by
    cases s.body with
    | code body => exact bodyDeeper body Nat.one_pos
    | failed message => rfl
    | stored text => rfl
  have head := openingDeeper o depth 0
  have foot := closingDeeper depth 0
  have comment := codeDeeper depth 0
  rw [Nat.add_zero] at head foot comment
  unfold declarationLines
  dsimp only
  rw [List.map_append]
  congr 1
  · split
    · exact comment _
    · rfl
  · split
    · rw [List.map_append,List.map_append,head,foot,body]
    · rfl

theorem trimmedAppend (cs ds : List Char) :
    trimmed (cs ++ ds) = if trimmed ds = [] then trimmed cs else cs ++ trimmed ds := by
  unfold trimmed
  rw [List.reverse_append,List.dropWhile_append]
  simp only [List.reverse_eq_nil_iff,List.isEmpty_iff]
  split <;> simp

theorem unitBlank (o : Options) : ∀ c ∈ o.unit.toList, c = ' ' ∨ c = '\t' := by
  unfold Options.unit
  split
  · simp
  · simp [copies]

structure Line.Solid (l : Line) : Prop where
  line : OneLine l.text
  some : l.text ≠ ""

variable {o : Options}

theorem copiesAdd (m n : Nat) (s : String) : copies (m + n) s = copies m s ++ copies n s := by
  rw [copies,List.replicate_add,String.join_append]
  rfl

theorem trimmedIndent (o : Options) (depth : Nat) : trimmed (copies depth o.unit).toList = [] := by
  unfold trimmed
  rw [List.reverse_eq_nil_iff,List.dropWhile_eq_nil_iff]
  intro c member
  rw [List.mem_reverse,copies,String.toList_join] at member
  obtain ⟨cs,copy,inside⟩ := List.mem_flatMap.mp member
  rw [List.eq_of_mem_replicate copy] at inside
  simpa using unitBlank o c inside

theorem shownDeeper {l : Line} (solid : l.Solid) (depth : Nat) {cs : List Char} (ink : shown o l = [cs]) :
    shown o (if cs = [] then .blank else ⟨depth,String.ofList cs⟩) = shown o (l.deeper depth) := by
  have plain : '\n' ∉ cs := shownPlain cs (ink ▸ List.mem_singleton_self cs)
  have text : l.text.toList ≠ [] := fun none => solid.some (String.toList_injective none)
  rw [shownLine solid.line,List.singleton_inj] at ink
  rw [shownStored depth plain,shownLine (l := l.deeper depth) solid.line]
  simp only [Line.deeper,copiesAdd,String.toList_append,List.append_assoc]
  rw [← ink]
  unfold inked
  split
  · rw [trimmedAppend (copies depth o.unit).toList]
    split
    · rw [trimmedIndent]
      rfl
    · rename_i left
      rw [trimmedAppend,trimmedAgain,if_neg left]
  · rw [if_neg (List.append_ne_nil_of_right_ne_nil _ text)]

theorem storedDeeper {ls : List Line} (some : ls ≠ []) (solid : ∀ l ∈ ls, l.Solid) (depth : Nat) :
    (storedLines depth (render o ls)).flatMap (shown o) = (ls.map (Line.deeper depth)).flatMap (shown o) := by
  have plain : ∀ p ∈ ls.flatMap (shown o), '\n' ∉ p := by
    intro p member
    obtain ⟨l,-,line⟩ := List.mem_flatMap.mp member
    exact shownPlain p line
  have lines : ls.flatMap (shown o) ≠ [] := by
    obtain ⟨l,rest,rfl⟩ := List.exists_cons_of_ne_nil some
    rw [List.flatMap_cons]
    exact List.append_ne_nil_of_left_ne_nil (shownNonempty l) _
  rw [renderShown,storedLinesEnded depth lines plain,List.flatMap_map,List.flatMap_assoc,List.flatMap_map]
  refine List.flatMap_congr fun l member => ?_
  have ink := shownLine (o := o) (solid l member).line
  rw [ink,List.flatMap_singleton]
  exact shownDeeper (solid l member) depth ink

def Shows (o : Options) (s s' : MethodSource) : Prop :=
  ∀ depth, (methodLines o depth s).flatMap (shown o) = (methodLines o depth s').flatMap (shown o)

theorem Shows.methodText {s s' : MethodSource} (shows : Shows o s s') : methodText o s = methodText o s' := by
  unfold Layout.methodText
  rw [renderShown,renderShown,shows]

theorem methodsShown {R : MethodSource → MethodSource → Prop} (shows : ∀ s s', R s s' → Shows o s s')
    (depth : Nat) {ms ms' : List MethodSource} (methods : List.Forall₂ R ms ms') :
    (ms.flatMap fun m => .blank :: methodLines o depth m).flatMap (shown o) =
      (ms'.flatMap fun m => .blank :: methodLines o depth m).flatMap (shown o) := by
  induction methods with
  | nil => rfl
  | cons first _ ih =>
    simp only [List.flatMap_cons,List.flatMap_append,List.cons_append,ih,shows _ _ first depth]

section
variable {R : MethodSource → MethodSource → Prop}

mutual

theorem classBodyShown (shows : ∀ s s', R s s' → Shows o s s') : {c c' : ClassSource} → c.Alike R c' → (depth : Nat) →
    (classBodyLines o depth c).flatMap (shown o) = (classBodyLines o depth c').flatMap (shown o)
  | _, _, .mk methods nested, depth => by
    simp only [classBodyLines,List.flatMap_append,methodsShown shows (depth + 1) methods,
      nestedShown shows nested (depth + 1)]

theorem nestedShown (shows : ∀ s s', R s s' → Shows o s s') : {cs cs' : List ClassSource} →
    ClassSource.AlikeAll R cs cs' → (depth : Nat) →
    (nestedLines o depth cs).flatMap (shown o) = (nestedLines o depth cs').flatMap (shown o)
  | _, _, .nil, _ => rfl
  | _, _, .cons first rest, depth => by
    simp only [nestedLines,List.flatMap_cons,List.flatMap_append,List.cons_append,
      classBodyShown shows first depth,nestedShown shows rest depth]

end

theorem classShown (shows : ∀ s s', R s s' → Shows o s s') {c c' : ClassSource} (alike : c.Alike R c') :
    classText o c = classText o c' := by
  have body := classBodyShown shows alike 0
  cases alike
  unfold classText
  dsimp only
  rw [renderShown,renderShown,List.flatMap_append,List.flatMap_append,body]

end

end Layout
end RegCode
