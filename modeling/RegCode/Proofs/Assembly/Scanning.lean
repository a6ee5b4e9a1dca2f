import RegCode.Assembly.Line
import RegCode.Proofs.Cache.Operands
import Mathlib.Data.List.DropRight
import Mathlib.Data.List.TakeWhile

/-! The scanners of a line agree with each other. What stands between two commas is one operand again,
also when it is scanned alone, and nothing of it is taken for a comment. -/
namespace RegCode

open Text

namespace Text

theorem trimCut (cs : List Char) :
    ∃ before after, cs = before ++ (trimChars cs ++ after) ∧ ∀ c ∈ before, isBlank c = true := by
  refine ⟨cs.takeWhile isBlank,(trimStartChars cs).rtakeWhile isBlank,?_,
    fun c member => List.mem_takeWhile_imp member⟩
  exact ((congrArg (_ ++ ·) (List.rdropWhile_append_rtakeWhile ..)).trans
    List.takeWhile_append_dropWhile).symm

theorem trimSubset (cs : List Char) : trimChars cs ⊆ cs := by
  obtain ⟨before,after,whole,-⟩ := trimCut cs
  intro c member
  rw [whole]
  exact List.mem_append_right _ (List.mem_append_left _ member)

theorem trimEnds {cs : List Char} (first : ∀ c ∈ cs.head?, isBlank c = false)
    (last : ∀ c ∈ cs.getLast?, isBlank c = false) : trimChars cs = cs := by
  have start : trimStartChars cs = cs := by
    cases cs with
    | nil => rfl
    | cons c cs => rw [trimStartChars,List.dropWhile_cons,if_neg (by rw [first c rfl]; nofun)]
  rw [trimChars,start]
  refine List.rdropWhile_eq_self_iff.mpr fun some blank => ?_
  rw [last _ (List.getLast?_eq_some_getLast some)] at blank
  contradiction

theorem trimmedHead (cs : List Char) : ∀ c ∈ (trimChars cs).head?, isBlank c = false := by
  intro c first
  obtain ⟨more,whole⟩ := List.rdropWhile_prefix isBlank (l := cs.dropWhile isBlank)
  have start := List.head?_dropWhile_not isBlank cs
  rw [← whole,List.head?_append,
    show (List.rdropWhile isBlank (cs.dropWhile isBlank)).head? = some c from first] at start
  exact start

theorem trimmedLast (cs : List Char) : ∀ c ∈ (trimChars cs).getLast?, isBlank c = false := by
  intro c last
  obtain ⟨some,rfl⟩ := List.mem_getLast?_eq_getLast last
  exact Bool.eq_false_iff.mpr (List.rdropWhile_last_not isBlank _ some)

theorem trimTwice (cs : List Char) : trimChars (trimChars cs) = trimChars cs :=
  trimEnds (trimmedHead cs) (trimmedLast cs)

theorem trimAppend {cs ds es : List Char} (first : trimChars cs = cs) (last : trimChars es = es)
    (some : cs ≠ []) (some' : es ≠ []) : trimChars (cs ++ (ds ++ es)) = cs ++ (ds ++ es) := by
  refine trimEnds (fun c head => ?_) fun c tail => ?_
  · rw [List.head?_append_of_ne_nil _ some,← first] at head
    exact trimmedHead cs c head
  · rw [List.getLast?_append_of_ne_nil _ (List.append_ne_nil_of_right_ne_nil ds some'),
      List.getLast?_append_of_ne_nil _ some',← last] at tail
    exact trimmedLast es c tail

theorem trimBlank {cs : List Char} (trimmed : trimChars cs = cs) (some : cs ≠ []) :
    trimChars (cs ++ [' ']) = cs := by
  have start : trimStartChars (cs ++ [' ']) = cs ++ [' '] := by
    cases cs with
    | nil => contradiction
    | cons c cs =>
      have solid := trimmedHead (c :: cs) c (by rw [trimmed]; rfl)
      rw [List.cons_append,trimStartChars,List.dropWhile_cons,if_neg (by rw [solid]; nofun)]
  have start' : trimStartChars cs = cs := by
    cases cs with
    | nil => contradiction
    | cons c cs =>
      have solid := trimmedHead (c :: cs) c (by rw [trimmed]; rfl)
      rw [trimStartChars,List.dropWhile_cons,if_neg (by rw [solid]; nofun)]
  rw [trimChars,start] 
  rw [trimChars,start'] at trimmed
  exact (List.rdropWhile_concat_pos _ _ _ rfl).trans trimmed

end Text

namespace Assembly

def nesting (c : Char) : Int := if c = '\x7b' then 1 else if c = '\x7d' then -1 else 0

inductive Uncut : Int → Bool → List Char → Prop where
  | nil {d q} : Uncut d q []
  | stray {d} : Uncut d true ['\\']
  | escape {d c cs} : Uncut d true cs → Uncut d true ('\\' :: c :: cs)
  | closing {d cs} : Uncut d false cs → Uncut d true ('"' :: cs)
  | inside {d c cs} : c ≠ '"' → c ≠ '\\' → Uncut d true cs → Uncut d true (c :: cs)
  | opening {d cs} : Uncut d true cs → Uncut d false ('"' :: cs)
  | outside {d c cs} : c ≠ '"' → c ≠ '#' → ¬(c = ',' ∧ d = 0) → Uncut (d + nesting c) false cs →
      Uncut d false (c :: cs)

variable {depth : Int} {quoted : Bool} {c : Char} {cs ds acc : List Char}

theorem stripPlain (quote : c ≠ '"') (hash : quoted = false → c ≠ '#')
    (slash : quoted = true → c = '\\' → cs = []) :
    stripComment quoted (c :: cs) = c :: stripComment quoted cs := by
  rw [stripComment]
  · exact quote
  · intro d ds open_ same more
    rw [slash open_ same] at more
    contradiction
  · exact hash

theorem stripCommentTwice (quoted : Bool) (cs : List Char) :
    stripComment quoted (stripComment quoted cs) = stripComment quoted cs := by
  fun_induction stripComment quoted cs with
  | case1 => rfl
  | case2 c cs ih => rw [stripComment,ih]
  | case3 quoted cs ih => rw [stripComment,ih]
  | case4 => rfl
  | case5 quoted c cs escape quote hash ih =>
    refine (stripPlain quote hash fun open_ slash => ?_).trans (by rw [ih])
    cases cs with
    | nil => rfl
    | cons d cs => exact (escape d cs open_ slash rfl).elim

theorem stripCommentSubset (quoted : Bool) (cs : List Char) : stripComment quoted cs ⊆ cs := by
  fun_induction stripComment quoted cs with
  | case1 => exact List.Subset.refl _
  | case2 c cs ih => exact List.cons_subset_cons _ (List.cons_subset_cons _ ih)
  | case3 quoted cs ih => exact List.cons_subset_cons _ ih
  | case4 => exact List.nil_subset _
  | case5 quoted c cs escape quote hash ih => exact List.cons_subset_cons _ ih

theorem stripCommentStart (kept : stripComment quoted (cs ++ ds) = cs ++ ds) :
    stripComment quoted cs = cs := by
  fun_induction stripComment quoted cs with
  | case1 => rfl
  | case2 c cs ih =>
    rw [List.cons_append,List.cons_append,stripComment] at kept
    rw [ih (List.cons.inj (List.cons.inj kept).2).2]
  | case3 quoted cs ih =>
    rw [List.cons_append,stripComment] at kept
    rw [ih (List.cons.inj kept).2]
  | case4 cs =>
    rw [List.cons_append,stripComment] at kept
    contradiction
  | case5 quoted c cs escape quote hash ih =>
    cases cs with
    | nil => rfl
    | cons d cs =>
      rw [List.cons_append,stripPlain quote hash fun open_ slash => (escape d cs open_ slash rfl).elim]
        at kept
      rw [ih (List.cons.inj kept).2]

def isPlain (c : Char) : Bool := c != '"' && c != '#'

theorem stripCommentPlain (plain : ∀ c ∈ cs, isPlain c = true) (ds : List Char) :
    stripComment false (cs ++ ds) = cs ++ stripComment false ds := by
  induction cs with
  | nil => rfl
  | cons c cs ih =>
    obtain ⟨here,later⟩ := List.forall_mem_cons.mp plain
    rw [isPlain,Bool.and_eq_true,bne_iff_ne,bne_iff_ne] at here
    rw [List.cons_append,stripPlain here.1 (fun _ => here.2) (fun open_ : false = true => nomatch open_),
      ih later,List.cons_append]

theorem stripCommentTrim (kept : stripComment false cs = cs) :
    stripComment false (trimChars cs) = trimChars cs := by
  obtain ⟨before,after,whole,blank⟩ := trimCut cs
  have plain : ∀ c ∈ before, isPlain c = true := by
    intro c member
    unfold isPlain
    rw [Bool.and_eq_true,bne_iff_ne,bne_iff_ne]
    constructor <;> rintro rfl <;> exact absurd (blank _ member) (by decide)
  rw [whole,stripCommentPlain plain] at kept
  exact stripCommentStart (List.append_cancel_left kept)

theorem piecesInside (quote : c ≠ '"') (slash : c = '\\' → cs = []) :
    operandPieces depth true acc (c :: cs) = operandPieces depth true (c :: acc) cs := by
  rw [operandPieces.eq_def]
  simp only [if_true]
  split
  · rename_i d rest
    exact absurd (slash rfl) (List.cons_ne_nil d rest)
  · contradiction
  · rfl

theorem piecesOutside (quote : c ≠ '"') (comma : ¬(c = ',' ∧ depth = 0)) :
    operandPieces depth false acc (c :: cs) = operandPieces (depth + nesting c) false (c :: acc) cs := by
  rw [operandPieces.eq_def]
  unfold nesting
  simp only [Bool.false_eq_true,if_false,if_neg quote,if_neg comma]
  split
  · rfl
  · split
    · rfl
    · rw [Int.add_zero]

namespace Uncut

theorem piece (uncut : Uncut depth quoted cs) :
    ∀ acc, operandPieces depth quoted acc cs = [acc.reverse ++ cs] := by
  induction uncut with
  | nil => exact fun acc => by rw [operandPieces,List.append_nil]
  | stray => exact fun acc => by rw [piecesInside (by decide) (fun _ => rfl),operandPieces,List.reverse_cons]
  | escape _ ih => exact fun acc => (ih _).trans (by simp)
  | closing _ ih => exact fun acc => (ih _).trans (by simp)
  | inside quote slash _ ih =>
    intro acc
    rw [piecesInside quote (fun same => absurd same slash),ih]
    simp
  | opening _ ih => exact fun acc => (ih _).trans (by simp)
  | outside quote hash comma _ ih =>
    intro acc
    rw [piecesOutside quote comma,ih]
    simp

theorem kept (uncut : Uncut depth quoted cs) : stripComment quoted cs = cs := by
  induction uncut with
  | nil => rw [stripComment]
  | stray => rfl
  | escape _ ih => rw [stripComment,ih]
  | closing _ ih => rw [stripComment,Bool.not_true,ih]
  | inside quote slash _ ih => rw [stripPlain quote (fun open_ : true = false => nomatch open_) (fun _ same => absurd same slash),ih]
  | opening _ ih => rw [stripComment,Bool.not_false,ih]
  | outside quote hash comma _ ih => rw [stripPlain quote (fun _ => hash) (fun open_ : false = true => nomatch open_),ih]

theorem start (uncut : Uncut depth quoted (cs ++ ds)) : Uncut depth quoted cs := by
  generalize whole : cs ++ ds = es at uncut
  induction uncut generalizing cs with
  | nil =>
    rw [(List.append_eq_nil_iff.mp whole).1]
    exact .nil
  | stray =>
    match cs,whole with
    | [],_ => exact .nil
    | [c],whole => 
      rw [(List.cons.inj whole).1]
      exact .stray
  | escape _ ih =>
    match cs,whole with
    | [],_ => exact .nil
    | [c],whole =>
      rw [(List.cons.inj whole).1]
      exact .stray
    | c :: d :: cs,whole =>
      obtain ⟨rfl,more⟩ := List.cons.inj whole
      obtain ⟨rfl,rest⟩ := List.cons.inj more
      exact .escape (ih rest)
  | closing _ ih =>
    match cs,whole with
    | [],_ => exact .nil
    | c :: cs,whole =>
      obtain ⟨rfl,rest⟩ := List.cons.inj whole
      exact .closing (ih rest)
  | inside quote slash _ ih =>
    match cs,whole with
    | [],_ => exact .nil
    | c :: cs,whole =>
      obtain ⟨rfl,rest⟩ := List.cons.inj whole
      exact .inside quote slash (ih rest)
  | opening _ ih =>
    match cs,whole with
    | [],_ => exact .nil
    | c :: cs,whole =>
      obtain ⟨rfl,rest⟩ := List.cons.inj whole
      exact .opening (ih rest)
  | outside quote hash comma _ ih =>
    match cs,whole with
    | [],_ => exact .nil
    | c :: cs,whole =>
      obtain ⟨rfl,rest⟩ := List.cons.inj whole
      exact .outside quote hash comma (ih rest)

end Uncut

theorem plainUncut (plain : ∀ c ∈ cs, c ≠ '"' ∧ c ≠ '#' ∧ c ≠ ',' ∧ nesting c = 0) :
    Uncut depth false cs := by
  induction cs with
  | nil => exact .nil
  | cons c cs ih =>
    obtain ⟨⟨quote,hash,comma,flat⟩,later⟩ := List.forall_mem_cons.mp plain
    refine .outside quote hash (fun both => comma both.1) ?_
    rw [flat,Int.add_zero]
    exact ih later

structure FirstCut (depth : Int) (quoted : Bool) (cs p : List Char) (ps : List (List Char)) : Prop where
  uncut : Uncut depth quoted p
  pieces : ∀ acc, operandPieces depth quoted acc cs = (acc.reverse ++ p) :: ps
  rest : cs = p ∧ ps = [] ∨ ∃ ds, cs = p ++ ',' :: ds ∧ ps = operandPieces 0 false [] ds ∧
    stripComment false ds = ds

theorem FirstCut.further {depth' : Int} {quoted' : Bool} {p : List Char} {ps : List (List Char)}
    (front : List Char) (found : FirstCut depth' quoted' cs p ps)
    (grows : ∀ p, Uncut depth' quoted' p → Uncut depth quoted (front ++ p))
    (steps : ∀ acc, operandPieces depth quoted acc (front ++ cs) =
      operandPieces depth' quoted' (front.reverse ++ acc) cs) :
    FirstCut depth quoted (front ++ cs) (front ++ p) ps where
  uncut := grows p found.uncut
  pieces := fun acc => by
    rw [steps,found.pieces,List.reverse_append,List.reverse_reverse,List.append_assoc]
  rest := by
    rcases found.rest with ⟨rfl,last⟩ | ⟨ds,rfl,later⟩
    · exact .inl ⟨rfl,last⟩
    · exact .inr ⟨ds,(List.append_assoc ..).symm,later⟩

theorem firstCut (depth : Int) (kept : stripComment quoted cs = cs) :
    ∃ p ps, FirstCut depth quoted cs p ps := by
  have plain : ∀ {d cs} (c : Char), c ≠ '"' → ¬(c = ',' ∧ d = 0) → stripComment false (c :: cs) = c :: cs →
      (stripComment false cs = cs → ∃ p ps, FirstCut (d + nesting c) false cs p ps) →
      ∃ p ps, FirstCut d false (c :: cs) p ps := by
    intro d cs c quote comma kept ih
    have hash : c ≠ '#' := by
      rintro rfl
      rw [stripComment] at kept
      contradiction
    rw [stripPlain quote (fun _ => hash) (fun open_ : false = true => nomatch open_)] at kept
    obtain ⟨p,ps,found⟩ := ih (List.cons.inj kept).2
    exact ⟨_,_,found.further [c] (fun _ => .outside quote hash comma) fun _ => piecesOutside quote comma⟩
  fun_induction operandPieces depth quoted ([] : List Char) cs with
  | case1 =>
    exact ⟨[],[],.nil,fun acc => by rw [operandPieces,List.append_nil],.inl ⟨rfl,rfl⟩⟩
  | case2 depth acc d rest ih =>
    rw [stripComment] at kept
    obtain ⟨p,ps,found⟩ := ih (List.cons.inj (List.cons.inj kept).2).2
    exact ⟨_,_,found.further ['\\',d] (fun _ => .escape) fun _ => rfl⟩
  | case3 depth acc rest ih =>
    rw [stripComment] at kept
    obtain ⟨p,ps,found⟩ := ih (List.cons.inj kept).2
    exact ⟨_,_,found.further ['"'] (fun _ => .closing) fun _ => rfl⟩
  | case4 depth acc c rest escape quote ih =>
    have last : c = '\\' → rest = [] := by
      rintro rfl
      cases rest with
      | nil => rfl
      | cons d rest => exact (escape d rest rfl rfl).elim
    rw [stripPlain quote (fun open_ : true = false => nomatch open_) fun _ => last] at kept
    obtain ⟨p,ps,found⟩ := ih (List.cons.inj kept).2
    by_cases slash : c = '\\'
    · rw [slash,last slash]
      exact ⟨_,_,.stray,fun acc => Uncut.stray.piece acc,.inl ⟨rfl,rfl⟩⟩
    · exact ⟨_,_,found.further [c] (fun _ => .inside quote slash) fun _ => piecesInside quote last⟩
  | case5 depth quoted acc cs open_ ih =>
    rw [Bool.not_eq_true] at open_
    subst open_
    rw [stripComment] at kept
    obtain ⟨p,ps,found⟩ := ih (List.cons.inj kept).2
    exact ⟨_,_,found.further ['"'] (fun _ => .opening) fun _ => rfl⟩
  | case6 depth quoted acc cs open_ quote ih =>
    rw [Bool.not_eq_true] at open_
    subst open_
    exact plain '\x7b' quote (by rintro ⟨⟨⟩,-⟩) kept ih
  | case7 depth quoted acc cs open_ quote brace ih =>
    rw [Bool.not_eq_true] at open_
    subst open_
    exact plain '\x7d' quote (by rintro ⟨⟨⟩,-⟩) kept ih
  | case8 depth quoted acc c cs open_ quote _ _ comma ih =>
    rw [Bool.not_eq_true] at open_
    obtain ⟨rfl,rfl⟩ := comma
    subst open_
    rw [stripPlain quote (fun _ => by decide) (fun open_ : false = true => nomatch open_)] at kept
    refine ⟨[],_,.nil,fun acc => ?_,.inr ⟨cs,rfl,rfl,(List.cons.inj kept).2⟩⟩
    rw [List.append_nil]
    rfl
  | case9 depth quoted acc c cs open_ quote left right comma ih =>
    rw [Bool.not_eq_true] at open_
    subst open_
    refine plain c quote comma kept ?_
    rw [nesting,if_neg left,if_neg right,Int.add_zero]
    exact ih

theorem piecesUncut {cs : List Char} (kept : stripComment false cs = cs) :
    ∀ p ∈ operandPieces 0 false [] cs, Uncut 0 false p ∧ p ⊆ cs := by
  obtain ⟨p,ps,found⟩ := firstCut 0 kept
  intro q member
  rw [found.pieces] at member
  rcases found.rest with ⟨rfl,rfl⟩ | ⟨ds,whole,rfl,rest⟩
  · rw [List.mem_singleton.mp member]
    exact ⟨found.uncut,List.Subset.refl _⟩
  · have shorter : ds.length < cs.length := by
      rw [whole,List.length_append,List.length_cons]
      omega
    rcases List.mem_cons.mp member with rfl | member
    · rw [whole]
      exact ⟨found.uncut,List.subset_append_left ..⟩
    · obtain ⟨uncut,within⟩ := piecesUncut rest q member
      rw [whole]
      exact ⟨uncut,fun c inside => List.mem_append_right _ (List.mem_cons_of_mem _ (within inside))⟩
termination_by cs.length

theorem Uncut.afterBlanks (blank : ∀ c ∈ cs, isBlank c = true) (uncut : Uncut depth false (cs ++ ds)) :
    Uncut depth false ds := by
  induction cs with
  | nil => exact uncut
  | cons c cs ih =>
    obtain ⟨here,later⟩ := List.forall_mem_cons.mp blank
    cases uncut with
    | opening => exact absurd here (by decide)
    | outside _ _ _ rest =>
      have flat : nesting c = 0 := by
        unfold nesting
        rw [if_neg,if_neg] <;> rintro rfl <;> exact absurd here (by decide)
      rw [flat,Int.add_zero] at rest
      exact ih later rest

theorem Uncut.trim (uncut : Uncut depth false cs) : Uncut depth false (trimChars cs) := by
  obtain ⟨before,after,whole,blank⟩ := trimCut cs
  rw [whole] at uncut
  exact (uncut.afterBlanks blank).start

structure Piece (cs : List Char) : Prop where
  uncut : Uncut 0 false cs
  trimmed : trimChars cs = cs

theorem operandsUncut {s : String} (kept : stripComment false s.toList = s.toList) :
    ∀ o ∈ operands s, Piece o.toList ∧ o.toList ⊆ s.toList := by
  have parts : ∀ o ∈ (operandPieces 0 false [] s.toList).map fun p => String.ofList (trimChars p),
      Piece o.toList ∧ o.toList ⊆ s.toList := by
    intro o member
    obtain ⟨p,piece,rfl⟩ := List.mem_map.mp member
    obtain ⟨uncut,within⟩ := piecesUncut kept p piece
    rw [String.toList_ofList]
    exact ⟨⟨uncut.trim,trimTwice p⟩,List.Subset.trans (trimSubset p) within⟩
  intro o member
  unfold operands at member
  extract_lets ps at member
  split at member
  · rename_i rest reversed
    refine parts o (List.mem_reverse.mp ?_)
    rw [reversed]
    exact List.mem_cons_of_mem _ (List.mem_reverse.mp member)
  · exact parts o member

theorem trimTrail {s : String} {ss : List String}
    (solid : ∀ t ∈ s :: ss, trimChars t.toList = t.toList ∧ t.toList ≠ []) :
    trimChars (s.toList ++ Instruction.trail ss) = s.toList ++ Instruction.trail ss := by
  obtain ⟨⟨first,some⟩,later⟩ := List.forall_mem_cons.mp solid
  rcases List.eq_nil_or_concat ss with rfl | ⟨front,t,rfl⟩
  · rw [Instruction.trail,List.flatMap_nil,List.append_nil]
    exact first
  · obtain ⟨last,some'⟩ := later t (by simp)
    have split : Instruction.trail (front ++ [t]) = (Instruction.trail front ++ [',',' ']) ++ t.toList := by
      simp [Instruction.trail]
    rw [List.concat_eq_append,split]
    exact trimAppend first last some some'

def Closed (cs : List Char) : Prop :=
  ∀ acc ds, operandPieces 0 false acc (cs ++ ds) = operandPieces 0 false (cs.reverse ++ acc) ds

theorem piecesThrough (through : ∀ c ∈ cs, c ≠ '"' ∧ nesting c = 0 ∧ ¬(c = ',' ∧ depth = 0)) :
    ∀ acc, operandPieces depth false acc (cs ++ ds) = operandPieces depth false (cs.reverse ++ acc) ds := by
  induction cs with
  | nil => exact fun acc => rfl
  | cons c cs ih =>
    obtain ⟨⟨quote,flat,comma⟩,later⟩ := List.forall_mem_cons.mp through
    intro acc
    rw [List.cons_append,piecesOutside quote comma,flat,Int.add_zero,ih later,List.reverse_cons,
      List.append_assoc]
    rfl

theorem piecesTrail {ss : List String} (closed : ∀ s ∈ ss, Closed s.toList) {qs : List (List Char)}
    (ending : ∀ acc, operandPieces 0 false acc ds = acc.reverse :: qs) :
    ∀ acc, operandPieces 0 false acc (Instruction.trail ss ++ ds) =
      acc.reverse :: (ss.map fun s => ' ' :: s.toList) ++ qs := by
  induction ss with
  | nil => exact ending
  | cons s ss ih =>
    obtain ⟨first,later⟩ := List.forall_mem_cons.mp closed
    intro acc
    have cut : operandPieces 0 false acc (Instruction.trail (s :: ss) ++ ds) =
        acc.reverse :: operandPieces 0 false [' '] (s.toList ++ (Instruction.trail ss ++ ds)) := by
      simp only [Instruction.trail,List.flatMap_cons,List.cons_append,List.append_assoc]
      rfl
    rw [cut,first,ih later,List.reverse_append,List.reverse_reverse]
    rfl

theorem operandsParts {s : String} {parts : List String}
    (cut : (operandPieces 0 false [] s.toList).map (fun p => String.ofList (trimChars p)) = parts)
    (some : ∀ t ∈ parts.getLast?, t ≠ "") : operands s = parts := by
  unfold operands
  rw [cut]
  dsimp only
  split
  · rename_i rest reversed
    refine absurd rfl (some "" ?_)
    rw [← List.head?_reverse,reversed]
    rfl
  · rfl

theorem operandsFront {s : String} {front : List String}
    (cut : (operandPieces 0 false [] s.toList).map (fun p => String.ofList (trimChars p)) =
      front ++ [""]) : operands s = front := by
  unfold operands
  rw [cut]
  dsimp only
  rw [List.reverse_append,List.reverse_singleton,List.singleton_append]
  exact List.reverse_reverse front

theorem operandsTrail {s : String} {ss os : List String}
    (closed : ∀ t ∈ s :: ss, Closed t.toList ∧ trimChars t.toList = t.toList)
    (ds : List Char) (qs : List (List Char)) (ending : ∀ acc, operandPieces 0 false acc ds = acc.reverse :: qs)
    (trimmed : qs.map (fun p => String.ofList (trimChars p)) = os) :
    (operandPieces 0 false [] (s.toList ++ (Instruction.trail ss ++ ds))).map
      (fun p => String.ofList (trimChars p)) = s :: ss ++ os := by
  obtain ⟨⟨first,whole⟩,later⟩ := List.forall_mem_cons.mp closed
  rw [first,piecesTrail (fun t member => (later t member).1) ending,List.append_nil,List.reverse_reverse,
    List.map_append,trimmed,List.map_cons,whole,String.ofList_toList,List.map_map]
  refine congrArg (_ :: · ++ os) ((List.map_congr_left fun t member => ?_).trans (List.map_id ss))
  show String.ofList (trimChars t.toList) = t
  rw [(later t member).2,String.ofList_toList]

end Assembly
end RegCode
