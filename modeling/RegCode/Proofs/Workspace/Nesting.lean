import RegCode.Workspace
import RegCode.Proofs.Assembly.Formed
import Mathlib.Data.List.Nodup
import Mathlib.Data.List.Perm.Subperm

/-! Classes inside classes. Whatever the names of loaded classes are, each class stands inside a
top-level one by one chain, and a walk from the top-level classes inward meets each class once. -/
namespace RegCode

open Text

namespace Text

theorem cutWhereParts {p : Char → Bool} {cs a b : List Char} {c : Char}
    (cut : cutWhere? p cs = some (a,c,b)) : cs = a ++ c :: b := by
  induction cs generalizing a with
  | nil => contradiction
  | cons d cs ih =>
    rw [cutWhere?] at cut
    split at cut
    · cases cut
      rfl
    · obtain ⟨⟨a',c',b'⟩,later,same⟩ := Option.map_eq_some_iff.mp cut
      cases same
      exact congrArg (d :: ·) (ih later)

theorem cutAtLastParts {c : Char} {s a b : String} (cut : cutAtLast? c s = some (a,b)) :
    s.toList = a.toList ++ c :: b.toList := by
  unfold cutAtLast? at cut
  obtain ⟨⟨x,d,y⟩,found,same⟩ := Option.map_eq_some_iff.mp cut
  cases same
  have mark : d = c := beq_iff_eq.mp (cutWhereSome found).2
  have parts := congrArg List.reverse (cutWhereParts found)
  simpa [mark] using parts

theorem stripEndParts {p s t : String} (strip : stripEnd? p s = some t) :
    s.toList = t.toList ++ p.toList := by
  unfold stripEnd? at strip
  obtain ⟨cs,found,rfl⟩ := Option.map_eq_some_iff.mp strip
  simpa using congrArg List.reverse (stripStartSome found)

end Text

namespace Descriptor

def rank (name : String) : Nat := 2 * name.length - if endsWith ";" name then 1 else 0

theorem rankEnded {s t : String} (ended : s.toList = t.toList ++ [';']) :
    rank s = 2 * t.length + 1 := by
  have strip : endsWith ";" s = true := by
    rw [endsWith,stripEnd?,ended]
    simp [stripStartChars?]
  have length := congrArg List.length ended
  rw [List.length_append,String.length_toList,String.length_toList] at length
  rw [rank,if_pos strip,length]
  rfl

theorem rankStripped (name : String) : 2 * (stripEnd ";" name).length ≤ rank name := by
  unfold stripEnd rank endsWith
  cases strip : stripEnd? ";" name with
  | none => simp
  | some t =>
    have length := congrArg List.length (stripEndParts strip)
    rw [List.length_append,String.length_toList,String.length_toList] at length
    rw [Option.isSome_some,if_pos rfl,Option.getD_some,length]
    have one : ";".toList.length = 1 := rfl
    omega

theorem rankOuter {name : String} (other : outerName name ≠ name) : rank (outerName name) < rank name := by
  have some : rank name ≠ 0 := by
    intro none
    have length : name.length = 0 := by
      unfold rank at none
      split at none <;> omega
    exact other (String.length_eq_zero_iff.mp length ▸ rfl)
  unfold outerName
  split
  · rename_i outer rest cut
    split
    · exact Nat.pos_of_ne_zero some
    · have length := congrArg List.length (cutAtLastParts cut)
      rw [List.length_append,List.length_cons,String.length_toList,String.length_toList,
        String.length_toList] at length
      have below := rankStripped name
      rw [rankEnded (String.toList_append ..)]
      omega
  · exact Nat.pos_of_ne_zero some

end Descriptor

namespace Image

def names (img : Image) : List String := img.classes.map (·.name)

theorem namesAdd (img : Image) (c : Class) :
    (img.add c).names = if c.name ∈ img.names then img.names else img.names ++ [c.name] := by
  have known : img.classes.any (·.name == c.name) = true ↔ c.name ∈ img.names := by
    simp [names]
  unfold add
  split
  · rename_i found
    rw [if_pos (known.mp found),names,names,List.map_map]
    refine List.map_congr_left fun old _ => ?_
    dsimp only [Function.comp_apply]
    split
    · rename_i same
      exact (beq_iff_eq.mp same).symm
    · rfl
  · rename_i missing
    rw [if_neg (mt known.mpr missing)]
    exact List.map_append

theorem namesDistinct (cs : List Class) : (cs.foldl add empty).names.Nodup := by
  have grows : ∀ img : Image, img.names.Nodup → (cs.foldl add img).names.Nodup := by
    induction cs with
    | nil => exact fun _ distinct => distinct
    | cons c cs ih =>
      intro img distinct
      refine ih _ ?_
      rw [namesAdd]
      split
      · exact distinct
      · rename_i missing
        refine List.nodup_append.mpr ⟨distinct,List.nodup_singleton _,?_⟩
        intro a member b last same
        exact missing (List.mem_singleton.mp last ▸ same ▸ member)
  exact grows empty List.nodup_nil

end Image

namespace Workspace

variable {w : Workspace} {c d t : Class} {around : List Class}

def Distinct (w : Workspace) : Prop := w.image.names.Nodup

theorem classesPerm (w : Workspace) : w.classes.Perm w.image.classes := List.mergeSort_perm ..

theorem nameApart (distinct : w.Distinct) (first : c ∈ w.classes) (second : d ∈ w.classes)
    (same : c.name = d.name) : c = d :=
  List.inj_on_of_nodup_map distinct ((classesPerm w).mem_iff.mp first)
    ((classesPerm w).mem_iff.mp second) same

theorem classesNodup (distinct : w.Distinct) : w.classes.Nodup :=
  (classesPerm w).nodup_iff.mpr (List.Nodup.of_map _ distinct)

theorem nestedMem : d ∈ w.nested c ↔ d ∈ w.classes ∧ d.outerName = c.name ∧ d.name ≠ c.name := by
  simp [nested]

theorem topLevelMem : t ∈ w.topLevel ↔
    t ∈ w.classes ∧ ∀ c ∈ w.classes, t.outerName = c.name → c.name = t.name := by
  have known : (w.class? t.outerName).isSome = true ↔ ∃ c ∈ w.classes, c.name = t.outerName := by
    simp [class?,Image.get?,(classesPerm w).mem_iff]
  rw [topLevel,List.mem_filter,and_congr_right_iff]
  intro _
  rw [Bool.not_eq_true',← Bool.not_eq_true,isNested,Bool.and_eq_true,known,bne_iff_ne]
  constructor
  · intro free c member outer
    refine Classical.byContradiction fun other => free ⟨?_,c,member,outer.symm⟩
    exact fun same => other (outer.symm.trans same)
  · rintro held ⟨other,c,member,outer⟩
    exact other (outer.symm.trans (held c member outer.symm))

/-- A class and the classes around it, the innermost first and a top-level one last. -/
inductive Stands (w : Workspace) : List Class → Prop
  | top {t : Class} (top : t ∈ w.topLevel) : Stands w [t]
  | inside {c d : Class} {around : List Class} (held : Stands w (c :: around)) (inner : d ∈ w.nested c) :
      Stands w (d :: c :: around)

namespace Stands

theorem member (stands : w.Stands (c :: around)) : c ∈ w.classes := by
  cases stands with
  | top top => exact (topLevelMem.mp top).1
  | inside held inner => exact (nestedMem.mp inner).1

theorem ranks {chain : List Class} (stands : w.Stands chain) :
    chain.Pairwise fun c a => Descriptor.rank a.name < Descriptor.rank c.name := by
  induction stands with
  | top => exact List.pairwise_singleton _ _
  | @inside c d around held inner ih =>
    obtain ⟨-,outer,other⟩ := nestedMem.mp inner
    have below : Descriptor.rank c.name < Descriptor.rank d.name :=
      outer ▸ Descriptor.rankOuter fun same => other (same.symm.trans outer)
    refine List.pairwise_cons.mpr ⟨List.forall_mem_cons.mpr ⟨below,fun a member => ?_⟩,ih⟩
    exact Nat.lt_trans ((List.pairwise_cons.mp ih).1 a member) below

theorem members {chain : List Class} (stands : w.Stands chain) : chain ⊆ w.classes := by
  induction stands with
  | top top => exact List.cons_subset.mpr ⟨(topLevelMem.mp top).1,List.nil_subset _⟩
  | inside held inner ih => exact List.cons_subset.mpr ⟨(nestedMem.mp inner).1,ih⟩

theorem length {chain : List Class} (stands : w.Stands chain) : chain.length ≤ w.image.classes.length := by
  have apart : chain.Nodup := stands.ranks.imp fun below same => absurd (same ▸ below) (Nat.lt_irrefl _)
  exact (classesPerm w).length_eq ▸ (apart.subperm stands.members).length_le

theorem outward {inner : List Class} (stands : w.Stands (inner ++ c :: around)) :
    w.Stands (c :: around) := by
  induction inner with
  | nil => exact stands
  | cons d inner ih =>
    refine ih ?_
    cases rest : inner ++ c :: around with
    | nil => exact absurd rest (by simp)
    | cons a as =>
      rw [List.cons_append,rest] at stands
      cases stands with
      | inside held _ => exact held

theorem exist (member : c ∈ w.classes) : ∃ around, w.Stands (c :: around) := by
  induction measured : Descriptor.rank c.name using Nat.strongRecOn generalizing c with
  | _ n ih =>
    by_cases top : c ∈ w.topLevel
    · exact ⟨[],.top top⟩
    · rw [topLevelMem,not_and] at top
      have ⟨a,held,outer,other⟩ : ∃ a ∈ w.classes, c.outerName = a.name ∧ a.name ≠ c.name := by
        have := top member
        push Not at this
        exact this
      have below : Descriptor.rank c.outerName < Descriptor.rank c.name :=
        Descriptor.rankOuter fun same => other (outer.symm.trans same)
      obtain ⟨around,stands⟩ := ih _ (measured ▸ outer ▸ below) held rfl
      exact ⟨a :: around,.inside stands (nestedMem.mpr ⟨member,outer,other.symm⟩)⟩

theorem unique (distinct : w.Distinct) {around' : List Class} (stands : w.Stands (c :: around))
    (stands' : w.Stands (c :: around')) : around = around' := by
  induction around generalizing c around' with
  | nil =>
    cases stands with
    | top top =>
      cases stands' with
      | top => rfl
      | inside held inner =>
        obtain ⟨-,outer,other⟩ := nestedMem.mp inner
        exact absurd ((topLevelMem.mp top).2 _ held.member outer).symm other
  | cons a around ih =>
    cases stands with
    | inside held inner =>
      obtain ⟨-,outer,other⟩ := nestedMem.mp inner
      cases stands' with
      | top top => exact absurd ((topLevelMem.mp top).2 _ held.member outer).symm other
      | inside held' inner' =>
        cases nameApart distinct held.member held'.member (outer.symm.trans (nestedMem.mp inner').2.1)
        rw [ih held held']

end Stands

def outline (w : Workspace) : Nat → Class → List Class
  | 0, _ => []
  | n + 1, c => c :: (w.nested c).flatMap (w.outline n)

theorem outlineStands {n : Nat} (stands : w.Stands (c :: around)) (met : d ∈ w.outline n c) :
    ∃ inner, w.Stands (inner ++ c :: around) ∧ (inner ++ c :: around).head? = some d := by
  induction n generalizing c around with
  | zero => contradiction
  | succ n ih =>
    rcases List.mem_cons.mp met with rfl | later
    · exact ⟨[],stands,rfl⟩
    · obtain ⟨e,inside,met⟩ := List.mem_flatMap.mp later
      obtain ⟨inner,deep,first⟩ := ih (.inside stands inside) met
      exact ⟨inner ++ [e],by simpa using deep,by simpa using first⟩

theorem outlineMeets {n : Nat} {inner : List Class} (stands : w.Stands (inner ++ c :: around))
    (first : (inner ++ c :: around).head? = some d) (deep : inner.length < n) : d ∈ w.outline n c := by
  induction n generalizing inner c around with
  | zero => contradiction
  | succ n ih =>
    rw [outline]
    rcases List.eq_nil_or_concat' inner with rfl | ⟨inner,e,rfl⟩
    · exact List.mem_cons.mpr (.inl (Option.some.inj first).symm)
    · rw [List.append_assoc,List.singleton_append] at stands first
      rw [List.length_append,List.length_singleton] at deep
      cases stands.outward with
      | inside held inside =>
        exact List.mem_cons_of_mem _
          (List.mem_flatMap.mpr ⟨e,inside,ih stands first (Nat.lt_of_succ_lt_succ deep)⟩)

theorem outlineApart (distinct : w.Distinct) {n : Nat} {a b : Class} (stands : w.Stands (a :: around))
    (stands' : w.Stands (b :: around)) (met : d ∈ w.outline n a) (met' : d ∈ w.outline n b) : a = b := by
  obtain ⟨inner,deep,first⟩ := outlineStands stands met
  obtain ⟨inner',deep',first'⟩ := outlineStands stands' met'
  obtain ⟨rest,chain⟩ := List.head?_eq_some_iff.mp first
  obtain ⟨rest',chain'⟩ := List.head?_eq_some_iff.mp first'
  have same : inner ++ a :: around = inner' ++ b :: around := by
    rw [chain] at deep ⊢
    rw [chain'] at deep' ⊢
    rw [deep.unique distinct deep']
  exact (List.cons.inj (List.append_inj_right' same rfl)).1

theorem outlineNodup (distinct : w.Distinct) {n : Nat} (stands : w.Stands (c :: around)) :
    (w.outline n c).Nodup := by
  induction n generalizing c around with
  | zero => exact List.nodup_nil
  | succ n ih =>
    rw [outline,List.nodup_cons]
    constructor
    · intro met
      obtain ⟨e,inside,met⟩ := List.mem_flatMap.mp met
      obtain ⟨inner,deep,first⟩ := outlineStands (.inside stands inside) met
      obtain ⟨rest,chain⟩ := List.head?_eq_some_iff.mp first
      have same := congrArg List.length chain
      rw [chain] at deep
      rw [deep.unique distinct stands] at same
      simp at same
      omega
    · refine List.nodup_flatMap.mpr ⟨fun e inside => ih (.inside stands inside),?_⟩
      refine ((classesNodup distinct).filter _).imp_of_mem fun inside inside' other => ?_
      exact fun d met met' =>
        other (outlineApart distinct (.inside stands inside) (.inside stands inside') met met')

theorem outlinePerm (distinct : w.Distinct) {n : Nat} (enough : w.image.classes.length ≤ n) :
    (w.topLevel.flatMap (w.outline n)).Perm w.classes := by
  refine (List.perm_ext_iff_of_nodup ?_ (classesNodup distinct)).mpr fun d => ⟨?_,?_⟩
  · refine List.nodup_flatMap.mpr ⟨fun t top => outlineNodup distinct (.top top),?_⟩
    refine ((classesNodup distinct).filter _).imp_of_mem fun top top' other => ?_
    exact fun d met met' => other (outlineApart distinct (.top top) (.top top') met met')
  · intro met
    obtain ⟨t,top,met⟩ := List.mem_flatMap.mp met
    obtain ⟨inner,deep,first⟩ := outlineStands (.top top) met
    obtain ⟨rest,chain⟩ := List.head?_eq_some_iff.mp first
    exact (chain ▸ deep).member
  · intro member
    obtain ⟨around,stands⟩ := Stands.exist member
    obtain ⟨inner,t,chain⟩ := (List.eq_nil_or_concat' (d :: around)).resolve_left nofun
    rw [chain] at stands
    have bound := stands.length
    rw [List.length_append,List.length_singleton] at bound
    cases stands.outward with
    | top top =>
      exact List.mem_flatMap.mpr ⟨t,top,outlineMeets stands (chain ▸ rfl) (by omega)⟩

end Workspace
end RegCode
