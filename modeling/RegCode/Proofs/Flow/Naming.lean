import RegCode.Proofs.Chains.Lifetimes
import RegCode.Proofs.Flow.Registers
import RegCode.Proofs.Flow.Variables
import RegCode.Proofs.Text.Numerals

/-! Names of variables. A register has one initial variable, and every later version of it its own number, so
that no two variables of a table have the same text, whichever are parameters. -/
namespace RegCode

open Text (intText intTextInj intTextNumeral isNumeral)

namespace Variable

def key (x : Variable) : Int × Int := (x.register,x.version)

def Given (self : Int → Prop) (x : Variable) : Prop :=
  x.name = "" ∨ x.version = 0 ∧ (x.name = "p" ++ intText x.register ∨ x.name = "this" ∧ self x.register)

def versionMark (n : Int) : List Char := if n = 0 then [] else '_' :: (intText n).toList

theorem versionMarkInj {m n : Int} (same : versionMark m = versionMark n) : m = n := by
  unfold versionMark at same
  split at same <;> split at same <;> rename_i zero zero'
  · exact zero.trans zero'.symm
  · contradiction
  · contradiction
  · exact intTextInj (String.toList_injective (List.cons.inj same).2)

theorem versionMarkStops (n : Int) : ∀ c ∈ (versionMark n).head?, isNumeral c = false := by
  unfold versionMark
  split
  · exact nofun
  · rintro c ⟨⟩
    rfl

theorem textForms {self : Int → Prop} {x : Variable} (given : x.Given self) :
    x.text.toList = 'v' :: ((intText x.register).toList ++ versionMark x.version) ∨
      x.version = 0 ∧ (x.text.toList = 'p' :: (intText x.register).toList ∨
        x.text.toList = "this".toList ∧ self x.register) := by
  rcases given with none | ⟨initial,named | ⟨named,receiver⟩⟩
  · refine .inl ?_
    unfold text versionMark
    rw [if_neg (not_not.mpr none)]
    split <;> simp
  · have some : x.name ≠ "" := by
      rw [named]
      exact fun empty => absurd (congrArg String.toList empty) (by simp)
    rw [text,if_pos some,named]
    exact .inr ⟨initial,.inl (by simp)⟩
  · have some : x.name ≠ "" := by
      rw [named]
      decide
    rw [text,if_pos some,named]
    exact .inr ⟨initial,.inr ⟨rfl,receiver⟩⟩

theorem textKey {self : Int → Prop} (single : ∀ r s, self r → self s → r = s) {x y : Variable}
    (left : x.Given self) (right : y.Given self) (same : x.text = y.text) : x.key = y.key := by
  have shown := congrArg String.toList same
  rcases textForms left with here | ⟨initial,here | ⟨here,receiver⟩⟩ <;>
    rcases textForms right with there | ⟨initial',there | ⟨there,receiver'⟩⟩ <;> rw [here,there] at shown
  · obtain ⟨register,version⟩ := Text.spanInj (intTextNumeral _) (intTextNumeral _) (versionMarkStops _)
      (versionMarkStops _) (List.cons.inj shown).2
    exact Prod.ext (intTextInj (String.toList_injective register)) (versionMarkInj version)
  · exact absurd (List.cons.inj shown).1 (by decide)
  · exact absurd (List.cons.inj shown).1 (by decide)
  · exact absurd (List.cons.inj shown).1 (by decide)
  · exact Prod.ext (intTextInj (String.toList_injective (List.cons.inj shown).2)) (initial.trans initial'.symm)
  · exact absurd (List.cons.inj shown).1 (by decide)
  · exact absurd (List.cons.inj shown).1 (by decide)
  · exact absurd (List.cons.inj shown).1 (by decide)
  · exact Prod.ext (single _ _ receiver receiver') (initial.trans initial'.symm)

end Variable

def laterVersions (ks : List (Int × Int)) (r : Int) : Nat := ks.countP fun k => k.1 == r && k.2 != 0

structure Numbered (ks : List (Int × Int)) : Prop where
  distinct : ks.Nodup
  counted : ∀ k ∈ ks, 0 ≤ k.2 ∧ k.2 ≤ laterVersions ks k.1
  based : ∀ k ∈ ks, (k.1,0) ∈ ks

namespace Numbered

variable {ks : List (Int × Int)} {r : Int}

theorem empty : Numbered [] := ⟨List.nodup_nil,nofun,nofun⟩

theorem snoc {n : Int} (numbered : Numbered ks) (new : (r,n) ∉ ks) (positive : 0 ≤ n)
    (bound : n ≤ laterVersions (ks ++ [(r,n)]) r) (base : (r,0) ∈ ks ++ [(r,n)]) : Numbered (ks ++ [(r,n)]) where
  distinct := List.nodup_append.mpr ⟨numbered.distinct,List.nodup_singleton _,by
    rintro k member _ last rfl
    exact new (List.mem_singleton.mp last ▸ member)⟩
  counted k member := by
    rcases List.mem_append.mp member with old | last
    · obtain ⟨least,most⟩ := numbered.counted k old
      have more : laterVersions ks k.1 ≤ laterVersions (ks ++ [(r,n)]) k.1 := by
        unfold laterVersions
        rw [List.countP_append]
        exact Nat.le_add_right _ _
      exact ⟨least,Int.le_trans most (Int.ofNat_le.mpr more)⟩
    · rw [List.mem_singleton.mp last]
      exact ⟨positive,bound⟩
  based k member := by
    rcases List.mem_append.mp member with old | last
    · exact List.mem_append_left _ (numbered.based k old)
    · rw [List.mem_singleton.mp last]
      exact base

theorem first (numbered : Numbered ks) (new : (r,0) ∉ ks) : Numbered (ks ++ [(r,0)]) :=
  numbered.snoc new (Int.le_refl 0) (Int.natCast_nonneg _) (by simp)

theorem next (numbered : Numbered ks) (base : (r,0) ∈ ks) :
    Numbered (ks ++ [(r,(laterVersions ks r : Int) + 1)]) := by
  have counts : ((laterVersions ks r : Int) + 1 != 0) = true := bne_iff_ne.mpr (by omega)
  have later : laterVersions (ks ++ [(r,(laterVersions ks r : Int) + 1)]) r = laterVersions ks r + 1 := by
    rw [laterVersions,List.countP_append,List.countP_singleton]
    simp only [counts,beq_self_eq_true,Bool.and_true,if_true]
    rfl
  refine numbered.snoc (fun member => ?_) (by omega) (by rw [later]; rfl) (List.mem_append_left _ base)
  have most : (laterVersions ks r : Int) + 1 ≤ laterVersions ks r := (numbered.counted _ member).2
  omega

end Numbered

namespace VarTable

variable {t u : VarTable} {v w : VarId} {r : Int}

def keys (t : VarTable) : List (Int × Int) := t.vars.toList.map Variable.key

theorem keysLength (t : VarTable) : t.keys.length = t.size := by simp [keys,size]

theorem keysGet (inside : v < t.size) : t.keys[v]? = some (t.get v).key := by
  have inside' : v < t.vars.size := inside
  simp [keys,get,inside']

theorem keysPush (t : VarTable) (x : Variable) : (t.push x).1.keys = t.keys ++ [x.key] := by simp [keys,push]

theorem getPush (t : VarTable) (x : Variable) : (t.push x).1.get t.size = x := by simp [get,push,size]

theorem keysSet {x : Variable} (same : x.key = (t.get v).key) : (t.set v x).keys = t.keys := by
  refine List.ext_getElem? fun i => ?_
  simp only [keys,set,List.getElem?_map,Array.getElem?_toList,Array.getElem?_setIfInBounds]
  split
  · rename_i here
    subst here
    split
    · rename_i inside
      rw [Option.map_some,same,get,Array.getElem?_eq_getElem inside]
      rfl
    · rename_i outside
      rw [Array.getElem?_eq_none (Nat.le_of_not_lt outside)]
  · rfl

theorem versionsKeys (t : VarTable) (r : Int) : t.versions r = laterVersions t.keys r := by
  rw [versions,laterVersions,keys,List.countP_map,← Array.countP_toList]
  rfl

theorem initialKeys (t : VarTable) (r : Int) :
    t.initial? r = t.keys.findIdx? fun k => k.1 == r && k.2 == 0 := by
  rw [initial?,keys,List.findIdx?_map,← List.findIdx?_toArray]
  rfl

theorem initialGet (found : t.initial? r = some v) : v < t.size ∧ (t.get v).key = (r,0) := by
  obtain ⟨inside,-⟩ := Array.findIdx?_eq_some_iff_getElem.mp found
  obtain ⟨register,version⟩ := initialOf found
  exact ⟨inside,Prod.ext register version⟩

theorem keysMem (inside : v < t.size) : (t.get v).key ∈ t.keys := List.mem_of_getElem? (keysGet inside)

theorem initialNone (none : t.initial? r = none) : (r,0) ∉ t.keys := by
  intro member
  rw [initialKeys,List.findIdx?_eq_none_iff] at none
  have other := none (r,0) member
  simp at other

def Longer (t u : VarTable) : Prop := t.keys <+: u.keys

namespace Longer

theorem size (longer : t.Longer u) : t.size ≤ u.size := by
  rw [← keysLength t,← keysLength u]
  exact longer.length_le

theorem key (longer : t.Longer u) (inside : v < t.size) : (u.get v).key = (t.get v).key := by
  have later := keysGet (Nat.lt_of_lt_of_le inside longer.size)
  obtain ⟨more,same⟩ := longer
  rw [← same,List.getElem?_append_left (t.keysLength ▸ inside),keysGet inside] at later
  exact (Option.some.inj later).symm

theorem initial (longer : t.Longer u) (found : t.initial? r = some v) : u.initial? r = some v := by
  obtain ⟨more,same⟩ := longer
  rw [initialKeys] at found ⊢
  rw [← same,List.findIdx?_append,found]
  rfl

end Longer

/-- A call that may add a variable: for the initial variable of a register, for the one of a parameter, or for
a new version of a variable. -/
inductive Call where
  | register (r : Int)
  | param (r : Int) (type : String) (this : Bool)
  | fresh (base : VarId)
  deriving DecidableEq, Repr

namespace Call

def run (t : VarTable) : Call → VarTable × VarId
  | register r => t.register r
  | param r type this => t.param r type this
  | fresh base => t.fresh base

def Known (t : VarTable) : Call → Prop
  | fresh base => base < t.size
  | _ => True

instance (t : VarTable) : (c : Call) → Decidable (c.Known t)
  | fresh base => inferInstanceAs (Decidable (base < t.size))
  | register _ | param _ _ _ => isTrue trivial

/-- What a call answers: an initial variable, or a later version of the one that it is given. -/
def Answers (t : VarTable) (v : VarId) : Call → Prop
  | register r | param r _ _ => t.initial? r = some v
  | fresh base => (t.get v).register = (t.get base).register ∧ (t.get v).version ≠ 0 ∧ base < v

end Call

/-- The calls that a table is made by, with what they answer. -/
inductive Makes : List (Call × VarId) → VarTable → Prop
  | empty : Makes [] .empty
  | call {calls : List (Call × VarId)} {t : VarTable} (made : Makes calls t) (c : Call) (known : c.Known t) :
    Makes (calls ++ [(c,(c.run t).2)]) (c.run t).1

/-- The registers that are made the one of the receiver. -/
def Self (calls : List (Call × VarId)) (r : Int) : Prop := ∃ type v, (Call.param r type true,v) ∈ calls

theorem registerPlace (t : VarTable) (r : Int) :
    (t.register r).2 < t.size ∧ (t.register r).1 = t ∨
      (t.register r).2 = t.size ∧ (t.register r).1 = (t.push { register := r }).1 ∧ (r,0) ∉ t.keys := by
  unfold register
  split
  · rename_i v found
    exact .inl ⟨(initialGet found).1,rfl⟩
  · rename_i none
    exact .inr ⟨rfl,rfl,initialNone none⟩

theorem paramKeys (t : VarTable) (r : Int) (type : String) (this : Bool) :
    (t.param r type this).1.keys = (t.register r).1.keys := by
  refine keysSet ?_
  cases this <;> rfl

namespace Call

theorem runPlace (t : VarTable) (c : Call) : (c.run t).2 < t.size ∧ (c.run t).1.keys = t.keys ∨
    (c.run t).2 = t.size ∧ ∃ k, (c.run t).1.keys = t.keys ++ [k] := by
  have register : ∀ r, (t.register r).2 < t.size ∧ (t.register r).1.keys = t.keys ∨
      (t.register r).2 = t.size ∧ ∃ k, (t.register r).1.keys = t.keys ++ [k] := fun r => by
    rcases registerPlace t r with ⟨inside,same⟩ | ⟨last,pushed,-⟩
    · exact .inl ⟨inside,congrArg keys same⟩
    · exact .inr ⟨last,_,pushed ▸ keysPush ..⟩
  cases c with
  | register r => exact register r
  | param r type this => exact paramKeys t r type this ▸ register r
  | fresh base => exact .inr ⟨rfl,_,keysPush ..⟩

theorem runSize (t : VarTable) (c : Call) : (c.run t).2 < t.size ∧ (c.run t).1.size = t.size ∨
    (c.run t).2 = t.size ∧ (c.run t).1.size = t.size + 1 := by
  rw [← keysLength (c.run t).1]
  refine (runPlace t c).imp (fun ⟨inside,same⟩ => ⟨inside,?_⟩) fun ⟨last,k,pushed⟩ => ⟨last,?_⟩
  · rw [same,keysLength]
  · rw [pushed,List.length_append,keysLength]
    rfl

theorem runNumbered {c : Call} (known : c.Known t) (numbered : Numbered t.keys) : Numbered (c.run t).1.keys := by
  have register : ∀ r, Numbered (t.register r).1.keys := fun r => by
    rcases registerPlace t r with ⟨-,same⟩ | ⟨-,pushed,new⟩
    · rw [same]
      exact numbered
    · rw [pushed,keysPush]
      exact numbered.first new
  cases c with
  | register r => exact register r
  | param r type this => exact paramKeys t r type this ▸ register r
  | fresh base =>
    show Numbered (t.push _).1.keys
    rw [keysPush,versionsKeys]
    exact numbered.next (numbered.based _ (keysMem known))

theorem runLonger (t : VarTable) (c : Call) : t.Longer (c.run t).1 := by
  rcases runPlace t c with ⟨-,same⟩ | ⟨-,k,pushed⟩
  · exact ⟨[],same ▸ List.append_nil _⟩
  · exact ⟨[k],pushed.symm⟩

theorem runAnswers {c : Call} (known : c.Known t) : c.Answers (c.run t).1 (c.run t).2 := by
  cases c with
  | register r => exact t.initialRegister r
  | param r type this =>
    show (t.param r type this).1.initial? r = _
    rw [initialKeys,paramKeys,← initialKeys]
    exact t.initialRegister r
  | fresh base =>
    have before : (t.fresh base).1.get base = t.get base := (t.extendsFresh base).get known
    show ((t.fresh base).1.get t.size).register = ((t.fresh base).1.get base).register ∧
      ((t.fresh base).1.get t.size).version ≠ 0 ∧ base < t.size
    rw [before,VarTable.fresh,getPush]
    exact ⟨rfl,by dsimp only; omega,known⟩

theorem answersMono {c : Call} (longer : t.Longer u) (inside : v < t.size) (answers : c.Answers t v) :
    c.Answers u v := by
  cases c with
  | register r | param r _ _ => exact longer.initial answers
  | fresh base =>
    obtain ⟨register,version,before⟩ := answers
    have here := Prod.mk.inj (longer.key inside)
    have there := Prod.mk.inj (longer.key (Nat.lt_trans before inside))
    exact ⟨here.1.trans (register.trans there.1.symm),fun zero => version (here.2.symm.trans zero),before⟩

end Call

theorem givenMono {self other : Int → Prop} (more : ∀ r, self r → other r) {x : Variable} (given : x.Given self) :
    x.Given other := given.imp_right (.imp_right (.imp_right (.imp_right (more _))))

theorem runGiven {self : Int → Prop} {c : Call} (own : ∀ r type, c = .param r type true → self r)
    (given : ∀ v < t.size, (t.get v).Given self) : ∀ v < (c.run t).1.size, ((c.run t).1.get v).Given self := by
  have pushed : ∀ x : Variable, x.name = "" → ∀ v < (t.push x).1.size, ((t.push x).1.get v).Given self := by
    intro x plain v inside
    by_cases old : v < t.size
    · rw [(t.extendsPush x).get old]
      exact given v old
    · obtain rfl : v = t.size := by
        simp only [push,size,Array.size_push] at inside
        exact Nat.le_antisymm (Nat.le_of_lt_succ inside) (Nat.le_of_not_lt old)
      rw [getPush]
      exact .inl plain
  have register : ∀ r, ∀ v < (t.register r).1.size, ((t.register r).1.get v).Given self := fun r => by
    rcases registerPlace t r with ⟨-,same⟩ | ⟨-,last,-⟩
    · rw [same]
      exact given
    · rw [last]
      exact pushed _ rfl
  cases c with
  | register r => exact register r
  | fresh base => exact pushed _ rfl
  | param r type this =>
    intro v inside
    obtain ⟨here,same⟩ := initialGet (t.initialRegister r)
    have place : ((t.register r).1.get (t.register r).2).register = r := congrArg Prod.fst same
    have version : ((t.register r).1.get (t.register r).2).version = 0 := congrArg Prod.snd same
    have size : (t.param r type this).1.size = (t.register r).1.size := by
      rw [← keysLength,← keysLength,paramKeys]
    by_cases own' : v = (t.register r).2
    · subst own'
      have there : (t.register r).2 < (t.register r).1.vars.size := here
      cases this with
      | true =>
        have named : (t.param r type true).1.get (t.register r).2 =
            { (t.register r).1.get (t.register r).2 with type, kind := .this, name := "this" } := by
          simp [VarTable.param,set,get,there]
        show ((t.param r type true).1.get (t.register r).2).Given self
        rw [named]
        exact .inr ⟨version,.inr ⟨rfl,place.symm ▸ own r type rfl⟩⟩
      | false =>
        have named : (t.param r type false).1.get (t.register r).2 =
            { (t.register r).1.get (t.register r).2 with type, kind := .param, name := "p" ++ intText r } := by
          simp [VarTable.param,set,get,there]
        show ((t.param r type false).1.get (t.register r).2).Given self
        rw [named]
        exact .inr ⟨version,.inl (congrArg (fun r => "p" ++ intText r) place.symm)⟩
    · have kept : (t.param r type this).1.get v = (t.register r).1.get v := by
        simp [VarTable.param,set,get,Ne.symm own']
      show ((t.param r type this).1.get v).Given self
      rw [kept]
      exact register r v (size ▸ inside)

theorem Makes.named {calls : List (Call × VarId)} (made : Makes calls t) :
    Numbered t.keys ∧ ∀ v < t.size, (t.get v).Given (Self calls) := by
  induction made with
  | empty => exact ⟨.empty,nofun⟩
  | @call calls t _ c known ih =>
    obtain ⟨numbered,given⟩ := ih
    refine ⟨Call.runNumbered known numbered,runGiven ?_ fun v inside => givenMono ?_ (given v inside)⟩
    · rintro r type rfl
      exact ⟨type,(Call.run t (.param r type true)).2,by simp⟩
    · rintro r ⟨type,v,member⟩
      exact ⟨type,v,List.mem_append_left _ member⟩

theorem Makes.answers {calls : List (Call × VarId)} (made : Makes calls t) :
    (calls.map Prod.snd).eraseDups = List.range t.size ∧
      (∀ front base v back, calls = front ++ (.fresh base,v) :: back → v ∉ front.map Prod.snd) ∧
      (∀ c v, (c,v) ∈ calls → v < t.size ∧ c.Answers t v) := by
  induction made with
  | empty => exact ⟨rfl,by simp,nofun⟩
  | @call calls t _ c known ih =>
    obtain ⟨places,fresh,answers⟩ := ih
    have listed : ∀ v, v ∈ calls.map Prod.snd ↔ v < t.size := fun v => by
      rw [← List.mem_eraseDups,places,List.mem_range]
    have longer := Call.runLonger t c
    have inside : (c.run t).2 < (c.run t).1.size := by
      rcases Call.runSize t c with ⟨old,size⟩ | ⟨last,size⟩
      · exact size ▸ old
      · exact last ▸ size ▸ Nat.lt_succ_self _
    refine ⟨?_,fun front base v back parts => ?_,fun c' v member => ?_⟩
    · rw [List.map_append,List.eraseDups_append,places,List.map_singleton]
      rcases Call.runSize t c with ⟨old,size⟩ | ⟨last,size⟩
      · rw [size,List.removeAll,List.filter_cons_of_neg (by simpa using (listed _).mpr old)]
        exact List.append_nil _
      · have new : (c.run t).2 ∉ calls.map Prod.snd := fun member =>
          Nat.lt_irrefl _ (last ▸ (listed _).mp member)
        rw [size,List.range_succ,List.removeAll,List.filter_cons_of_pos (by simpa using new),last]
        rfl
    · rcases List.eq_nil_or_concat back with rfl | ⟨back,last,rfl⟩
      · obtain ⟨rfl,same⟩ := List.append_inj' parts rfl
        obtain ⟨rfl,rfl⟩ := Prod.mk.inj (List.cons.inj same).1
        exact fun member => Nat.lt_irrefl _ ((listed _).mp member)
      · rw [List.concat_eq_append,← List.cons_append,← List.append_assoc] at parts
        exact fresh front base v back (List.append_inj' parts rfl).1
    · rcases List.mem_append.mp member with before | last
      · obtain ⟨there,answer⟩ := answers c' v before
        exact ⟨Nat.lt_of_lt_of_le there longer.size,Call.answersMono longer there answer⟩
      · obtain ⟨rfl,rfl⟩ := Prod.mk.inj (List.mem_singleton.mp last)
        exact ⟨inside,Call.runAnswers known⟩

/-- Variables of a table have names of their own, however it is filled, with one register for the receiver at
most: variables stand in the order in which they are made, new versions are new, every call answers what it asks
for, each register has one initial variable, and no two variables have the same text. -/
theorem variablesApart {calls : List (Call × VarId)} (made : Makes calls t)
    (single : ∀ r s, Self calls r → Self calls s → r = s) :
    (calls.map Prod.snd).eraseDups = List.range t.size ∧
    (∀ front base v back, calls = front ++ (.fresh base,v) :: back → v ∉ front.map Prod.snd) ∧
    (∀ c v, (c,v) ∈ calls → v < t.size ∧ c.Answers t v) ∧
    (∀ v < t.size, ∃! w, w < t.size ∧ (t.get w).register = (t.get v).register ∧ (t.get w).version = 0) ∧
    ∀ v w, v < t.size → w < t.size → t.text v = t.text w → v = w := by
  obtain ⟨places,fresh,answers⟩ := made.answers
  obtain ⟨numbered,given⟩ := made.named
  have apart : ∀ v w, v < t.size → w < t.size → (t.get v).key = (t.get w).key → v = w := by
    intro v w left right same
    have here := keysGet left
    rw [same,← keysGet right] at here
    exact (List.getElem?_inj (t.keysLength ▸ left) numbered.distinct).mp here
  refine ⟨places,fresh,answers,fun v inside => ?_,fun v w left right same => ?_⟩
  · obtain ⟨w,here⟩ := List.getElem?_of_mem (numbered.based _ (keysMem inside))
    have inside' : w < t.size := t.keysLength ▸ (List.getElem?_eq_some_iff.mp here).1
    rw [keysGet inside'] at here
    obtain ⟨register,version⟩ := Prod.mk.inj (Option.some.inj here)
    refine ⟨w,⟨inside',register,version⟩,fun u ⟨small,same,initial⟩ => ?_⟩
    exact apart u w small inside' (Prod.ext (same.trans register.symm) (initial.trans version.symm))
  · exact apart v w left right (Variable.textKey single (given v left) (given w right) same)

def someCalls : List (Call × VarId) := [(.register 0,0),(.param 2 "LTest;" true,1),(.param 3 "I" false,2),
  (.fresh 0,3),(.fresh 2,4),(.register 0,0),(.fresh 3,5)]

theorem Makes.cast {calls calls' : List (Call × VarId)} (made : Makes calls t) (same : calls = calls') :
    Makes calls' t := same ▸ made

theorem variablesApartSome : ∃ t, Makes someCalls t ∧ t.ids.map t.text = ["v0","this","p3","v0_1","v3_1","v0_2"] ∧
    ∀ v w, v < t.size → w < t.size → t.text v = t.text w → v = w := by
  have made := ((((((Makes.empty.call (.register 0) trivial).call (.param 2 "LTest;" true) trivial).call
    (.param 3 "I" false) trivial).call (.fresh 0) (by decide +kernel)).call (.fresh 2) (by decide +kernel)).call
    (.register 0) trivial).call (.fresh 3) (by decide +kernel)
  have two : ∀ r, Self someCalls r → r = 2 := by
    rintro r ⟨type,v,member⟩
    simp [someCalls] at member
    exact member.1.1
  have single : ∀ r s, Self someCalls r → Self someCalls s → r = s := fun r s here there =>
    (two r here).trans (two s there).symm
  have listed := made.cast (show _ = someCalls from by decide +kernel)
  exact ⟨_,listed,by decide +kernel,(variablesApart listed single).2.2.2.2⟩

def Filled (self : Int → Prop) (t : VarTable) : Prop := ∃ calls, Makes calls t ∧ ∀ r, Self calls r → self r

namespace Filled

variable {self : Int → Prop}

theorem call (filled : Filled self t) (c : Call) (known : c.Known t)
    (own : ∀ r type, c = .param r type true → self r) : Filled self (c.run t).1 := by
  obtain ⟨calls,made,receiver⟩ := filled
  refine ⟨_,made.call c known,fun r ⟨type,v,member⟩ => ?_⟩
  rcases List.mem_append.mp member with before | last
  · exact receiver r ⟨type,v,before⟩
  · exact own r type (Prod.mk.inj (List.mem_singleton.mp last)).1.symm

theorem registers (filled : Filled self t) (grown : t.Registers u) : Filled self u :=
  grown.keeps (fun _ r filled => filled.call (.register r) trivial nofun) filled

end Filled

end VarTable

namespace Flow

open VarTable

theorem seedsFilled {self : Int → Prop} {given : List (String × Bool)} (plain : ∀ x ∈ given, x.2 = false)
    {t : VarTable} (filled : Filled self t) (r : Int) : Filled self (seedParams t r given).1 := by
  induction given generalizing t r with
  | nil => exact filled
  | cons x given ih =>
    obtain ⟨type,this⟩ := x
    obtain ⟨here,there⟩ := List.forall_mem_cons.mp plain
    obtain rfl : this = false := here
    exact ih there (filled.call (.param r type false) trivial nofun) _

theorem parametersFilled (m : Method) : ∃ q, Filled (· = q) (parameters m).1 := by
  have plain : ∀ x ∈ m.paramTypes.map (·,false), x.2 = false := fun x member => by
    obtain ⟨_,-,rfl⟩ := List.mem_map.mp member
    rfl
  have empty : ∀ q, Filled (· = q) VarTable.empty := fun q => ⟨[],.empty,fun r ⟨_,_,member⟩ => nomatch member⟩
  refine ⟨Text.wrap64 (m.registers - m.ins),?_⟩
  unfold parameters
  dsimp only
  split
  · exact seedsFilled plain (empty _) _
  · refine seedsFilled plain ((empty _).call (.param _ m.owner true) trivial ?_) _
    rintro r type ⟨⟩
    rfl

end Flow

namespace VarTable

open RegCode.Flow in
theorem filledOfMethod {m : Method} {g : Graph} (made : Graph.ofMethod m = .ok g) : ∃ q, Filled (· = q) g.vars := by
  obtain ⟨q,filled⟩ := parametersFilled m
  have built := Graph.builtOfMethod made
  refine ⟨q,?_⟩
  rcases Graph.ofMethodParts made with ⟨-,rfl⟩ | ⟨-,rfl⟩ | ⟨first,rest,s,b,-,queued,made⟩
  · exact ⟨[],.empty,fun r ⟨_,_,member⟩ => nomatch member⟩
  · exact filled
  · have laid := didBuildQueue queued (.start first rfl rfl rfl)
    obtain ⟨more,drawn⟩ := didBuildQueueDrawn queued (.start m (List.mem_cons_self ..) rfl rfl rfl) rfl
    have finished := Flow.finished (drawn.coherent laid) laid.entry made built.listed
    have keeps := Keeping.buildQueue m _ _ _ _ queued
    exact finished.vars ▸ filled.registers keeps.vars

end VarTable

namespace Analysed

theorem Made.splitFilled {a b : Analysed} (made : a.Made) (later : ∀ l ∈ a.graph.locs, paramLoc < l)
    (split : a.splitLifetimes = .ok b) {self : Int → Prop} (filled : VarTable.Filled self a.graph.vars) :
    VarTable.Filled self b.graph.vars := by
  have webs : ∀ (splits : List (VarId × List Loc)) (c : Analysed), (∀ x ∈ splits, x.1 < c.graph.vars.size) →
      VarTable.Filled self c.graph.vars → VarTable.Filled self (splits.foldl splitWeb c).graph.vars := by
    intro splits
    induction splits with
    | nil => exact fun c _ filled => filled
    | cons x splits ih =>
      intro c known filled
      have vars : (splitWeb c x).graph.vars = (c.graph.vars.fresh x.1).1 := (keptRenameWeb ..).2
      obtain ⟨here,there⟩ := List.forall_mem_cons.mp known
      refine ih _ (fun y member => ?_) ?_
      · rw [vars]
        exact Nat.lt_of_lt_of_le (there y member) (c.graph.vars.extendsFresh x.1).size
      · rw [vars]
        exact filled.call (.fresh x.1) here nofun
  have known : ∀ x ∈ a.chains.splits, x.1 < a.graph.vars.size := fun x member =>
    (made.splits later (show (x.1,x.2) ∈ a.chains.splits from member)).1
  have parts := webs a.chains.splits a known filled
  unfold splitLifetimes at split
  rw [show a.chains.definedVars.foldl splitVariable a = a.chains.splits.foldl splitWeb a from splitsFold _ a] at split
  dsimp only at split
  split at split
  · exact Except.ok.inj split ▸ filled
  · cases linked : Chains.ofGraph (a.chains.splits.foldl splitWeb a).graph with
    | error fault => rw [linked] at split; contradiction
    | ok chains =>
      rw [linked] at split
      exact Except.ok.inj split ▸ parts

end Analysed

end RegCode
