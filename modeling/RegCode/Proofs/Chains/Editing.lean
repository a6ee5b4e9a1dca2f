import RegCode.Proofs.Chains.Thinning
import RegCode.Proofs.Reaching.Exact

/-! Ways through a graph some of whose statements have been replaced or taken out. A point stands for
the one that has as many of the remaining statements before it. A definition that is taken out no
longer ends the ways of those before it. -/
namespace RegCode

namespace Stmt

def rewrite (l : Loc) (f : Stmt → Stmt) (s : Stmt) : Option Stmt :=
  some (if s.loc = l then f s else s)

def strike (l : Loc) (s : Stmt) : Option Stmt := if s.loc = l then none else some s

theorem strikeSome {l : Loc} {s t : Stmt} : strike l s = some t ↔ t = s ∧ s.loc ≠ l := by
  unfold strike
  split
  · simp_all
  · rename_i other
    simp only [Option.some.injEq,ne_eq,other,not_false_eq_true,and_true]
    exact eq_comm

theorem rewriteOther {l : Loc} {f : Stmt → Stmt} {s : Stmt} (other : s.loc ≠ l) :
    rewrite l f s = some s := by rw [rewrite,if_neg other]

end Stmt

namespace Graph

structure Edited (edit : Stmt → Option Stmt) (g h : Graph) : Prop where
  thins : g.Thins h
  stmts : ∀ i ∈ g.rpo, (h.node i).stmts = (g.node i).stmts.filterMap edit
  locs : ∀ s t, edit s = some t → t.loc = s.loc
  defs : ∀ s t v, edit s = some t → t.def? = some v → s.def? = some v

def shift (g : Graph) (edit : Stmt → Option Stmt) (p : Point) : Point :=
  ⟨p.node,(((g.node p.node).stmts.take p.index).filterMap edit).length⟩

def Arrives (g : Graph) (v : VarId) (d u : Loc) : Prop :=
  ∃ p s, g.StmtAt p s ∧ s.loc = u ∧ g.Reaches v d p

def Stays (g : Graph) (edit : Stmt → Option Stmt) (v : VarId) (d : Loc) : Prop :=
  ∀ p s, g.StmtAt p s → s.loc = d → s.def? = some v → ∃ t, edit s = some t ∧ t.def? = some v

variable {edit : Stmt → Option Stmt} {g h : Graph} {p q : Point} {s t : Stmt} {v : VarId} {d : Loc}

theorem editedIn {l : Loc} {i : NodeId} (distinct : g.LocsDistinct) (thins : g.Thins h)
    (home : i ∈ g.rpo) (inside : l ∈ (g.node i).stmts.map (·.loc))
    (there : (h.node i).stmts = (g.node i).stmts.filterMap edit)
    (others : ∀ j, j ≠ i → h.node j = g.node j) (only : ∀ s, s.loc ≠ l → edit s = some s)
    (locs : ∀ s t, edit s = some t → t.loc = s.loc)
    (defs : ∀ s t v, edit s = some t → t.def? = some v → s.def? = some v) : Edited edit g h := by
  refine ⟨thins,fun j member => ?_,locs,defs⟩
  by_cases same : j = i
  · exact same ▸ there
  · have apart : ∀ s ∈ (g.node j).stmts, edit s = some s := fun s member' =>
      only s fun loc => same (nodeOfLoc distinct member home
        (List.mem_map.mpr ⟨s,member',loc⟩) inside)
    rw [others j same,List.filterMap_congr apart,List.filterMap_some]

theorem Edited.rpo (edited : Edited edit g h) : h.rpo = g.rpo := by rw [edited.thins.rest]

@[simp] theorem shiftStart (i : NodeId) : g.shift edit ⟨i,0⟩ = ⟨i,0⟩ := rfl

theorem shiftGone {i : NodeId} {k : Nat} (here : (g.node i).stmts[k]? = some s)
    (gone : edit s = none) : g.shift edit ⟨i,k + 1⟩ = g.shift edit ⟨i,k⟩ := by
  simp [shift,List.take_add_one,here,gone]

theorem shiftNext {i : NodeId} {k : Nat} (here : (g.node i).stmts[k]? = some s)
    (stays : edit s = some t) : g.shift edit ⟨i,k + 1⟩ = (g.shift edit ⟨i,k⟩).next := by
  simp [shift,Point.next,List.take_add_one,here,stays]

theorem shiftMono {i : NodeId} {k m : Nat} (le : k ≤ m) :
    (g.shift edit ⟨i,k⟩).index ≤ (g.shift edit ⟨i,m⟩).index :=
  (((List.take_sublist_take_left le).filterMap edit)).length_le

theorem Edited.shiftEnd (edited : Edited edit g h) {i : NodeId} (member : i ∈ g.rpo) :
    g.shift edit ⟨i,(g.node i).stmts.length⟩ = ⟨i,(h.node i).stmts.length⟩ := by
  rw [shift,List.take_length,edited.stmts i member]

theorem Edited.stmtAt (edited : Edited edit g h) (here : g.StmtAt p s) (stays : edit s = some t) :
    h.StmtAt (g.shift edit p) t := by
  refine ⟨edited.rpo ▸ here.1,?_⟩
  obtain ⟨short,same⟩ := List.getElem?_eq_some_iff.mp here.2
  have parts : (g.node p.node).stmts = (g.node p.node).stmts.take p.index ++
      s :: (g.node p.node).stmts.drop (p.index + 1) := by
    rw [← same,← List.drop_eq_getElem_cons short,List.take_append_drop]
  have split : (h.node p.node).stmts = ((g.node p.node).stmts.take p.index).filterMap edit ++
      t :: ((g.node p.node).stmts.drop (p.index + 1)).filterMap edit := by
    conv_lhs => rw [edited.stmts _ here.1,parts,List.filterMap_append,List.filterMap_cons,stays]
  rw [shift,split,List.getElem?_append_right (Nat.le_refl _),Nat.sub_self,List.getElem?_cons_zero]

theorem filterMapAt {ss : List Stmt} {k : Nat} (here : (ss.filterMap edit)[k]? = some t) :
    ∃ m s, ss[m]? = some s ∧ edit s = some t ∧ ((ss.take m).filterMap edit).length = k := by
  induction ss generalizing k with
  | nil => simp at here
  | cons a ss ih =>
    cases kept : edit a with
    | none =>
      rw [List.filterMap_cons_none kept] at here
      obtain ⟨m,s,place,stays,count⟩ := ih here
      exact ⟨m + 1,s,place,stays,by simpa [kept] using count⟩
    | some b =>
      rw [List.filterMap_cons_some kept] at here
      cases k with
      | zero =>
        cases here
        exact ⟨0,a,rfl,kept,rfl⟩
      | succ k =>
        obtain ⟨m,s,place,stays,count⟩ := ih here
        exact ⟨m + 1,s,place,stays,by simpa [kept] using count⟩

theorem Edited.stmtBack (edited : Edited edit g h) {p' : Point} (here : h.StmtAt p' t) :
    ∃ p s, g.StmtAt p s ∧ edit s = some t ∧ g.shift edit p = p' := by
  obtain ⟨i,k⟩ := p'
  have member : i ∈ g.rpo := edited.rpo ▸ here.1
  have place := here.2
  rw [edited.stmts i member] at place
  obtain ⟨m,s,place,stays,count⟩ := filterMapAt place
  exact ⟨⟨i,m⟩,s,⟨member,place⟩,stays,by rw [shift,count]⟩

theorem pathOver {i : NodeId} {k m : Nat} {ok : Stmt → Prop} (le : k ≤ m)
    (short : m ≤ (g.node i).stmts.length)
    (same : (g.shift edit ⟨i,k⟩).index = (g.shift edit ⟨i,m⟩).index) :
    g.Path (fun s => ∀ t, edit s = some t → ok t) ⟨i,k⟩ ⟨i,m⟩ := by
  induction m, le using Nat.le_induction with
  | base => exact .stay
  | succ m le ih =>
    have up : (g.shift edit ⟨i,k⟩).index ≤ (g.shift edit ⟨i,m⟩).index := shiftMono le
    have here : (g.node i).stmts[m]? = some (g.node i).stmts[m] := List.getElem?_eq_getElem short
    cases kept : edit (g.node i).stmts[m] with
    | none =>
      rw [shiftGone here kept] at same
      exact .next (ih (Nat.le_of_succ_le short) same) here fun t stays => by simp [kept] at stays
    | some t =>
      rw [shiftNext here kept] at same
      simp only [Point.next] at same
      omega

theorem Edited.pathShift (edited : Edited edit g h) (wired : g.Wired) {ok : Stmt → Prop}
    (start : p.node ∈ g.rpo) (way : g.Path (fun s => ∀ t, edit s = some t → ok t) p q) :
    h.Path ok (g.shift edit p) (g.shift edit q) := by
  induction way with
  | stay => exact .stay
  | @next i k s way here pass ih =>
    cases kept : edit s with
    | none =>
      rw [shiftGone here kept]
      exact ih
    | some t =>
      rw [shiftNext here kept]
      exact .next ih (edited.stmtAt ⟨way.inRpo wired start,here⟩ kept).2 (pass t kept)
  | @edge i j way out ih =>
    rw [edited.shiftEnd (way.inRpo wired start)] at ih
    exact .edge ih ((edited.thins.edges i).1 ▸ out)
  | @raise i j k way out ih => exact .raise ih ((edited.thins.edges i).2.2.1 ▸ out)

theorem Edited.pathBack (edited : Edited edit g h) (wired : g.Wired) {ok : Stmt → Prop} {q' : Point}
    (start : p.node ∈ g.rpo) (short : p.index ≤ (g.node p.node).stmts.length)
    (way : h.Path ok (g.shift edit p) q') :
    ∃ q, g.shift edit q = q' ∧ g.Path (fun s => ∀ t, edit s = some t → ok t) p q := by
  induction way with
  | stay => exact ⟨p,rfl,.stay⟩
  | @next i k t way here pass ih =>
    obtain ⟨⟨j,m⟩,same,before⟩ := ih
    obtain ⟨rfl,count⟩ := Point.mk.inj same
    have member := before.inRpo wired start
    have placed : h.StmtAt ⟨j,k⟩ t := ⟨edited.rpo ▸ member,here⟩
    obtain ⟨⟨j',n⟩,s,there,stays,same'⟩ := edited.stmtBack placed
    obtain ⟨rfl,count'⟩ := Point.mk.inj same'
    have level : (g.shift edit ⟨j',m⟩).index = (g.shift edit ⟨j',n⟩).index :=
      count.trans count'.symm
    refine ⟨⟨j',n + 1⟩,?_,.next (before.trans (pathOver ?_ ?_ level)) there.2 ?_⟩
    · rw [shiftNext there.2 stays,same',Point.next]
    · by_contra past
      have after : (g.shift edit ⟨j',n + 1⟩).index ≤ (g.shift edit ⟨j',m⟩).index :=
        shiftMono (Nat.lt_of_not_le past)
      rw [shiftNext there.2 stays,Point.next] at after
      simp only at after
      omega
    · exact Nat.le_of_lt (List.getElem?_eq_some_iff.mp there.2).1
    · intro t' stays'
      rw [stays] at stays'
      exact Option.some.inj stays' ▸ pass
  | @edge i j way out ih =>
    obtain ⟨⟨i',m⟩,same,before⟩ := ih
    obtain ⟨rfl,count⟩ := Point.mk.inj same
    have member := before.inRpo wired start
    have level : (g.shift edit ⟨i',m⟩).index =
        (g.shift edit ⟨i',(g.node i').stmts.length⟩).index := by
      rw [same,edited.shiftEnd member]
    refine ⟨⟨j,0⟩,rfl,.edge (before.trans (pathOver (before.index short) (Nat.le_refl _) level)) ?_⟩
    exact (edited.thins.edges i').1 ▸ out
  | @raise i j k way out ih =>
    obtain ⟨⟨i',m⟩,same,before⟩ := ih
    obtain ⟨rfl,-⟩ := Point.mk.inj same
    exact ⟨⟨j,0⟩,rfl,.raise before ((edited.thins.edges i').2.2.1 ▸ out)⟩

theorem Edited.pathTo (edited : Edited edit g h) (wired : g.Wired) {ok : Stmt → Prop}
    (start : p.node ∈ g.rpo) (short : p.index ≤ (g.node p.node).stmts.length) (here : g.StmtAt q s)
    (stays : edit s = some t) (way : h.Path ok (g.shift edit p) (g.shift edit q)) :
    g.Path (fun s => ∀ t, edit s = some t → ok t) p q := by
  obtain ⟨i,n⟩ := q
  obtain ⟨⟨i',m⟩,same,before⟩ := edited.pathBack wired start short way
  obtain ⟨rfl,count⟩ := Point.mk.inj same
  have level : (g.shift edit ⟨i',m⟩).index = (g.shift edit ⟨i',n⟩).index := count
  refine before.trans (pathOver ?_ (Nat.le_of_lt (List.getElem?_eq_some_iff.mp here.2).1) level)
  by_contra past
  have after : (g.shift edit ⟨i',n + 1⟩).index ≤ (g.shift edit ⟨i',m⟩).index :=
    shiftMono (Nat.lt_of_not_le past)
  rw [shiftNext here.2 stays,Point.next] at after
  simp only at after
  omega

theorem Edited.definedShift (edited : Edited edit g h) (defined : g.DefinedAt v d p)
    (stays : g.Stays edit v d) : h.DefinedAt v d (g.shift edit p) := by
  cases defined with
  | @stmt i k s here defines =>
    obtain ⟨t,kept,defines'⟩ := stays _ s here rfl defines
    have stated := Graph.DefinedAt.stmt (edited.stmtAt here kept) defines'
    rw [edited.locs s t kept] at stated
    rw [shiftNext here.2 kept]
    exact stated
  | @param e member entry =>
    exact .param (by rw [edited.thins.rest]; exact member) (by rw [edited.thins.rest]; exact entry)

theorem Edited.definedBack (edited : Edited edit g h) {p' : Point} (defined : h.DefinedAt v d p') :
    ∃ p, g.DefinedAt v d p ∧ g.shift edit p = p' := by
  cases defined with
  | @stmt i k t here defines =>
    obtain ⟨⟨j,m⟩,s,there,kept,same⟩ := edited.stmtBack here
    refine ⟨⟨j,m + 1⟩,?_,?_⟩
    · rw [edited.locs s t kept]
      exact .stmt there (edited.defs s t v kept defines)
    · rw [shiftNext there.2 kept,same,Point.next]
  | @param e member entry =>
    rw [edited.thins.rest] at member entry
    exact ⟨⟨e,0⟩,.param member entry,rfl⟩

theorem staysParam (reserved : ∀ i ∈ g.rpo, paramLoc ∉ (g.node i).stmts.map (·.loc)) :
    g.Stays edit v paramLoc := fun p s here loc _ =>
  absurd (List.mem_map.mpr ⟨s,List.mem_of_getElem? here.2,loc⟩) (reserved p.node here.1)

theorem Edited.stays (edited : Edited edit g h) (distinct : g.LocsDistinct)
    (reserved : ∀ i ∈ g.rpo, paramLoc ∉ (g.node i).stmts.map (·.loc)) {p' : Point}
    (defined : h.DefinedAt v d p') : g.Stays edit v d := by
  cases defined with
  | @stmt i k t there defines =>
    intro p s here loc _
    obtain ⟨q,r,source,kept,-⟩ := edited.stmtBack there
    obtain ⟨-,rfl⟩ := here.unique distinct source (loc.trans (edited.locs r t kept))
    exact ⟨t,kept,defines⟩
  | param member entry => exact staysParam reserved

theorem Edited.reachesShift (edited : Edited edit g h) (wired : g.Wired) (reaches : g.Reaches v d q)
    (stays : g.Stays edit v d) : h.Reaches v d (g.shift edit q) := by
  obtain ⟨p,defined,way⟩ := reaches
  refine ⟨g.shift edit p,edited.definedShift defined stays,?_⟩
  exact edited.pathShift wired (defined.inNode wired).1
    (way.mono fun s other t kept defines => other (edited.defs s t v kept defines))

theorem Edited.reachesBack (edited : Edited edit g h) (wired : g.Wired) (here : g.StmtAt q s)
    (kept : edit s = some t) (reaches : h.Reaches v d (g.shift edit q)) :
    g.Reaches v d q ∨ ∃ l r, g.StmtAt l r ∧ r.def? = some v ∧
      (∀ t, edit r = some t → t.def? ≠ some v) ∧ g.Reaches v r.loc q := by
  obtain ⟨p',remains,way⟩ := reaches
  obtain ⟨p,defined,rfl⟩ := edited.definedBack remains
  obtain ⟨start,short⟩ := defined.inNode wired
  rcases (edited.pathTo wired start short here kept way).last v with clear | ⟨l,r,place,gone,defines,before,after⟩
  · exact .inl ⟨p,defined,clear.mono fun _ h => h.2⟩
  · have there : g.StmtAt l r := ⟨before.inRpo wired start,place⟩
    exact .inr ⟨l,r,there,defines,gone,l.next,.stmt there defines,after.mono fun _ h => h.2⟩

section Rewriting

variable {l : Loc} {f : Stmt → Stmt} (edited : Edited (Stmt.rewrite l f) g h)

include edited

theorem Edited.rewriteAt : h.StmtAt p t ↔ ∃ s, g.StmtAt p s ∧ (if s.loc = l then f s else s) = t := by
  have mapped : ∀ i ∈ g.rpo, (h.node i).stmts =
      (g.node i).stmts.map fun s => if s.loc = l then f s else s := fun i member => by
    rw [edited.stmts i member,← List.filterMap_eq_map]
    rfl
  constructor
  · rintro ⟨member,place⟩
    have member : p.node ∈ g.rpo := edited.rpo ▸ member
    rw [mapped p.node member,List.getElem?_map] at place
    obtain ⟨s,place,same⟩ := Option.map_eq_some_iff.mp place
    exact ⟨s,⟨member,place⟩,same⟩
  · rintro ⟨s,⟨member,place⟩,rfl⟩
    exact ⟨edited.rpo ▸ member,by rw [mapped p.node member,List.getElem?_map,place,Option.map_some]⟩

omit edited in
theorem shiftRewrite (short : p.index ≤ (g.node p.node).stmts.length) :
    g.shift (Stmt.rewrite l f) p = p := by
  have mapped : ∀ ss : List Stmt, (ss.filterMap (Stmt.rewrite l f)).length = ss.length := fun ss => by
    rw [show Stmt.rewrite l f = some ∘ fun s => if s.loc = l then f s else s from rfl,
      List.filterMap_eq_map,List.length_map]
  rw [shift,mapped,List.length_take,Nat.min_eq_left short]

theorem Edited.reachesRewrite (wired : g.Wired) (keeps : ∀ s, (f s).def? = s.def?)
    (here : g.StmtAt q s) : h.Reaches v d q ↔ g.Reaches v d q := by
  have short := Nat.le_of_lt (List.getElem?_eq_some_iff.mp here.2).1
  have same : ∀ s t, Stmt.rewrite l f s = some t → t.def? = s.def? := by
    intro s t kept
    cases Option.some.inj kept
    split
    · exact keeps s
    · rfl
  constructor
  · intro reaches
    rw [← shiftRewrite (l := l) (f := f) short] at reaches
    rcases edited.reachesBack wired here rfl reaches with old | ⟨_,r,_,defines,gone,_⟩
    · exact old
    · exact absurd ((same r _ rfl).trans defines) (gone _ rfl)
  · intro reaches
    have shifted := edited.reachesShift wired reaches fun _ r _ _ defines =>
      ⟨_,rfl,(same r _ rfl).trans defines⟩
    rwa [shiftRewrite short] at shifted

end Rewriting

end Graph

end RegCode
