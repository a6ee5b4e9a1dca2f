import RegCode.Proofs.Chains.Renaming
import RegCode.Proofs.Chains.Unread
import RegCode.Proofs.Chains.Webs

/-! Lifetimes become variables. All webs of a variable but the first get new variables, in order, and
their definitions and uses follow. What reaches a use stays what it was, definitions share a variable
just when uses connect them, and there is nothing left to split. -/
namespace RegCode

namespace Chains

def splits (c : Chains) : List (VarId × List Loc) :=
  c.definedVars.flatMap fun v => (Webs.ofChains c v).tail.map (v,·)

variable {c : Chains} {v : VarId} {w : List Loc}

theorem memSplits : (v,w) ∈ c.splits ↔ v ∈ c.definedVars ∧ w ∈ (Webs.ofChains c v).tail := by
  simp only [splits,List.mem_flatMap,List.mem_map,Prod.mk.injEq]
  constructor
  · rintro ⟨x,member,y,listed,rfl,rfl⟩
    exact ⟨member,listed⟩
  · rintro ⟨member,listed⟩
    exact ⟨v,member,w,listed,rfl,rfl⟩

end Chains

namespace Naming

def same : Naming := ⟨fun _ => id,fun _ => id⟩

def moved (n : Naming) (v new : VarId) (ds us : List Loc) : Naming :=
  ⟨fun l x => if l ∈ ds then new else n.defs l x,
    fun l x => if l ∈ us ∧ n.reads l x = v then new else n.reads l x⟩

theorem movedNone (n : Naming) (v new : VarId) : n.moved v new [] [] = n := by simp [moved]

end Naming

namespace Stmt

variable {n : Naming} {v new : VarId} {ds us : List Loc} {s : Stmt}

theorem renamedSame : s.renamed .same = s := by
  rw [renamed,Naming.same,Action.renamedSelf]

theorem renamedDef : s.renamed (n.moved v new (s.loc :: ds) us) = (s.renamed (n.moved v new ds us)).renameDef new := by
  simp only [renamed,renameDef,Naming.moved,List.mem_cons,true_or,if_true,Action.renameDefRenamed]

theorem renamedUses (other : new ≠ v) :
    s.renamed (n.moved v new ds (s.loc :: us)) = (s.renamed (n.moved v new ds us)).renameUses v new := by
  simp only [renamed,renameUses,replace,Naming.moved,List.mem_cons,true_or,true_and,Action.replaceRenamed]
  congr 2
  funext x
  by_cases held : n.reads s.loc x = v
  · by_cases listed : s.loc ∈ us <;> simp [held,listed,other]
  · simp [held]

theorem renamedElsewhere {ds' us' : List Loc} (defs : s.loc ∈ ds' ↔ s.loc ∈ ds) (uses : s.loc ∈ us' ↔ s.loc ∈ us) :
    s.renamed (n.moved v new ds' us') = s.renamed (n.moved v new ds us) := by
  simp only [renamed,Naming.moved,defs,uses]

end Stmt

namespace Analysed

open Chains

variable {a b : Analysed} {g : Graph} {n n' : Naming} {v w new : VarId} {d e l u : Loc} {web ds us : List Loc}

theorem modifyRenames (homed : ∀ p s, g.StmtAt p s → b.chains.home.contains s.loc = true)
    (renames : g.Renames b.graph n) {f : Stmt → Stmt} (here : ∀ s : Stmt, s.loc = l → f (s.renamed n) = s.renamed n')
    (others : ∀ s : Stmt, s.loc ≠ l → s.renamed n' = s.renamed n) : g.Renames (b.modifyStmt l f).graph n' := by
  unfold modifyStmt
  split
  · refine ⟨renames.toRestated.trans (b.graph.restatedMap fun _ => rfl),fun i member => ?_⟩
    rw [Graph.stmtsModified,renames.stmts i member,List.map_map]
    refine List.map_congr_left fun s _ => ?_
    by_cases same : s.loc = l
    · rw [Function.comp_apply,if_pos (show (s.renamed n).loc = l from same),here s same]
    · rw [Function.comp_apply,if_neg (show (s.renamed n).loc ≠ l from same),others s same]
  · rename_i absent
    refine ⟨renames.toRestated,fun i member => ?_⟩
    rw [renames.stmts i member]
    refine List.map_congr_left fun s held => (others s fun same => absent ?_).symm
    obtain ⟨k,place⟩ := List.getElem?_of_mem held
    exact same ▸ homed ⟨i,k⟩ s ⟨member,place⟩

theorem keptModify (b : Analysed) (l : Loc) (f : Stmt → Stmt) :
    (b.modifyStmt l f).chains = b.chains ∧ (b.modifyStmt l f).graph.vars = b.graph.vars := by
  unfold modifyStmt
  split <;> exact ⟨rfl,rfl⟩

theorem keptRenameWeb (v new : VarId) (b : Analysed) (web : List Loc) :
    (b.renameWeb v new web).chains = b.chains ∧ (b.renameWeb v new web).graph.vars = b.graph.vars := by
  have next : ∀ {c : Analysed} {l f}, c.chains = b.chains ∧ c.graph.vars = b.graph.vars →
      (c.modifyStmt l f).chains = b.chains ∧ (c.modifyStmt l f).graph.vars = b.graph.vars := by
    intro c l f before
    obtain ⟨chains,vars⟩ := c.keptModify l f
    exact ⟨chains.trans before.1,vars.trans before.2⟩
  refine List.foldlRecOn web _ (motive := fun c : Analysed => c.chains = b.chains ∧ c.graph.vars = b.graph.vars)
    ⟨rfl,rfl⟩ fun c before d _ => ?_
  exact List.foldlRecOn _ _ (motive := fun c : Analysed => c.chains = b.chains ∧ c.graph.vars = b.graph.vars)
    (next before) fun c before u _ => next before

theorem readsRename (homed : ∀ p s, g.StmtAt p s → b.chains.home.contains s.loc = true) (other : new ≠ v)
    (renames : g.Renames b.graph (n.moved v new ds us)) (more : List Loc) :
    let c := more.foldl (fun a u => a.modifyStmt u (Stmt.renameUses v new)) b
    c.chains = b.chains ∧ g.Renames c.graph (n.moved v new ds (more.reverse ++ us)) := by
  induction more generalizing b us with
  | nil => exact ⟨rfl,renames⟩
  | cons u more ih =>
    have first : g.Renames (b.modifyStmt u (Stmt.renameUses v new)).graph (n.moved v new ds (u :: us)) :=
      modifyRenames homed renames (fun s same => same ▸ (Stmt.renamedUses other).symm)
        fun s apart => Stmt.renamedElsewhere .rfl (by simp [apart])
    have chains := (b.keptModify u (Stmt.renameUses v new)).1
    obtain ⟨same,rest⟩ := ih (chains ▸ homed) first
    refine ⟨same.trans chains,?_⟩
    rw [List.reverse_cons,List.append_assoc]
    exact rest

theorem webRenames (homed : ∀ p s, g.StmtAt p s → b.chains.home.contains s.loc = true) (other : new ≠ v)
    (renames : g.Renames b.graph (n.moved v new ds us)) (web : List Loc) :
    g.Renames (b.renameWeb v new web).graph
      (n.moved v new (web.reverse ++ ds) ((web.flatMap (b.chains.uses v)).reverse ++ us)) := by
  induction web generalizing b ds us with
  | nil => exact renames
  | cons d web ih =>
    have first : g.Renames (b.modifyStmt d (Stmt.renameDef new)).graph (n.moved v new (d :: ds) us) :=
      modifyRenames homed renames (fun s same => same ▸ Stmt.renamedDef.symm)
        fun s apart => Stmt.renamedElsewhere (by simp [apart]) .rfl
    have chains := (b.keptModify d (Stmt.renameDef new)).1
    obtain ⟨same,second⟩ := readsRename (chains ▸ homed) other first ((b.modifyStmt d (Stmt.renameDef new)).chains.uses v d)
    have kept := same.trans chains
    have rest := ih (by rw [kept]; exact homed) second
    rw [kept] at rest
    rw [List.reverse_cons,List.append_assoc,List.flatMap_cons,List.reverse_append,List.append_assoc,
      show b.chains.uses v d = (b.modifyStmt d (Stmt.renameDef new)).chains.uses v d by rw [chains]]
    exact rest

def splitWeb (a : Analysed) (split : VarId × List Loc) : Analysed :=
  ({ a with graph := { a.graph with vars := (a.graph.vars.fresh split.1).1 } }).renameWeb split.1
    (a.graph.vars.fresh split.1).2 split.2

theorem chainsSplitWeb (a : Analysed) (split : VarId × List Loc) : (splitWeb a split).chains = a.chains :=
  (keptRenameWeb ..).1

theorem splitsFold (vs : List VarId) (a : Analysed) :
    vs.foldl splitVariable a =
      (vs.flatMap fun v => (Webs.ofChains a.chains v).tail.map (v,·)).foldl splitWeb a := by
  induction vs generalizing a with
  | nil => rfl
  | cons v vs ih =>
    have one : splitVariable a v = ((Webs.ofChains a.chains v).tail.map (v,·)).foldl splitWeb a := by
      rw [List.foldl_map]
      rfl
    have same : (splitVariable a v).chains = a.chains := by
      rw [one]
      exact List.foldlRecOn _ _ (motive := fun b : Analysed => b.chains = a.chains) rfl
        fun b before x _ => (b.chainsSplitWeb x).trans before
    rw [List.foldl_cons,ih,same,List.flatMap_cons,List.foldl_append,← one]

def Called (splits : List (VarId × List Loc)) (size : Nat) (v : VarId) (inside : List Loc → Prop) (x : VarId) : Prop :=
  (x = v ∧ ∀ web, (v,web) ∈ splits → ¬inside web) ∨ ∃ k web, splits[k]? = some (v,web) ∧ inside web ∧ x = size + k

section Called

variable {splits : List (VarId × List Loc)} {size : Nat} {inside : List Loc → Prop} {x : VarId}

theorem Called.stays (called : Called splits size v inside x) (other : x = v → w = v → ¬inside web) :
    Called (splits ++ [(w,web)]) size v inside x := by
  rcases called with ⟨rfl,none⟩ | ⟨k,own,here,held,same⟩
  · refine .inl ⟨rfl,fun own member => ?_⟩
    rcases List.mem_append.mp member with member | last
    · exact none own member
    · obtain ⟨rfl,rfl⟩ := Prod.mk.inj (List.mem_singleton.mp last)
      exact other rfl rfl
  · exact .inr ⟨k,own,by rw [List.getElem?_append_left (List.getElem?_eq_some_iff.mp here).1]; exact here,held,same⟩

theorem Called.last (held : inside web) : Called (splits ++ [(v,web)]) size v inside (size + splits.length) :=
  .inr ⟨splits.length,web,by simp,held,rfl⟩

end Called

theorem definesOnce (distinct : g.LocsDistinct) (left : g.Defines v d) (right : g.Defines w d) (own : d ≠ paramLoc) :
    v = w := by
  obtain ⟨p,left⟩ := left
  obtain ⟨q,right⟩ := right
  cases left with
  | param _ _ => contradiction
  | @stmt i k s here defines =>
    generalize loc : s.loc = l at right own
    cases right with
    | param _ _ => contradiction
    | stmt there defines' =>
      obtain ⟨-,rfl⟩ := here.unique distinct there loc
      exact Option.some.inj (defines.symm.trans defines')

theorem Made.splitting (made : a.Made) (splits : List (VarId × List Loc))
    (known : ∀ x ∈ splits, x.1 < a.graph.vars.size ∧ ∀ d ∈ x.2, a.graph.Defines x.1 d ∧ d ≠ paramLoc) :
    (splits.foldl splitWeb a).chains = a.chains ∧
    (splits.foldl splitWeb a).graph.vars.size = a.graph.vars.size + splits.length ∧
    ∃ n, a.graph.Renames (splits.foldl splitWeb a).graph n ∧
      (∀ v d, a.graph.Defines v d → Called splits a.graph.vars.size v (d ∈ ·) (n.defs d v)) ∧
      ∀ v u, v < a.graph.vars.size →
        Called splits a.graph.vars.size v (fun web => ∃ d ∈ web, d ∈ a.chains.defsOfUse v u) (n.reads u v) := by
  induction splits using List.reverseRecOn with
  | nil =>
    refine ⟨rfl,rfl,.same,⟨.refl _,fun i _ => ?_⟩,fun v d _ => .inl ⟨rfl,by simp⟩,fun v u _ => .inl ⟨rfl,by simp⟩⟩
    exact ((List.map_congr_left fun s _ => Stmt.renamedSame).trans (List.map_id _)).symm
  | append_singleton splits x ih =>
    obtain ⟨w,web⟩ := x
    obtain ⟨chains,size,n,renames,defs,reads⟩ := ih fun x member => known x (List.mem_append_left _ member)
    obtain ⟨small,defined⟩ := known (w,web) (by simp)
    dsimp only at small defined
    rw [List.foldl_concat]
    generalize splits.foldl splitWeb a = b at chains size renames
    have grown : (b.graph.vars.fresh w).1.size = b.graph.vars.size + 1 := by
      simp [VarTable.fresh,VarTable.push,VarTable.size]
    have new : (b.graph.vars.fresh w).2 = a.graph.vars.size + splits.length := size ▸ rfl
    have other : (b.graph.vars.fresh w).2 ≠ w := new ▸ Nat.ne_of_gt (Nat.lt_add_right _ small)
    have homed : ∀ p s, a.graph.StmtAt p s → b.chains.home.contains s.loc = true := fun p s here => by
      rw [chains,Table.contains,made.fresh.1.home p s here]
      rfl
    have start : a.graph.Renames { b.graph with vars := (b.graph.vars.fresh w).1 }
        (n.moved w (b.graph.vars.fresh w).2 [] []) := by
      rw [Naming.movedNone]
      exact ⟨renames.toRestated.trans ⟨rfl,rfl,fun _ => rfl⟩,renames.stmts⟩
    have rest := webRenames (b := { b with graph := { b.graph with vars := (b.graph.vars.fresh w).1 } })
      homed other start web
    have memUses : ∀ u, u ∈ (web.flatMap (b.chains.uses w)).reverse ++ [] ↔ ∃ d ∈ web, d ∈ a.chains.defsOfUse w u := by
      intro u
      simp only [List.append_nil,List.mem_reverse,List.mem_flatMap,chains,made.fresh.1.agree w u]
    have memWeb : ∀ d, d ∈ web.reverse ++ [] ↔ d ∈ web := by simp
    refine ⟨(b.chainsSplitWeb _).trans chains,?_,_,rest,fun v d defines => ?_,fun v u inside => ?_⟩
    · rw [splitWeb,(keptRenameWeb ..).2,grown,size,List.length_append]
      rfl
    · simp only [Naming.moved,memWeb,new]
      split
      · rename_i held
        obtain ⟨own,apart⟩ := defined d held
        obtain rfl := definesOnce made.distinct own defines apart
        exact .last held
      · rename_i held
        exact (defs v d defines).stays fun _ _ => held
    · simp only [Naming.moved,memUses,new]
      split
      · rename_i held
        rcases reads v u inside with ⟨same,-⟩ | ⟨k,_,-,-,same⟩
        · obtain rfl : w = v := held.2.symm.trans same
          exact .last held.1
        · exact absurd (held.2.symm.trans same) (Nat.ne_of_lt (Nat.lt_add_right _ small))
      · rename_i held
        exact (reads v u inside).stays fun same eq member => held ⟨eq ▸ member,same.trans eq.symm⟩

theorem Made.defsIff (made : a.Made) : d ∈ a.chains.defs v ↔ a.graph.Defines v d :=
  memDefs.trans (made.tied.1.defined v d)

theorem Made.small (made : a.Made) (defines : a.graph.Defines v d) : v < a.graph.vars.size := by
  obtain ⟨p,defined⟩ := defines
  cases defined with
  | stmt here defines => exact made.wired.defs _ here.1 _ (List.mem_of_getElem? here.2) v defines
  | param member _ => exact made.wired.params v member

theorem Made.firstWeb (made : a.Made) (least : ∀ e, a.graph.Defines v e → d ≤ e)
    (member : web ∈ (Webs.ofChains a.chains v).tail) : d ∉ web := by
  intro held
  obtain ⟨parts,filled,-,order⟩ := made.webs v
  cases all : Webs.ofChains a.chains v with
  | nil => rw [all] at member; contradiction
  | cons first rest =>
    rw [all] at parts filled order member
    have bound : ∀ {w}, w ∈ first :: rest → ∀ x ∈ w, d ≤ x := fun listed x inside =>
      least x (made.defsIff.mp ((parts.covers x).mpr ⟨_,listed,inside⟩))
    obtain ⟨x,xs,rfl⟩ := List.exists_cons_of_ne_nil (filled first (List.mem_cons_self ..))
    obtain ⟨y,ys,rfl⟩ := List.exists_cons_of_ne_nil (List.ne_nil_of_mem held)
    have head : x ≤ y := (List.pairwise_cons.mp order).1 _ member
    have low : d ≤ x := bound (List.mem_cons_self ..) x (List.mem_cons_self ..)
    have sorted := parts.sorted _ (List.mem_cons_of_mem _ member)
    have same : y ≤ d := by
      rcases List.mem_cons.mp held with rfl | later
      · exact Int.le_refl _
      · exact Int.le_of_lt ((List.pairwise_cons.mp sorted).1 d later)
    obtain rfl : x = d := Int.le_antisymm (Int.le_trans head same) low
    exact (List.pairwise_cons.mp parts.apart).1 _ member (List.mem_cons_self ..) held

theorem Made.splits (made : a.Made) (later : ∀ l ∈ a.graph.locs, paramLoc < l) (member : (v,web) ∈ a.chains.splits) :
    v < a.graph.vars.size ∧ (∀ d ∈ web, a.graph.Defines v d ∧ d ≠ paramLoc) ∧
      ∀ d ∈ web, ∀ e, e ∈ web ↔ a.chains.Connected v d e := by
  obtain ⟨defined,rest⟩ := memSplits.mp member
  have listed := List.mem_of_mem_tail rest
  obtain ⟨parts,filled,closed,-⟩ := made.webs v
  have defines : ∀ d ∈ web, a.graph.Defines v d := fun d held =>
    made.defsIff.mp ((parts.covers d).mpr ⟨web,listed,held⟩)
  have least : ∀ e, a.graph.Defines v e → paramLoc ≤ e := by
    rintro e ⟨p,here⟩
    cases here with
    | stmt here _ => exact Int.le_of_lt (later _ (Graph.memLocs.mpr ⟨_,_,here,rfl⟩))
    | param _ _ => exact Int.le_refl _
  obtain ⟨d,held⟩ := List.exists_mem_of_ne_nil web (filled web listed)
  refine ⟨made.small (defines d held),fun d held => ⟨defines d held,fun same => ?_⟩,fun d held e =>
    ⟨parts.linked web listed d held e,closed web listed d held e⟩⟩
  exact made.firstWeb least rest (same ▸ held)

theorem Made.splitOnce (made : a.Made) {i j : Nat} {web' : List Loc} (left : a.chains.splits[i]? = some (v,web))
    (right : a.chains.splits[j]? = some (v,web')) (first : d ∈ web) (second : d ∈ web') : i = j := by
  have apart : a.chains.splits.Pairwise fun x y => x.1 = y.1 → x.2.Disjoint y.2 := by
    rw [Chains.splits,List.pairwise_flatMap]
    refine ⟨fun v _ => ?_,(definedVarsSorted a.chains).2.imp fun other x left y right same => ?_⟩
    · rw [List.pairwise_map]
      exact ((made.webs v).1.apart.sublist (List.tail_sublist _)).imp fun apart (_ : v = v) => apart
    · obtain ⟨_,-,rfl⟩ := List.mem_map.mp left
      obtain ⟨_,-,rfl⟩ := List.mem_map.mp right
      exact absurd same other
  rw [List.pairwise_iff_getElem] at apart
  obtain ⟨low,here⟩ := List.getElem?_eq_some_iff.mp left
  obtain ⟨high,there⟩ := List.getElem?_eq_some_iff.mp right
  rcases Nat.lt_trichotomy i j with less | same | more
  · have := apart i j low high less
    rw [here,there] at this
    exact (this rfl first second).elim
  · exact same
  · have := apart j i high low more
    rw [here,there] at this
    exact (this rfl second first).elim

theorem Made.stayTogether (made : a.Made) (first : a.graph.Defines v d) (second : a.graph.Defines v e)
    (left : ∀ web, (v,web) ∈ a.chains.splits → d ∉ web) (right : ∀ web, (v,web) ∈ a.chains.splits → e ∉ web) :
    a.chains.Connected v d e := by
  obtain ⟨parts,-⟩ := made.webs v
  obtain ⟨x,xs,inside⟩ := (parts.covers d).mp (made.defsIff.mpr first)
  obtain ⟨y,ys,inside'⟩ := (parts.covers e).mp (made.defsIff.mpr second)
  have defined : v ∈ a.chains.definedVars :=
    ((definedVarsSorted a.chains).1 v).mpr ⟨d,(made.tied.1.defined v d).mpr first⟩
  have front : ∀ {w c}, w ∈ Webs.ofChains a.chains v → c ∈ w → (∀ web, (v,web) ∈ a.chains.splits → c ∉ web) →
      (Webs.ofChains a.chains v).head? = some w := by
    intro w c member held none
    cases all : Webs.ofChains a.chains v with
    | nil => rw [all] at member; contradiction
    | cons head rest =>
      rw [all] at member
      rcases List.mem_cons.mp member with rfl | later
      · rfl
      · exact absurd held (none w (memSplits.mpr ⟨defined,by rw [all]; exact later⟩))
  obtain rfl := Option.some.inj ((front xs inside left).symm.trans (front ys inside' right))
  exact parts.linked x xs d inside e inside'

structure Parted (a : Analysed) (n : Naming) : Prop extends a.graph.Agrees n where
  shared : ∀ {v w d e}, a.graph.Defines v d → a.graph.Defines w e →
    (n.defs d v = n.defs e w ↔ v = w ∧ a.chains.Connected v d e)

theorem Made.parted (made : a.Made) (later : ∀ l ∈ a.graph.locs, paramLoc < l)
    (defs : ∀ v d, a.graph.Defines v d → Called a.chains.splits a.graph.vars.size v (d ∈ ·) (n.defs d v))
    (reads : ∀ v u, v < a.graph.vars.size → Called a.chains.splits a.graph.vars.size v
      (fun web => ∃ d ∈ web, d ∈ a.chains.defsOfUse v u) (n.reads u v)) : a.Parted n := by
  have known := fun {v web} (member : (v,web) ∈ a.chains.splits) => made.splits later member
  have apart : ∀ {v w d e}, a.graph.Defines v d → a.graph.Defines w e → n.defs d v = n.defs e w → v = w := by
    intro v w d e first second same
    have low := made.small first
    have high := made.small second
    rcases defs v d first with ⟨left,-⟩ | ⟨i,x,here,-,left⟩ <;>
      rcases defs w e second with ⟨right,-⟩ | ⟨j,y,there,-,right⟩
    · exact left.symm.trans (same.trans right)
    · exact absurd (left.symm.trans (same.trans right)) (Nat.ne_of_lt (Nat.lt_add_right _ low))
    · exact absurd (left.symm.trans (same.trans right)) (Nat.ne_of_gt (Nat.lt_add_right _ high))
    · obtain rfl : i = j := Nat.add_left_cancel (left.symm.trans (same.trans right))
      exact (Prod.mk.inj (Option.some.inj (here.symm.trans there))).1
  refine ⟨⟨fun {v} defines => ?_,apart,?_⟩,?_⟩
  · rcases defs v paramLoc defines with ⟨same,-⟩ | ⟨k,web,here,held,-⟩
    · exact same
    · exact absurd rfl ((known (List.mem_of_getElem? here)).2.1 _ held).2
  · intro p s v d here use reached
    have linked := (made.linksReach here use).mpr reached
    have defines := (made.tied.1.linked linked).2
    rcases defs v d defines with ⟨left,none⟩ | ⟨i,x,first,held,left⟩ <;>
      rcases reads v s.loc (made.small defines) with ⟨right,free⟩ | ⟨j,y,second,⟨e,member,joint⟩,right⟩
    · exact left.trans right.symm
    · have listed := List.mem_of_getElem? second
      exact absurd (((known listed).2.2 e member d).mpr (.single ⟨s.loc,joint,linked⟩)) (none y listed)
    · exact absurd ⟨d,held,linked⟩ (free x (List.mem_of_getElem? first))
    · have also := ((known (List.mem_of_getElem? second)).2.2 e member d).mpr (.single ⟨s.loc,joint,linked⟩)
      rw [left,right,made.splitOnce first second held also]
  · intro v w d e first second
    constructor
    · intro same
      obtain rfl := apart first second same
      refine ⟨rfl,?_⟩
      have low := made.small first
      rcases defs v d first with ⟨left,none⟩ | ⟨i,x,here,held,left⟩ <;>
        rcases defs v e second with ⟨right,none'⟩ | ⟨j,y,there,held',right⟩
      · exact made.stayTogether first second none none'
      · exact absurd (left.symm.trans (same.trans right)) (Nat.ne_of_lt (Nat.lt_add_right _ low))
      · exact absurd (left.symm.trans (same.trans right)) (Nat.ne_of_gt (Nat.lt_add_right _ low))
      · obtain rfl : i = j := Nat.add_left_cancel (left.symm.trans (same.trans right))
        obtain rfl := (Prod.mk.inj (Option.some.inj (here.symm.trans there))).2
        exact ((known (List.mem_of_getElem? here)).2.2 d held e).mp held'
    · rintro ⟨rfl,connected⟩
      rcases defs v d first with ⟨left,none⟩ | ⟨i,x,here,held,left⟩ <;>
        rcases defs v e second with ⟨right,none'⟩ | ⟨j,y,there,held',right⟩
      · exact left.trans right.symm
      · have listed := List.mem_of_getElem? there
        exact absurd (((known listed).2.2 e held' d).mpr connected.symm) (none y listed)
      · have listed := List.mem_of_getElem? here
        exact absurd (((known listed).2.2 d held e).mpr connected) (none' x listed)
      · have also := ((known (List.mem_of_getElem? here)).2.2 d held e).mpr connected
        rw [left,right,made.splitOnce here there also held']

theorem Made.served (made : a.Made) {p : Point} {s : Stmt} (here : a.graph.StmtAt p s) (use : v ∈ s.uses) :
    ∃ d, a.graph.Reaches v d p := by
  obtain ⟨d,linked⟩ := List.exists_mem_of_ne_nil _ (made.fresh.2 v s.loc ⟨p,s,here,rfl,use⟩)
  exact ⟨d,(made.linksReach here use).mp linked⟩

theorem Made.relinked (made : a.Made) (renames : a.graph.Renames g n) (agrees : a.graph.Agrees n)
    (wired : g.Wired) (distinct : g.LocsDistinct) : ∃ c, Chains.ofGraph g = .ok c := by
  rw [(Chains.reachingExact g wired distinct).2.1]
  intro p t there x use
  obtain ⟨s,here,rfl⟩ := renames.origin there
  rw [Stmt.usesRenamed] at use
  obtain ⟨v,own,rfl⟩ := List.mem_map.mp use
  have served := made.served here own
  exact served.imp fun d reached => (renames.reaches agrees made.wired here own served).mpr reached

theorem Made.linksKept (made : a.Made) (after : b.Made) (renames : a.graph.Renames b.graph n)
    (agrees : a.graph.Agrees n) (read : a.graph.Reads v u) :
    b.chains.defsOfUse (n.reads u v) u = a.chains.defsOfUse v u := by
  obtain ⟨p,s,here,rfl,use⟩ := read
  refine Locs.eqOfMem (after.tied.1.defsSorted ..) (made.tied.1.defsSorted ..) fun d => ?_
  have use' : n.reads s.loc v ∈ (s.renamed n).uses := by
    rw [Stmt.usesRenamed]
    exact List.mem_map_of_mem use
  rw [made.linksReach here use,← renames.reaches agrees made.wired here use (made.served here use)]
  exact after.linksReach (s := s.renamed n) (renames.place here) use'

theorem Parted.connects (parted : a.Parted n) (made : a.Made)
    (links : ∀ v u, a.graph.Reads v u → b.chains.defsOfUse (n.reads u v) u = a.chains.defsOfUse v u)
    (connected : a.chains.Connected v d e) : b.chains.Connected (n.defs d v) d e := by
  have both : b.chains.Connected (n.defs d v) d e ∧ n.defs e v = n.defs d v := by
    induction connected with
    | refl => exact ⟨.refl,rfl⟩
    | @tail e f _ joint ih =>
      obtain ⟨u,left,right⟩ := joint
      have read := (made.tied.1.linked left).1
      have named : ∀ {c}, c ∈ a.chains.defsOfUse v u → n.defs c v = n.reads u v := by
        intro c linked
        obtain ⟨p,s,here,rfl,use⟩ := read
        exact parted.reads here use ((made.linksReach here use).mp linked)
      have shared : n.reads u v = n.defs d v := (named left).symm.trans ih.2
      have last := (named right).trans shared
      rw [← links v u read,shared] at left right
      exact ⟨ih.1.tail ⟨u,left,right⟩,last⟩
  exact both.1

theorem Parted.unsplit (parted : a.Parted n) (made : a.Made) (after : b.Made) (renames : a.graph.Renames b.graph n)
    (links : ∀ v u, a.graph.Reads v u → b.chains.defsOfUse (n.reads u v) u = a.chains.defsOfUse v u) :
    b.splitLifetimes = .ok b := by
  have whole : ∀ x, (Webs.ofChains b.chains x).tail = [] := by
    intro x
    obtain ⟨parts,filled,closed,-⟩ := after.webs x
    cases all : Webs.ofChains b.chains x with
    | nil => rfl
    | cons first rest =>
      cases rest with
      | nil => rfl
      | cons second rest =>
        rw [all] at parts filled closed
        have left := List.mem_cons_self (a := first) (l := second :: rest)
        have right := List.mem_cons_of_mem first (List.mem_cons_self (a := second) (l := rest))
        obtain ⟨d,inside⟩ := List.exists_mem_of_ne_nil _ (filled first left)
        obtain ⟨e,inside'⟩ := List.exists_mem_of_ne_nil _ (filled second right)
        obtain ⟨p,defined⟩ := after.defsIff.mp ((parts.covers d).mpr ⟨first,left,inside⟩)
        obtain ⟨q,defined'⟩ := after.defsIff.mp ((parts.covers e).mpr ⟨second,right,inside'⟩)
        obtain ⟨v,origin,name⟩ := renames.definedFrom parted.toAgrees defined
        obtain ⟨w,origin',name'⟩ := renames.definedFrom parted.toAgrees defined'
        obtain ⟨rfl,connected⟩ := (parted.shared ⟨p,origin⟩ ⟨q,origin'⟩).mp (name.trans name'.symm)
        have joined := name ▸ parted.connects made links connected
        exact absurd (closed first left d inside e joined)
          fun held => (List.pairwise_cons.mp parts.apart).1 second (List.mem_cons_self ..) held inside'
  have none : b.chains.splits = [] := by simp [Chains.splits,whole]
  have still : b.chains.definedVars.foldl splitVariable b = b := by
    rw [splitsFold _ b,← Chains.splits,none]
    rfl
  unfold splitLifetimes
  rw [still]
  simp

/-- Lifetimes can always be split. The graph is the old one under other names: every use is linked to the
definitions to which it was linked before, and these are what reaches it. Two definitions have one name just
when they had one before and uses connect them; what is connected to a parameter keeps its variable. A second
split changes nothing. -/
theorem splitLifetimesParts (made : a.Made) (later : ∀ l ∈ a.graph.locs, paramLoc < l) :
    ∃ b n, a.splitLifetimes = .ok b ∧ b.Made ∧ a.graph.Renames b.graph n ∧
      (∀ v u, a.graph.Reads v u → b.chains.defsOfUse (n.reads u v) u = a.chains.defsOfUse v u) ∧
      (∀ p s v d, a.graph.StmtAt p s → v ∈ s.uses →
        (b.graph.Reaches (n.reads s.loc v) d p ↔ a.graph.Reaches v d p)) ∧
      (∀ v w d e, a.graph.Defines v d → a.graph.Defines w e →
        (n.defs d v = n.defs e w ↔ v = w ∧ a.chains.Connected v d e)) ∧
      (∀ v d, a.graph.Defines v paramLoc → a.chains.Connected v paramLoc d → n.defs d v = v) ∧
      b.splitLifetimes = .ok b := by
  obtain ⟨-,size,n,renames,defs,reads⟩ := made.splitting a.chains.splits fun x member =>
    let known := made.splits later (show (x.1,x.2) ∈ a.chains.splits from member)
    ⟨known.1,known.2.1⟩
  have parted := made.parted later defs reads
  have fold : a.chains.definedVars.foldl splitVariable a = a.chains.splits.foldl splitWeb a := splitsFold _ a
  have renamed := a.renamedSplitVariables a.chains.definedVars
  rw [fold] at renamed
  obtain ⟨c,linked⟩ := made.relinked renames parted.toAgrees (renamed.wired made.wired) (renamed.distinct made.distinct)
  have split : a.splitLifetimes = .ok ⟨(a.chains.splits.foldl splitWeb a).graph,c⟩ := by
    unfold splitLifetimes
    simp only [fold]
    split
    · rename_i same
      have none : a.chains.splits = [] := List.eq_nil_of_length_eq_zero (by omega)
      rw [none] at linked ⊢
      rw [List.foldl_nil,made.ok] at linked
      cases linked
      rfl
    · rw [linked]
      rfl
  have after := made.split split
  have links := fun v u read => made.linksKept after renames parted.toAgrees (v := v) (u := u) read
  refine ⟨_,n,split,after,renames,links,fun p s v d here use => ?_,fun v w d e => parted.shared,fun v d param connected => ?_,
    parted.unsplit made after renames links⟩
  · exact renames.reaches parted.toAgrees made.wired here use (made.served here use)
  · have defines : a.graph.Defines v d := by
      cases connected with
      | refl => exact param
      | tail _ joint => exact (made.tied.1.linked joint.choose_spec.2).2
    exact ((parted.shared param defines).mpr ⟨rfl,connected⟩).symm.trans (parted.params param)

def reused : Graph := oneNode [0] ⟨#[{ kind := .param },{ register := 1 }]⟩ [
  ⟨0,.assign 1 (.var 0) false⟩,
  ⟨1,.assign 0 (.const "I" 5) false⟩,
  ⟨2,.ret (some (.binary .add (.var 0) (.var 1) "I"))⟩]

/-- The parameter keeps its variable, the other lifetime gets a new one, also where it is read. -/
theorem splitLifetimesPartsReused : ∃ a b : Analysed, a.graph = reused ∧ a.Made ∧ a.splitLifetimes = .ok b ∧
    (b.graph.node 0).stmts = [⟨0,.assign 1 (.var 0) false⟩,⟨1,.assign 2 (.const "I" 5) false⟩,
      ⟨2,.ret (some (.binary .add (.var 2) (.var 1) "I"))⟩] ∧ b.splitLifetimes = .ok b := by
  have run : (Chains.ofGraph reused).toOption.map (fun c =>
      (splitLifetimes ⟨reused,c⟩).toOption.map fun b => (b.graph.node 0).stmts) =
        some (some [⟨0,.assign 1 (.var 0) false⟩,⟨1,.assign 2 (.const "I" 5) false⟩,
          ⟨2,.ret (some (.binary .add (.var 2) (.var 1) "I"))⟩]) := by cbv
  cases ok : Chains.ofGraph reused with
  | error f => rw [ok] at run; contradiction
  | ok c =>
    rw [ok] at run
    have made : Made ⟨reused,c⟩ := oneNodeMade (by decide) (by decide) (by decide) (by decide) ok
    have later : ∀ l ∈ reused.locs, paramLoc < l := by decide
    obtain ⟨b,n,split,-,-,-,-,-,-,again⟩ := splitLifetimesParts made later
    have run := Option.some.inj run
    dsimp only at run
    rw [split] at run
    exact ⟨⟨reused,c⟩,b,rfl,made,split,Option.some.inj run,again⟩

end Analysed

end RegCode
