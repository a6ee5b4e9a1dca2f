import RegCode.Proofs.Chains.Removing
import RegCode.Proofs.Flow.Edits

/-! Substitution hands the definitions of the operands on from the definition to the use. That leaves
exact chains exact just when nothing else reaches the operands at the use. -/
namespace RegCode.Analysed

open Chains

variable {a b : Analysed} {c c₁ c' : Chains} {d u : Loc} {v x : VarId} {xs : List VarId}

structure Inherits (d u : Loc) (xs : List VarId) (c c' : Chains) : Prop where
  home : c'.home = c.home
  dropped : c'.dropped = c.dropped
  useDef : ∀ w l, c'.useDef.get? (w,l) =
    if l = u ∧ w ∈ xs then some (Locs.union (c.defsOfUse w u) (c.defsOfUse w d))
    else c.useDef.get? (w,l)
  uses : ∀ w e l, l ∈ c'.uses w e ↔ l ∈ c.uses w e ∨ l = u ∧ w ∈ xs ∧ e ∈ c.defsOfUse w d
  grows : Grows (fun w e => w ∈ xs ∧ e ∈ c.defsOfUse w d) c c'

theorem inheritsUse (d u : Loc) (x : VarId) (c : Chains) : Inherits d u [x] c (inheritUses c d u x) := by
  obtain ⟨table,home,reaching,dropped,links⟩ := foldAddUse x u (c.defsOfUse x d)
    { c with useDef := c.useDef.insert (x,u) (Locs.union (c.defsOfUse x u) (c.defsOfUse x d)) }
  refine ⟨home,dropped,fun w l => ?_,fun w e l => ?_,?_⟩
  · rw [inheritUses,table,Table.get?_insert]
    by_cases same : (w,l) = (x,u)
    · cases same
      simp
    · rw [if_neg (by simpa using same),if_neg]
      rintro ⟨rfl,member⟩
      exact same (by rw [List.mem_singleton.mp member])
  · rw [inheritUses,links,List.mem_singleton]
    refine or_congr Iff.rfl ⟨?_,?_⟩
    · rintro ⟨rfl,rfl,member⟩
      exact ⟨rfl,rfl,member⟩
    · rintro ⟨rfl,rfl,member⟩
      exact ⟨rfl,rfl,member⟩
  · have table : Grows (fun w e => w ∈ [x] ∧ e ∈ c.defsOfUse w d) c
        { c with useDef := c.useDef.insert (x,u) (Locs.union (c.defsOfUse x u) (c.defsOfUse x d)) } :=
      growsOfTable rfl rfl
    exact table.trans (growsFoldUse u (c.defsOfUse x d)
      (fun e member => ⟨List.mem_singleton_self x,member⟩) _)

theorem Inherits.cons (apart : d ≠ u) (other : x ∉ xs) (first : Inherits d u [x] c c₁)
    (rest : Inherits d u xs c₁ c') : Inherits d u (x :: xs) c c' := by
  have source : ∀ w, c₁.defsOfUse w d = c.defsOfUse w d := fun w => by
    rw [Chains.defsOfUse,Chains.defsOfUse,Table.getD,Table.getD,first.useDef,if_neg fun h => apart h.1]
  refine ⟨rest.home.trans first.home,rest.dropped.trans first.dropped,fun w l => ?_,fun w e l => ?_,?_⟩
  · rw [rest.useDef,first.useDef,source]
    by_cases here : l = u
    · by_cases same : w = x
      · simp [here,same,other]
      · have old : c₁.defsOfUse w u = c.defsOfUse w u := by
          rw [Chains.defsOfUse,Chains.defsOfUse,Table.getD,Table.getD,first.useDef,
            if_neg (by simp [same])]
        simp [here,same,old]
    · simp [here]
  · rw [rest.uses,first.uses,source,List.mem_singleton,List.mem_cons]
    tauto
  · have wider : ∀ w e, (w ∈ [x] ∧ e ∈ c.defsOfUse w d) ∨ (w ∈ xs ∧ e ∈ c₁.defsOfUse w d) →
        w ∈ x :: xs ∧ e ∈ c.defsOfUse w d := by
      intro w e h
      rw [source,List.mem_singleton] at h
      rw [List.mem_cons]
      tauto
    exact (first.grows.mono fun w e h => wider w e (.inl h)).trans
      (rest.grows.mono fun w e h => wider w e (.inr h))

theorem inheritsFold (apart : d ≠ u) (nodup : xs.Nodup) (c : Chains) :
    Inherits d u xs c (xs.foldl (fun c x => inheritUses c d u x) c) := by
  induction xs generalizing c with
  | nil => exact ⟨rfl,rfl,by simp,by simp,.refl _ c⟩
  | cons x xs ih =>
    obtain ⟨other,nodup⟩ := List.nodup_cons.mp nodup
    exact (inheritsUse d u x c).cons apart other (ih nodup _)

def relinked (a : Analysed) (u : Loc) (v : VarId) (d : Loc) (value : Expr) : Analysed :=
  let c := value.vars.eraseDups.foldl (fun c x => inheritUses c d u x) a.chains
  { graph := (a.modifyStmt u (Stmt.replace v value)).graph
    chains :=
      { c with
        useDef := c.useDef.erase (v,u)
        defUse := c.defUse.insert (v,d) (Locs.erase u (c.uses v d)) } }

theorem chainsModifyStmt (a : Analysed) (l : Loc) (f : Stmt → Stmt) :
    (a.modifyStmt l f).chains = a.chains := by
  unfold modifyStmt
  split <;> rfl

theorem substituteRelinked (a : Analysed) (u : Loc) (v : VarId) (d : Loc) (value : Expr) :
    a.substitute u v d value = if ((a.relinked u v d value).chains.uses v d).isEmpty then
      ((a.relinked u v d value).removeStmt d).1 else a.relinked u v d value := by
  have left : (a.relinked u v d value).chains.uses v d = Locs.erase u
      ((value.vars.eraseDups.foldl (fun c x => inheritUses c d u x) a.chains).uses v d) := by
    rw [relinked,Chains.uses,getDInsert,if_pos rfl]
  rw [left,substitute,relinked,chainsModifyStmt]

variable {p : Point} {s : Stmt} {value : Expr}

theorem Grounded.editedModify (grounded : a.Grounded) (here : a.graph.StmtAt p s) {f : Stmt → Stmt}
    (keeps : ∀ s, (f s).loc = s.loc) (defs : ∀ s, (f s).def? = s.def?) :
    Graph.Edited (Stmt.rewrite s.loc f) a.graph (a.modifyStmt s.loc f).graph := by
  have thins := a.thinsModifyStmt s.loc keeps fun s v defines => (defs s).symm.trans defines
  refine ⟨thins.graph,fun i member => ?_,fun t r kept => ?_,fun t r w kept defines => ?_⟩
  · have inside := grounded.wired.inStore i member
    have known : a.chains.home.contains s.loc = true := by
      simp [Table.contains,grounded.placed p s here]
    have same : (a.modifyStmt s.loc f).graph.node i = (a.graph.node i).modifyStmt s.loc f := by
      rw [modifyStmt,if_pos known]
      simp [Graph.node,inside]
    rw [same,Node.modifyStmt,← List.filterMap_eq_map]
    refine List.filterMap_congr fun t _ => ?_
    simp [Stmt.rewrite]
  · cases Option.some.inj kept
    split
    · exact keeps t
    · rfl
  · cases Option.some.inj kept
    split at defines
    · exact (defs t).symm.trans defines
    · exact defines

structure Relinked (a : Analysed) (u : Loc) (v : VarId) (d : Loc) (value : Expr) (b : Analysed) : Prop where
  edited : Graph.Edited (Stmt.rewrite u (Stmt.replace v value)) a.graph b.graph
  reaching : b.chains.reaching = a.chains.reaching
  dropped : b.chains.dropped = a.chains.dropped
  home : b.chains.home = a.chains.home
  defined : ∀ w e, b.chains.defUse.contains (w,e) = a.chains.defUse.contains (w,e)
  read : ∀ w l, b.chains.useDef.contains (w,l) ↔
    a.chains.useDef.contains (w,l) ∧ (w,l) ≠ (v,u) ∨ l = u ∧ w ∈ value.vars
  defsOf : ∀ w l e, e ∈ b.chains.defsOfUse w l ↔
    e ∈ a.chains.defsOfUse w l ∧ (w,l) ≠ (v,u) ∨ l = u ∧ w ∈ value.vars ∧ e ∈ a.chains.defsOfUse w d
  usesOf : ∀ w e l, l ∈ b.chains.uses w e ↔
    l ∈ a.chains.uses w e ∧ ((w,e) = (v,d) → l ≠ u) ∨
      l = u ∧ w ∈ value.vars ∧ e ∈ a.chains.defsOfUse w d
  usesSorted : ∀ w e, Locs.Canonical (b.chains.uses w e)
  defsSorted : ∀ w l, Locs.Canonical (b.chains.defsOfUse w l)

theorem Tied.relinks (tied : a.Tied) (here : a.graph.StmtAt p s) (passed : a.Checked s.loc v d value)
    (unread : v ∉ value.vars) : a.Relinked s.loc v d value (a.relinked s.loc v d value) := by
  have edited := tied.toGrounded.editedModify here (f := Stmt.replace v value) (fun _ => rfl)
    fun t => t.act.defMapExprs _
  have inherits := inheritsFold (c := a.chains) passed.apart (Graph.eraseDupsNodup value.vars)
  unfold relinked
  generalize value.vars.eraseDups.foldl (fun c x => inheritUses c d s.loc x) a.chains = c at inherits
  obtain ⟨home,dropped,useDef,uses,grows⟩ := inherits
  simp only [List.mem_eraseDups] at useDef uses grows
  have apart : (v,d) ≠ (v,s.loc) := fun same => passed.apart (Prod.mk.inj same).2
  have sorted := grows.sorted tied.usesSorted
  have used : a.chains.defUse.contains (v,d) :=
    (entries tied.agree (by rw [passed.only]; exact List.mem_singleton_self d)).2
  refine ⟨edited,grows.reaching,dropped,home,fun w e => ?_,fun w l => ?_,fun w l e => ?_,
    fun w e l => ?_,fun w e => ?_,fun w l => ?_⟩
  · by_cases same : (w,e) = (v,d)
    · cases same
      rw [used]
      simp [Table.contains]
    · have old : c.defUse.contains (w,e) = a.chains.defUse.contains (w,e) := by
        rw [Bool.eq_iff_iff]
        exact ⟨fun h => (grows.within w e h).elim id fun new => (entries tied.agree new.2).2,
          grows.keeps w e⟩
      simpa [Table.contains,same] using old
  · simp only [Table.contains,Table.get?_erase,useDef]
    by_cases same : (w,l) = (v,s.loc)
    · cases same
      simp [unread]
    · have other : l = s.loc → w ≠ v := fun here h => same (by rw [here,h])
      by_cases new : l = s.loc ∧ w ∈ value.vars
      · simp [new,other new.1]
      · simp [same,new]
  · by_cases same : (w,l) = (v,s.loc)
    · cases same
      simp [Chains.defsOfUse,Table.getD,unread]
    · by_cases new : l = s.loc ∧ w ∈ value.vars
      · obtain ⟨rfl,read⟩ := new
        have other : w ≠ v := fun h => same (by rw [h])
        simp [Chains.defsOfUse,Table.getD,useDef,other,read,Locs.memUnion]
      · rw [or_iff_left fun h => new ⟨h.1,h.2.1⟩,and_iff_left same,Chains.defsOfUse,Table.getD,
          Table.get?_erase,useDef,if_neg new,if_neg (by simpa using same)]
        rfl
  · rw [Chains.uses,getDInsert]
    by_cases same : (w,e) = (v,d)
    · cases same
      rw [if_pos rfl,Locs.memErase,uses]
      simp [unread]
    · rw [if_neg same]
      refine (uses w e l).trans ?_
      simp [same]
  · rw [Chains.uses,getDInsert]
    split
    · exact Locs.canonicalErase (sorted v d)
    · exact sorted w e
  · rw [Chains.defsOfUse,Table.getD,Table.get?_erase]
    split
    · exact List.Pairwise.nil
    · rw [useDef]
      split
      · exact Locs.canonicalUnion (tied.defsSorted w d)
      · exact tied.defsSorted w l

theorem Relinked.reads (relinked : a.Relinked u v d value b)
    (here : a.graph.StmtAt p s) (loc : s.loc = u) (use : v ∈ s.uses) (w : VarId) (l : Loc) :
    b.graph.Reads w l ↔ a.graph.Reads w l ∧ (w,l) ≠ (v,u) ∨ l = u ∧ w ∈ value.vars := by
  constructor
  · rintro ⟨p',t,there,rfl,member⟩
    obtain ⟨r,source,rfl⟩ := relinked.edited.rewriteAt.mp there
    split at member
    · rename_i same
      rw [if_pos same]
      rcases (Action.memReplace r.act).mp member with ⟨old,other⟩ | ⟨-,new⟩
      · exact .inl ⟨⟨p',r,source,rfl,old⟩,fun h => other (Prod.mk.inj h).1⟩
      · exact .inr ⟨same,new⟩
    · rename_i other
      rw [if_neg other]
      exact .inl ⟨⟨p',r,source,rfl,member⟩,fun h => other (Prod.mk.inj h).2⟩
  · rintro (⟨⟨q,r,there,rfl,member⟩,other⟩ | ⟨rfl,new⟩)
    · refine ⟨q,_,relinked.edited.rewriteAt.mpr ⟨r,there,rfl⟩,?_,?_⟩
      · split <;> rfl
      · split
        · rename_i same
          exact (Action.memReplace r.act).mpr (.inl ⟨member,fun h => other (by rw [h,same])⟩)
        · exact member
    · refine ⟨p,_,relinked.edited.rewriteAt.mpr ⟨s,here,if_pos loc⟩,loc,?_⟩
      exact (Action.memReplace s.act).mpr (.inr ⟨use,new⟩)

theorem Relinked.tied (relinked : a.Relinked u v d value b) (tied : a.Tied)
    (here : a.graph.StmtAt p s) (loc : s.loc = u) (passed : a.Checked u v d value)
    (homed : b.Homed) : b.Tied := by
  have linked : d ∈ a.chains.defsOfUse v u := by rw [passed.only]; exact List.mem_singleton_self d
  obtain ⟨q,t,there,place,use⟩ := (tied.linked linked).1
  obtain ⟨-,rfl⟩ := there.unique tied.distinct here (place.trans loc.symm)
  have reads := relinked.reads here loc use
  have source : ∀ w ∈ value.vars, a.graph.Reads w d := by
    intro w read
    obtain ⟨q,r,x,there,left,act⟩ := tied.homed.assignment passed.assigns
    exact ⟨q,r,there,left,by simpa [Stmt.uses,act,Action.uses,Action.exprs,Expr.varsAll] using read⟩
  have defs : ∀ t : Stmt, (t.replace v value).def? = t.def? := fun t => t.act.defMapExprs _
  refine tied.rework relinked.edited relinked.reaching homed
    (fun _ _ => tied.toGrounded.placedRewrite relinked.edited relinked.home)
    (fun _ _ => tied.toGrounded.plainRewrite relinked.edited defs relinked.dropped)
    (fun w e => ?_) (fun w l => ?_) (fun w l e => ?_) relinked.usesSorted
    relinked.defsSorted (fun w l use => ?_) fun w l e member => ?_
  · rw [relinked.defined,tied.defined,definesRewrite relinked.edited defs]
  · rw [relinked.read,tied.read,reads]
  · rw [relinked.usesOf,relinked.defsOf,tied.agree]
    refine or_congr_left (and_congr_right fun member => ⟨fun kept same => ?_,fun other same place => ?_⟩)
    · cases same
      rw [passed.only,List.mem_singleton] at member
      exact kept (by rw [member]) rfl
    · exact other (by rw [(Prod.mk.inj same).1,place])
  · rcases (reads w l).mp use with ⟨old,other⟩ | ⟨rfl,read⟩
    · obtain ⟨e,member⟩ := List.exists_mem_of_ne_nil _ (tied.served w l old)
      exact List.ne_nil_of_mem ((relinked.defsOf w l e).mpr (.inl ⟨member,other⟩))
    · obtain ⟨e,member⟩ := List.exists_mem_of_ne_nil _ (tied.served w d (source w read))
      exact List.ne_nil_of_mem ((relinked.defsOf w l e).mpr (.inr ⟨rfl,read,member⟩))
  · rcases (relinked.defsOf w l e).mp member with ⟨old,-⟩ | ⟨rfl,read,new⟩
    · exact tied.links w l e old
    · rw [← passed.same w read]
      exact new

theorem Tied.modify (tied : a.Tied) (here : a.graph.StmtAt p s) {f : Stmt → Stmt}
    (locs : ∀ s, (f s).loc = s.loc) (defs : ∀ s, (f s).def? = s.def?)
    (uses : ∀ s w, w ∈ (f s).uses ↔ w ∈ s.uses) :
    (a.modifyStmt s.loc f).Tied ∧ ∀ w l, ((a.modifyStmt s.loc f).graph.Reads w l ↔ a.graph.Reads w l) ∧
      ((a.modifyStmt s.loc f).Full w l ↔ a.Full w l) := by
  have edited := tied.toGrounded.editedModify here locs defs
  have homed := (a.thinsModifyStmt s.loc locs fun s v defines => (defs s).symm.trans defines).homed tied.homed
  have chains := a.chainsModifyStmt s.loc f
  generalize a.modifyStmt s.loc f = b at edited homed chains
  have reads := readsRewrite edited uses
  have full : ∀ w l, b.Full w l ↔ a.Full w l := fun w l => by
    refine forall_congr' fun e => ?_
    rw [tied.toGrounded.arrivesRewrite edited defs,chains]
  refine ⟨tied.rework edited (by rw [chains]) homed
    (fun _ _ => tied.toGrounded.placedRewrite edited (by rw [chains]))
    (fun _ _ => tied.toGrounded.plainRewrite edited defs (by rw [chains]))
    (fun w e => ?_) (fun w l => ?_) ?_ ?_ ?_ ?_ ?_,fun w l => ⟨reads w l,full w l⟩⟩
  · rw [chains,tied.defined,definesRewrite edited defs]
  · rw [chains,tied.read,reads]
  · rw [chains]
    exact tied.agree
  · rw [chains]
    exact tied.usesSorted
  · rw [chains]
    exact tied.defsSorted
  · intro w l use
    rw [chains]
    exact tied.served w l ((reads w l).mp use)
  · rw [chains]
    exact tied.links

theorem Tied.folded (tied : a.Tied) (l : Loc) : (a.modifyStmt l fun s => s.fold.1).Tied ∧
    ((a.modifyStmt l fun s => s.fold.1).Exact ↔ a.Exact) := by
  by_cases known : a.chains.home.contains l
  · obtain ⟨i,listed⟩ := Option.isSome_iff_exists.mp known
    obtain ⟨member,inside⟩ := tied.homed l i listed
    obtain ⟨s,held,rfl⟩ := List.mem_map.mp inside
    obtain ⟨k,place⟩ := List.getElem?_of_mem held
    obtain ⟨tied',same⟩ := tied.modify (p := ⟨i,k⟩) ⟨member,place⟩ (f := fun s => s.fold.1)
      (fun _ => rfl) (fun t => t.act.defFold) fun t w => Action.memFold t.act
    exact ⟨tied',forall₂_congr fun w u => imp_congr (same w u).1 (same w u).2⟩
  · rw [modifyStmt,if_neg known]
    exact ⟨tied,Iff.rfl⟩

/-- Whatever reaches an operand of the value at the use, where it has not been read before, reaches it
at the definition too. -/
def Level (a : Analysed) (u : Loc) (v : VarId) : Prop :=
  ∀ s d value, a.stmt? u = some s → a.candidate? u s v = some (d,value) →
    ∀ x ∈ value.vars, x ∉ s.uses → ∀ e, a.graph.Arrives x e u → a.graph.Arrives x e d

theorem Tied.operands (tied : a.Tied) (passed : a.Checked u v d value) {w : VarId} :
    w ∈ value.vars ↔ a.graph.Reads w d := by
  obtain ⟨q,r,x,there,left,act⟩ := tied.homed.assignment passed.assigns
  have uses : r.uses = value.vars := by
    simp [Stmt.uses,act,Action.uses,Action.exprs,Expr.varsAll]
  constructor
  · exact fun read => ⟨q,r,there,left,uses ▸ read⟩
  · rintro ⟨q',r',there',left',read⟩
    obtain ⟨-,rfl⟩ := there'.unique tied.distinct there (left'.trans left.symm)
    exact uses ▸ read

theorem Relinked.fullIff (relinked : a.Relinked u v d value b) (tied : a.Tied) (exact_ : a.Exact)
    (here : a.graph.StmtAt p s) (loc : s.loc = u) (passed : a.Checked u v d value) {w : VarId}
    (read : w ∈ value.vars) (other : w ∉ s.uses) :
    b.Full w u ↔ ∀ e, a.graph.Arrives w e u → a.graph.Arrives w e d := by
  refine forall_congr' fun e => ?_
  rw [tied.toGrounded.arrivesRewrite relinked.edited fun t => t.act.defMapExprs _,
    relinked.defsOf]
  refine imp_congr_right fun _ => ⟨?_,fun comes => ?_⟩
  · rintro (⟨old,-⟩ | ⟨-,-,new⟩)
    · obtain ⟨q,t,there,place,use⟩ := (tied.linked old).1
      obtain ⟨-,rfl⟩ := there.unique tied.distinct here (place.trans loc.symm)
      exact absurd use other
    · obtain ⟨q,t,there,place,-⟩ := (tied.operands passed).mp read
      exact ⟨q,t,there,place,tied.reaches there (place ▸ new)⟩
  · exact .inr ⟨rfl,read,exact_ w d ((tied.operands passed).mp read) e comes⟩

theorem Relinked.exactIff (relinked : a.Relinked u v d value b) (tied : a.Tied) (exact_ : a.Exact)
    (here : a.graph.StmtAt p s) (loc : s.loc = u) (passed : a.Checked u v d value)
    (unread : v ∉ value.vars) (use : v ∈ s.uses) :
    b.Exact ↔ ∀ w ∈ value.vars, w ∉ s.uses → ∀ e, a.graph.Arrives w e u → a.graph.Arrives w e d := by
  have reads := relinked.reads here loc use
  constructor
  · intro all w read other
    exact (relinked.fullIff tied exact_ here loc passed read other).mp
      (all w u ((reads w u).mpr (.inr ⟨rfl,read⟩)))
  · intro level w l use' e comes
    have before : a.graph.Arrives w e l :=
      (tied.toGrounded.arrivesRewrite relinked.edited fun t => t.act.defMapExprs _).mp comes
    rcases (reads w l).mp use' with ⟨old,same⟩ | ⟨rfl,read⟩
    · exact (relinked.defsOf w l e).mpr (.inl ⟨exact_ w l old e before,same⟩)
    · by_cases already : w ∈ s.uses
      · have old := exact_ w l ⟨p,s,here,loc,already⟩ e before
        exact (relinked.defsOf w l e).mpr (.inl ⟨old,fun same => unread ((Prod.mk.inj same).1 ▸ read)⟩)
      · exact (relinked.fullIff tied exact_ here loc passed read already).mpr (level w read already) e comes

theorem Removed.full {l : Loc} (removed : a.Removed l v b) (tied : a.Tied) (here : a.graph.StmtAt p s)
    (loc : s.loc = l) (defines : s.def? = some v) {w : VarId} (other : w ≠ v) (apart : u ≠ l)
    (full : b.Full w u) : a.Full w u := by
  intro e ⟨q,t,there,place,reaches⟩
  have kept : Stmt.strike l t = some t := if_neg (place.symm ▸ apart)
  have stays : a.graph.Stays (Stmt.strike l) w e := by
    intro q' t' there' place' defines'
    refine ⟨t',if_neg fun same => ?_,defines'⟩
    obtain ⟨-,rfl⟩ := there'.unique tied.distinct here (same.trans loc.symm)
    rw [defines] at defines'
    cases defines'
    exact other rfl
  have linked := full e ⟨_,t,removed.edited.stmtAt there kept,place,
    removed.edited.reachesShift tied.wired reaches stays⟩
  rwa [Chains.defsOfUse,Table.getD,removed.useDef,if_neg apart] at linked

theorem Tied.substitute (tied : a.Tied) (here : a.graph.StmtAt p s) (passed : a.Checked s.loc v d value) :
    (a.substitute s.loc v d value).Tied ∧ (a.Exact → ((a.substitute s.loc v d value).Exact ↔
      ∀ w ∈ value.vars, w ∉ s.uses → ∀ e, a.graph.Arrives w e s.loc → a.graph.Arrives w e d)) := by
  have linked : d ∈ a.chains.defsOfUse v s.loc := by
    rw [passed.only]; exact List.mem_singleton_self d
  have unread := passed.unread tied.agree (tied.links v s.loc d linked)
  obtain ⟨q,t,there,place,use⟩ := (tied.linked linked).1
  obtain ⟨-,rfl⟩ := there.unique tied.distinct here place
  have relinked := tied.relinks here passed unread
  have homed : (a.relinked t.loc v d value).Homed := by
    have rewritten := a.thinsModifyStmt t.loc (f := Stmt.replace v value) (fun _ => rfl)
      fun r w defines => (Action.defMapExprs _ r.act).symm.trans defines
    have home : (a.relinked t.loc v d value).chains.home =
        (a.modifyStmt t.loc (Stmt.replace v value)).chains.home := by
      rw [relinked.home,chainsModifyStmt]
    exact (thinsOfChains _ home).homed (rewritten.homed tied.homed)
  have fits := relinked.tied tied here rfl passed homed
  have exactIff := fun exact_ => relinked.exactIff tied exact_ here rfl passed unread use
  rw [substituteRelinked]
  split
  · rename_i left
    obtain ⟨i,r,x,origin,rfl,act⟩ := tied.homed.assignment passed.assigns
    have defines : r.def? = some v := by rw [Stmt.def?,act]; rfl
    have stays := relinked.edited.rewriteAt.mpr ⟨r,origin,if_neg passed.apart⟩
    have unused := List.isEmpty_iff.mp left
    obtain ⟨tied',exact'⟩ := fits.remove stays defines unused
    refine ⟨tied',fun exact_ => ⟨fun all w read other => ?_,fun level => exact' ((exactIff exact_).mpr level)⟩⟩
    have removed := fits.removed stays defines
    have reads : ((a.relinked t.loc v r.loc value).removeStmt r.loc).1.graph.Reads w t.loc := by
      rw [← tied'.read,Table.contains,removed.useDef,if_neg passed.apart.symm,← Table.contains,fits.read]
      exact (relinked.reads here rfl use w t.loc).mpr (.inr ⟨rfl,read⟩)
    refine (relinked.fullIff tied exact_ here rfl passed read other).mp ?_
    exact removed.full fits stays rfl defines (fun same => unread (same ▸ read)) passed.apart.symm
      (all w t.loc reads)
  · exact ⟨fits,exactIff⟩

theorem Tied.tried (tied : a.Tied) (o : PropagateOptions) (u : Loc) (n : Nat) (v : VarId) :
    (propagateVar o u (a,n) v).1.Tied ∧
      (a.Exact → ((propagateVar o u (a,n) v).1.Exact ↔ a.Level u v)) := by
  unfold propagateVar
  dsimp only
  split
  · rename_i none
    exact ⟨tied,fun exact_ => iff_of_true exact_ fun s d value found => by rw [none] at found; contradiction⟩
  · rename_i s found
    split
    · rename_i none
      refine ⟨tied,fun exact_ => iff_of_true exact_ fun r d value found' picked => ?_⟩
      rw [found] at found'
      cases found'
      rw [none] at picked
      contradiction
    · rename_i d value picked
      obtain ⟨p,here,rfl⟩ := tied.toGrounded.stmt.mp found
      obtain ⟨tied',exactIff⟩ := tied.substitute here (checked picked)
      have level : a.Level s.loc v ↔ ∀ w ∈ value.vars, w ∉ s.uses → ∀ e,
          a.graph.Arrives w e s.loc → a.graph.Arrives w e d := by
        constructor
        · exact fun level => level s d value found picked
        · intro level r d' value' found' picked'
          rw [found] at found'
          cases found'
          rw [picked] at picked'
          cases picked'
          exact level
      rw [level]
      dsimp only
      split
      · obtain ⟨tied'',same⟩ := tied'.folded s.loc
        exact ⟨tied'',fun exact_ => same.trans (exactIff exact_)⟩
      · exact ⟨tied',exactIff⟩

end RegCode.Analysed
