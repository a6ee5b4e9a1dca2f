import RegCode.Stmt.Sharing
import RegCode.Proofs.Expr.Substituting

/-! Expressions with parts in common. However often a part is met, a substitution comes to what it comes to on the
whole expression; folding does as long as nothing is in common. -/
namespace RegCode

namespace Expr

variable {v w n : VarId} {e q : Expr}

mutual

theorem substUnread : (x : Expr) → w ∉ x.vars → subst w e x = x
  | .var u, unread => by
    rw [vars,List.mem_singleton] at unread
    rw [subst,if_neg (Ne.symm unread)]
  | .binary _ l r _, unread | .compare l r _ _, unread | .test _ l r, unread | .element l r _, unread => by
    rw [vars,List.mem_append,not_or] at unread
    rw [subst,substUnread l unread.1,substUnread r unread.2]
  | .unary _ x _, unread | .cast _ x _, unread | .testZero _ x, unread | .instanceOf x _, unread
  | .field _ x, unread | .length x, unread | .newArray _ x, unread => by
    rw [vars] at unread
    rw [subst,substUnread x unread]
  | .newObject _ xs _, unread | .filled _ xs, unread | .call _ _ xs, unread => by
    rw [vars] at unread
    rw [subst,substUnreadAll xs unread]
  | .callOn _ _ r xs, unread => by
    rw [vars,List.mem_append,not_or] at unread
    rw [subst,substUnread r unread.1,substUnreadAll xs unread.2]
  | .const _ _, _ | .str _, _ | .classRef _, _ | .caught _, _ | .staticField _, _ => by rw [subst]

theorem substUnreadAll : (xs : List Expr) → w ∉ varsAll xs → substAll w e xs = xs
  | [], _ => by rw [substAll]
  | x :: xs, unread => by
    rw [varsAll,List.mem_append,not_or] at unread
    rw [substAll,substUnread x unread.1,substUnreadAll xs unread.2]

end

mutual

/-- Two substitutions trade places, and the later one goes into what the earlier one puts. -/
theorem substPast (apart : w ≠ v) (fresh : w ∉ e.vars) : (x : Expr) →
    subst w (subst v e q) (subst v e x) = subst v e (subst w q x)
  | .var u => by
    rw [subst,subst]
    by_cases here : u = v
    · rw [if_pos here,if_neg (here ▸ apart.symm),substUnread e fresh,subst,if_pos here]
    · rw [if_neg here,subst]
      split
      · rfl
      · rw [subst,if_neg here]
  | .binary _ l r _ | .compare l r _ _ | .test _ l r | .element l r _ => by
    simp only [subst,substPast apart fresh l,substPast apart fresh r]
  | .unary _ x _ | .cast _ x _ | .testZero _ x | .instanceOf x _ | .field _ x | .length x | .newArray _ x => by
    simp only [subst,substPast apart fresh x]
  | .newObject _ xs _ | .filled _ xs | .call _ _ xs => by simp only [subst,substPastAll apart fresh xs]
  | .callOn _ _ r xs => by simp only [subst,substPast apart fresh r,substPastAll apart fresh xs]
  | .const _ _ | .str _ | .classRef _ | .caught _ | .staticField _ => by simp only [subst]

theorem substPastAll (apart : w ≠ v) (fresh : w ∉ e.vars) : (xs : List Expr) →
    substAll w (subst v e q) (substAll v e xs) = substAll v e (substAll w q xs)
  | [] => by simp only [substAll]
  | x :: xs => by simp only [substAll,substPast apart fresh x,substPastAll apart fresh xs]

end

mutual

theorem substThrough : (x : Expr) → n ∉ x.vars → subst n e (subst v (.var n) x) = subst v e x
  | .var u, fresh => by
    rw [vars,List.mem_singleton] at fresh
    rw [subst,subst]
    split
    · rw [subst,if_pos rfl]
    · rw [subst,if_neg (Ne.symm fresh)]
  | .binary _ l r _, fresh | .compare l r _ _, fresh | .test _ l r, fresh | .element l r _, fresh => by
    rw [vars,List.mem_append,not_or] at fresh
    simp only [subst,substThrough l fresh.1,substThrough r fresh.2]
  | .unary _ x _, fresh | .cast _ x _, fresh | .testZero _ x, fresh | .instanceOf x _, fresh
  | .field _ x, fresh | .length x, fresh | .newArray _ x, fresh => by
    rw [vars] at fresh
    simp only [subst,substThrough x fresh]
  | .newObject _ xs _, fresh | .filled _ xs, fresh | .call _ _ xs, fresh => by
    rw [vars] at fresh
    simp only [subst,substThroughAll xs fresh]
  | .callOn _ _ r xs, fresh => by
    rw [vars,List.mem_append,not_or] at fresh
    simp only [subst,substThrough r fresh.1,substThroughAll xs fresh.2]
  | .const _ _, _ | .str _, _ | .classRef _, _ | .caught _, _ | .staticField _, _ => by simp only [subst]

theorem substThroughAll : (xs : List Expr) → n ∉ varsAll xs →
    substAll n e (substAll v (.var n) xs) = substAll v e xs
  | [], _ => by simp only [substAll]
  | x :: xs, fresh => by
    rw [varsAll,List.mem_append,not_or] at fresh
    simp only [substAll,substThrough x fresh.1,substThroughAll xs fresh.2]

end

theorem memSubstVars {x : Expr} (member : w ∈ (subst v e x).vars) : w ∈ x.vars ∧ w ≠ v ∨ w ∈ e.vars := by
  rw [varsSubst,List.mem_flatMap] at member
  obtain ⟨u,read,member⟩ := member
  split at member
  · exact .inr member
  · rename_i other
    exact .inl (List.mem_singleton.mp member ▸ ⟨read,other⟩)

end Expr

namespace Parts

variable {p : Parts} {v w : VarId} {e x : Expr} {k i : Nat}

/-- What an expression may read besides the variables of its own: parts from the given one on. -/
def Reads (p : Parts) (k : Nat) (x : Expr) : Prop :=
  ∀ w ∈ x.vars, w < p.base ∨ p.base + k ≤ w ∧ w < p.base + p.size

/-- A part is made of later ones only. -/
def Ordered (p : Parts) : Prop := ∀ i (below : i < p.size), p.Reads (i + 1) p.all[i]

/-- Puts the first parts in place. -/
def stage (p : Parts) (k : Nat) (x : Expr) : Expr :=
  (List.range k).foldl (fun x i => Expr.subst (p.base + i) (p.all[i]?.getD default) x) x

theorem stageSucc (p : Parts) (k : Nat) (x : Expr) :
    p.stage (k + 1) x = Expr.subst (p.base + k) (p.all[k]?.getD default) (p.stage k x) := by
  rw [stage,List.range_succ,List.foldl_append]
  rfl

theorem stageReads (ordered : p.Ordered) (reads : p.Reads 0 x) : k ≤ p.size → p.Reads k (p.stage k x) := by
  induction k with
  | zero => exact fun _ => reads
  | succ k ih =>
    intro below w member
    have inside : k < p.all.size := below
    rw [stageSucc,Array.getElem?_eq_getElem inside,Option.getD_some] at member
    rcases Expr.memSubstVars member with ⟨read,other⟩ | read
    · rcases ih (Nat.le_of_succ_le below) w read with low | ⟨high,known⟩
      · exact .inl low
      · exact .inr ⟨Nat.lt_of_le_of_ne high (Ne.symm other),known⟩
    · exact ordered k inside w read

theorem stageClear (low : ∀ w ∈ x.vars, w < p.base) (k : Nat) : p.stage k x = x := by
  induction k with
  | zero => rfl
  | succ k ih =>
    rw [stageSucc,ih]
    exact Expr.substUnread x fun read => Nat.not_lt.mpr (Nat.le_add_right ..) (low _ read)

theorem expandOnceLow (ordered : p.Ordered) (reads : p.Reads 0 x) :
    ∀ w ∈ (p.expandOnce x).vars, w < p.base := by
  intro w member
  rcases stageReads ordered reads (Nat.le_refl _) w member with low | ⟨high,known⟩
  · exact low
  · exact absurd known (Nat.not_lt.mpr high)

/-- As parts are made of later ones, putting them in place once leaves none. -/
theorem expandStage (ordered : p.Ordered) (reads : p.Reads 0 x) : p.expand x = p.stage p.size x := by
  have settles : ∀ ns : List Nat, ns.foldl (fun x _ => p.expandOnce x) (p.stage p.size x) = p.stage p.size x := by
    intro ns
    induction ns with
    | nil => rfl
    | cons n ns ih =>
      have clear : p.expandOnce (p.stage p.size x) = p.stage p.size x :=
        stageClear (expandOnceLow ordered reads) p.size
      rw [List.foldl_cons,clear,ih]
  rw [expand]
  cases size : p.size with
  | zero => rfl
  | succ n =>
    rw [List.range_succ_eq_map,List.foldl_cons,List.foldl_map,← size]
    exact settles _

theorem expandLow (ordered : p.Ordered) (reads : p.Reads 0 x) : ∀ w ∈ (p.expand x).vars, w < p.base := by
  rw [expandStage ordered reads]
  exact expandOnceLow ordered reads

@[simp] theorem baseSubst : (p.subst v e).base = p.base := rfl

@[simp] theorem sizeSubst : (p.subst v e).size = p.size := Array.size_map ..

/-- Substituting in all parts is substituting in what they come to. -/
theorem stageSubst (own : v < p.base) (fresh : ∀ i < k, p.base + i ∉ e.vars) :
    k ≤ p.size → (p.subst v e).stage k (Expr.subst v e x) = Expr.subst v e (p.stage k x) := by
  induction k with
  | zero => exact fun _ => rfl
  | succ k ih =>
    intro below
    have inside : k < p.all.size := below
    rw [stageSucc,stageSucc,ih (fun i less => fresh i (by omega)) (by omega),baseSubst]
    rw [show (p.subst v e).all[k]? = some (Expr.subst v e p.all[k]) by
      rw [subst,Array.getElem?_map,Array.getElem?_eq_getElem inside]
      rfl,Array.getElem?_eq_getElem inside,Option.getD_some,Option.getD_some]
    exact Expr.substPast (Nat.ne_of_gt (Nat.lt_of_lt_of_le own (Nat.le_add_right ..))) (fresh k (Nat.lt_succ_self k)) _

theorem Reads.subst (reads : p.Reads k x) (value : p.Reads k e) : p.Reads k (Expr.subst v e x) := fun w member =>
  (Expr.memSubstVars member).elim (fun ⟨read,_⟩ => reads w read) (value w)

theorem readsLow (low : ∀ w ∈ e.vars, w < p.base) (k : Nat) : p.Reads k e := fun w read => .inl (low w read)

/-- A value with the same places in it, given room for one more part. -/
theorem Reads.push (reads : p.Reads k x) {q : Parts} (base : q.base = p.base) (size : q.size = p.size + 1) :
    q.Reads k x := by
  intro w read
  rw [base,size]
  rcases reads w read with low | ⟨high,known⟩
  · exact .inl low
  · exact .inr ⟨high,Nat.lt_succ_of_lt known⟩

def pushed (p : Parts) (e : Expr) : Parts := { p with all := p.all.push e }

theorem sizePushed : (p.pushed e).size = p.size + 1 := Array.size_push ..

theorem stagePushed : k ≤ p.size → (p.pushed e).stage k x = p.stage k x := by
  induction k with
  | zero => exact fun _ => rfl
  | succ k ih =>
    intro below
    have other : k ≠ p.all.size := Nat.ne_of_lt below
    rw [stageSucc,stageSucc,ih (Nat.le_of_succ_le below)]
    rw [show (p.pushed e).all[k]? = p.all[k]? by rw [pushed,Array.getElem?_push,if_neg other]]
    rfl

theorem stagePushedLast : (p.pushed e).stage (p.size + 1) x = Expr.subst (p.base + p.size) e (p.stage p.size x) := by
  rw [stageSucc,stagePushed (Nat.le_refl _)]
  rw [show (p.pushed e).all[p.size]? = some e by rw [pushed,size,Array.getElem?_push,if_pos rfl]]
  rfl

theorem bindCases (p : Parts) (v : VarId) (e : Expr) : p.bind v e = (p.subst v e,e) ∨
    p.bind v e = ((p.subst v (.var (p.base + p.size))).pushed e,.var (p.base + p.size)) := by
  by_cases leaf : e.isLeaf = true
  · exact .inl (by simp only [bind,share,leaf,if_true])
  · refine .inr ?_
    simp only [bind,share,leaf]
    rfl

theorem baseBind (p : Parts) (v : VarId) (e : Expr) : (p.bind v e).1.base = p.base := by
  rcases bindCases p v e with same | same <;> rw [same] <;> rfl

section
variable (ordered : p.Ordered) (own : v < p.base) (low : ∀ w ∈ e.vars, w < p.base)
include ordered low

theorem orderedSubst : (p.subst v e).Ordered := by
  intro i below
  have inside : i < p.all.size := by rwa [sizeSubst] at below
  have reads : p.Reads (i + 1) (Expr.subst v e p.all[i]) := (ordered i inside).subst (readsLow low _)
  have same : (p.subst v e).all[i] = Expr.subst v e p.all[i] := Array.getElem_map ..
  rw [same]
  exact fun w read => by
    rw [baseSubst,sizeSubst]
    exact reads w read

theorem orderedPushed : ((p.subst v (.var (p.base + p.size))).pushed e).Ordered := by
  intro i below
  rw [sizePushed,sizeSubst] at below
  by_cases last : i = p.size
  · subst last
    have same : ((p.subst v (.var (p.base + p.size))).pushed e).all[p.size] = e :=
      (Array.getElem_push ..).trans (dif_neg (by rw [subst,Array.size_map]; exact Nat.lt_irrefl _))
    rw [same]
    exact fun w read => .inl (low w read)
  · have inside : i < p.all.size := Nat.lt_of_le_of_ne (Nat.le_of_lt_succ below) last
    have same : ((p.subst v (.var (p.base + p.size))).pushed e).all[i] =
        Expr.subst v (.var (p.base + p.size)) p.all[i] := by
      refine (Array.getElem_push ..).trans ((dif_pos ?_).trans (Array.getElem_map ..))
      rw [subst,Array.size_map]
      exact inside
    rw [same]
    intro w read
    rw [sizePushed,sizeSubst]
    rcases Expr.memSubstVars read with ⟨read,-⟩ | new
    · rcases ordered i inside w read with own | ⟨high,known⟩
      · exact .inl own
      · exact .inr ⟨high,Nat.lt_succ_of_lt known⟩
    · cases List.mem_singleton.mp new
      exact .inr ⟨Nat.add_le_add_left inside _,Nat.lt_succ_self _⟩

theorem orderedBind : (p.bind v e).1.Ordered := by
  rcases bindCases p v e with same | same <;> rw [same]
  · exact orderedSubst ordered low
  · exact orderedPushed ordered low

include own

/-- Binding a variable comes to substituting its value, wherever the value is met again. -/
theorem expandBind (reads : p.Reads 0 x) : (p.bind v e).1.Reads 0 (Expr.subst v (p.bind v e).2 x) ∧
    (p.bind v e).1.expand (Expr.subst v (p.bind v e).2 x) = Expr.subst v e (p.expand x) := by
  have whole := expandStage ordered reads
  rcases bindCases p v e with same | same <;> rw [same]
  · have after : (p.subst v e).Reads 0 (Expr.subst v e x) := by
      intro w read
      rw [baseSubst,sizeSubst]
      exact reads.subst (readsLow low 0) w read
    refine ⟨after,?_⟩
    rw [expandStage (orderedSubst ordered low) after,whole,sizeSubst]
    exact stageSubst own (fun i _ read => Nat.not_lt.mpr (Nat.le_add_right ..) (low _ read)) (Nat.le_refl _)
  · have after : ((p.subst v (.var (p.base + p.size))).pushed e).Reads 0
        (Expr.subst v (.var (p.base + p.size)) x) := by
      intro w read
      rw [sizePushed,sizeSubst]
      rcases Expr.memSubstVars read with ⟨read,-⟩ | new
      · exact (reads w read).imp_right fun ⟨high,known⟩ => ⟨high,Nat.lt_succ_of_lt known⟩
      · cases List.mem_singleton.mp new
        exact .inr ⟨Nat.le_add_right ..,Nat.lt_succ_self _⟩
    have last := @stagePushedLast (p.subst v (.var (p.base + p.size))) e (Expr.subst v (.var (p.base + p.size)) x)
    rw [sizeSubst,baseSubst] at last
    refine ⟨after,?_⟩
    rw [expandStage (orderedPushed ordered low) after,whole,sizePushed,sizeSubst,last,
      stageSubst own (fun i less read => ?_) (Nat.le_refl _)]
    · exact Expr.substThrough _ fun read => Nat.not_lt.mpr (Nat.le_add_right ..) (expandOnceLow ordered reads _ read)
    · rw [Expr.vars,List.mem_singleton] at read
      exact absurd (Nat.add_left_cancel read) (Nat.ne_of_lt less)

end

end Parts

namespace SharedExpr

variable {s : SharedExpr} {v : VarId} {e : Expr}

/-- The parts are made of later ones, and the expression reads only them and variables of its own. -/
structure Ordered (s : SharedExpr) : Prop where
  parts : s.parts.Ordered
  body : s.parts.Reads 0 s.body

theorem orderedOfExpr {base : VarId} (low : ∀ w ∈ e.vars, w < base) : (ofExpr base e).Ordered :=
  ⟨fun _ below => absurd below (Nat.not_lt_zero _),fun w read => .inl (low w read)⟩

@[simp] theorem toExprOfExpr (base : VarId) (e : Expr) : (ofExpr base e).toExpr = e := rfl

/-- Substituting in an expression with parts in common is substituting in the whole expression. -/
theorem toExprSubst (ordered : s.Ordered) (own : v < s.parts.base) (low : ∀ w ∈ e.vars, w < s.parts.base) :
    (s.subst v e).Ordered ∧ (s.subst v e).toExpr = Expr.subst v e s.toExpr := by
  rw [subst]
  split
  · rename_i alone
    have alone : s.body = .var v := by
      cases body : s.body <;> simp_all [BEq.beq,Expr.same]
    have reads : s.parts.Reads 0 e := Parts.readsLow low 0
    refine ⟨⟨ordered.parts,reads⟩,?_⟩
    rw [toExpr,toExpr,Parts.expandStage ordered.parts reads,Parts.expandStage ordered.parts ordered.body,alone,
      Parts.stageClear low,Parts.stageClear (fun w read => by cases List.mem_singleton.mp read; exact own),
      Expr.subst,if_pos rfl]
  · obtain ⟨body,comes⟩ := Parts.expandBind ordered.parts own low ordered.body
    exact ⟨⟨Parts.orderedBind ordered.parts low,body⟩,comes⟩

end SharedExpr

namespace Parts

variable {p : Parts}

theorem getAlone (alone : p.all = #[]) (v : VarId) : p.get? v = none := by
  rw [get?]
  split
  · rfl
  · rw [alone]
    rfl

theorem runBind {α β : Type} {m : StateM Parts α} {f : α → StateM Parts β} {a : α} {q : Parts}
    (runs : m.run p = (a,q)) : (m >>= f).run p = (f a).run q := by
  rw [StateT.run_bind,runs]
  rfl

/-- With nothing in common, what is met is a variable of its own. -/
theorem visitAlone (alone : p.all = #[]) (depth : Nat) (v : VarId) :
    (visit depth v).run p = (⟨.var v,false⟩,p) := by
  cases depth with
  | zero => rfl
  | succ depth =>
    rw [visit]
    refine (runBind (m := get) (q := p) (a := p) rfl).trans ?_
    rw [getAlone alone]
    rfl

theorem testZeroAlone (alone : p.all = #[]) (op : Cond) (x : Expr.Folded) :
    (testZero op x).run p = (.same (Expr.foldTestZero op x),p) := by
  unfold testZero
  split
  · rename_i v _
    have nothing : p.comparison? v = none := by rw [comparison?,getAlone alone]
    refine (runBind (m := get) (q := p) (a := p) rfl).trans ?_
    rw [nothing]
    rfl
  · rfl

mutual

theorem foldByAlone (alone : p.all = #[]) (depth : Nat) : (e : Expr) →
    ∃ kept, (foldBy (visit depth) e).run p = (⟨kept,e.fold⟩,p)
  | .var v => ⟨_,by rw [foldBy,runBind (visitAlone alone depth v)]; rfl⟩
  | .binary op l r type => by
    obtain ⟨_,left⟩ := foldByAlone alone depth l
    obtain ⟨_,right⟩ := foldByAlone alone depth r
    exact ⟨_,by rw [foldBy,runBind left,runBind right]; rfl⟩
  | .unary op e type => by
    obtain ⟨_,operand⟩ := foldByAlone alone depth e
    exact ⟨_,by rw [foldBy,runBind operand]; rfl⟩
  | .cast op e type => by
    obtain ⟨_,operand⟩ := foldByAlone alone depth e
    exact ⟨_,by rw [foldBy,runBind operand]; rfl⟩
  | .test op l r => by
    obtain ⟨_,left⟩ := foldByAlone alone depth l
    obtain ⟨_,right⟩ := foldByAlone alone depth r
    exact ⟨_,by rw [foldBy,runBind left,runBind right]; rfl⟩
  | .testZero op l => by
    obtain ⟨_,operand⟩ := foldByAlone alone depth l
    exact ⟨_,by rw [foldBy,runBind operand]; exact testZeroAlone alone op _⟩
  | .call _ _ args => ⟨_,by rw [foldBy,runBind (foldAllByAlone alone depth args)]; rfl⟩
  | .callOn _ _ _ args => ⟨_,by rw [foldBy,runBind (foldAllByAlone alone depth args)]; rfl⟩
  | .const _ _ | .str _ | .classRef _ | .caught _ | .compare _ _ _ _ | .instanceOf _ _ | .staticField _
  | .field _ _ | .element _ _ _ | .length _ | .newObject _ _ _ | .newArray _ _ | .filled _ _ => ⟨_,rfl⟩

theorem foldAllByAlone (alone : p.all = #[]) (depth : Nat) : (es : List Expr) →
    (foldAllBy (visit depth) es).run p = (Expr.foldAll es,p)
  | [] => rfl
  | e :: es => by
    obtain ⟨_,first⟩ := foldByAlone alone depth e
    rw [foldAllBy,runBind first,runBind (foldAllByAlone alone depth es)]
    rfl

end

theorem foldAlone (alone : p.all = #[]) (e : Expr) : p.fold e = (e.fold,p) := by
  obtain ⟨_,folds⟩ := foldByAlone alone (p.all.foldl (fun n e => n + e.nodes) e.nodes) e
  rw [fold]
  simp only [folds]

end Parts

namespace SharedExpr

/-- An expression without parts in common is folded as it is. -/
theorem foldOfExpr (base : VarId) (e : Expr) : (ofExpr base e).fold = (ofExpr base e.fold.expr,e.fold.changed) := by
  rw [fold,ofExpr,Parts.foldAlone rfl]
  rfl

end SharedExpr

namespace Action

variable {f g h k : Expr → Expr} {a : Action}

/-- What keeps a test a test. -/
def KeepsTests (f : Expr → Expr) : Prop := ∀ c : Test, ∃ d : Test, f c.toExpr = d.toExpr

theorem mapExprsId (a : Action) : a.mapExprs id = a := by
  cases a with
  | branch c => rw [mapExprs,id,Test.ofToExpr,Option.getD_some]
  | storeField r o e => simp only [mapExprs,Option.map_id,id]
  | ret e => simp only [mapExprs,Option.map_id,id]
  | _ => rfl

theorem mapExprsCongr (same : ∀ e ∈ a.exprs, f e = g e) : a.mapExprs f = a.mapExprs g := by
  cases a with
  | storeField r o e => cases o <;> simp_all [mapExprs,exprs]
  | ret e => cases e <;> simp_all [mapExprs,exprs]
  | _ => simp_all [mapExprs,exprs]

theorem mapExprsTwice (first : KeepsTests f) (second : KeepsTests g) :
    (a.mapExprs f).mapExprs g = a.mapExprs fun e => g (f e) := by
  cases a with
  | branch c =>
    obtain ⟨d,same⟩ := first c
    obtain ⟨d',same'⟩ := second d
    simp only [mapExprs,same,same',Test.ofToExpr,Option.getD_some]
  | storeField r o e => cases o <;> rfl
  | ret e => cases e <;> rfl
  | _ => rfl

theorem exprsMapExprs (keeps : KeepsTests f) : (a.mapExprs f).exprs = a.exprs.map f := by
  cases a with
  | branch c =>
    obtain ⟨d,same⟩ := keeps c
    simp only [mapExprs,exprs,same,Test.ofToExpr,Option.getD_some,List.map_cons,List.map_nil]
  | storeField r o e => cases o <;> rfl
  | ret e => cases e <;> rfl
  | _ => rfl

theorem keepsTestsSubst (v : VarId) (e : Expr) : KeepsTests (Expr.subst v e) := fun c =>
  ⟨_,Test.substToExpr c v e⟩

theorem keepsTestsFold {α : Type} {f : α → Expr → Expr} (keeps : ∀ i, KeepsTests (f i)) (ns : List α) :
    KeepsTests fun x => ns.foldl (fun x i => f i x) x := by
  induction ns with
  | nil => exact fun c => ⟨c,rfl⟩
  | cons n ns ih =>
    intro c
    obtain ⟨d,same⟩ := keeps n c
    obtain ⟨d',same'⟩ := ih d
    exact ⟨d',(congrArg (fun x => ns.foldl (fun x i => f i x) x) same).trans same'⟩

theorem keepsTestsExpand (p : Parts) : KeepsTests p.expand :=
  keepsTestsFold (fun _ => keepsTestsFold (fun _ => keepsTestsSubst _ _) _) _

end Action

namespace SharedStmt

variable {s : SharedStmt} {v : VarId} {e : Expr}

structure Ordered (s : SharedStmt) : Prop where
  parts : s.parts.Ordered
  body : ∀ e ∈ s.body.act.exprs, s.parts.Reads 0 e

@[simp] theorem toStmtOfStmt (base : VarId) (s : Stmt) : (ofStmt base s).toStmt = s := by
  have same : s.act.mapExprs (ofStmt base s).parts.expand = s.act :=
    (Action.mapExprsCongr (g := id) fun _ _ => rfl).trans (Action.mapExprsId _)
  rw [toStmt]
  exact congrArg (Stmt.mk s.loc) same

/-- Substituting in a statement with parts in common is substituting in the whole statement. -/
theorem toStmtReplace (ordered : s.Ordered) (own : v < s.parts.base) (low : ∀ w ∈ e.vars, w < s.parts.base) :
    (s.replace v e).Ordered ∧ (s.replace v e).toStmt = s.toStmt.replace v e := by
  have binds := fun x member => Parts.expandBind ordered.parts own low (ordered.body x member)
  refine ⟨⟨Parts.orderedBind ordered.parts low,fun x member => ?_⟩,?_⟩
  · have member : x ∈ (s.body.act.replace v (s.parts.bind v e).2).exprs := member
    rw [Action.replace,Action.exprsMapExprs (Action.keepsTestsSubst _ _),List.mem_map] at member
    obtain ⟨y,there,rfl⟩ := member
    exact (binds y there).1
  · refine congrArg (Stmt.mk s.body.loc) ?_
    have whole := Action.keepsTestsExpand
    have one := Action.keepsTestsSubst
    exact calc (s.body.act.mapExprs (Expr.subst v (s.parts.bind v e).2)).mapExprs (s.parts.bind v e).1.expand
      _ = s.body.act.mapExprs fun x => (s.parts.bind v e).1.expand (Expr.subst v (s.parts.bind v e).2 x) :=
        Action.mapExprsTwice (one _ _) (whole _)
      _ = s.body.act.mapExprs fun x => Expr.subst v e (s.parts.expand x) :=
        Action.mapExprsCongr fun x member => (binds x member).2
      _ = (s.body.act.mapExprs s.parts.expand).mapExprs (Expr.subst v e) :=
        (Action.mapExprsTwice (whole _) (one _ _)).symm

/-- A statement without parts in common is folded as it is. -/
theorem foldOfStmt (base : VarId) (s : Stmt) : (ofStmt base s).fold = (ofStmt base s.fold.1,s.fold.2) := by
  have alone : ∀ e, ({ base } : Parts).fold e = (e.fold,{ base }) := Parts.foldAlone rfl
  have act : s.act.foldIn { base } = (s.act.fold,{ base }) := by
    cases s.act with
    | ret e => cases e <;> simp only [Action.foldIn,Action.fold,alone]
    | _ => simp only [Action.foldIn,Action.fold,Test.fold,alone]
  rw [fold,ofStmt,act]
  rfl

end SharedStmt

end RegCode
