import RegCode.Proofs.Chains.Maintenance

/-! The webs of a variable are the classes of its definitions that uses with several definitions hold
together. -/
namespace RegCode

namespace Table

variable {κ ν : Type} [BEq κ] [LawfulBEq κ]

theorem keysInsert (t : Table κ ν) (k : κ) (v : ν) :
    (t.insert k v).keys = if k ∈ t.keys then t.keys else t.keys ++ [k] := by
  unfold insert keys
  induction t.entries with
  | nil => rfl
  | cons e rest ih =>
    obtain ⟨j,w⟩ := e
    by_cases same : k = j
    · subst same
      simp [setEntry]
    · have other : (k == j) = false := by simpa using same
      simp only [setEntry,other,List.map_cons,List.mem_cons,same,false_or,Bool.false_eq_true,if_false] at ih ⊢
      rw [ih]
      split <;> rfl

theorem nodupInsert {t : Table κ ν} (nodup : t.keys.Nodup) (k : κ) (v : ν) : (t.insert k v).keys.Nodup := by
  rw [keysInsert]
  split
  · exact nodup
  · rename_i absent
    exact List.nodup_append.mpr ⟨nodup,by simp,fun a member b single => by
      rw [List.mem_singleton.mp single]
      exact fun same => absent (same ▸ member)⟩

theorem containsIff (t : Table κ ν) (k : κ) : t.contains k = true ↔ k ∈ t.keys := by
  unfold contains get? keys
  induction t.entries with
  | nil => simp
  | cons e rest ih =>
    obtain ⟨j,w⟩ := e
    rw [List.lookup_cons,List.map_cons,List.mem_cons,← ih]
    by_cases same : k = j
    · simp [same]
    · have other : (k == j) = false := by simpa using same
      simp [other,same]

theorem getIff {t : Table κ ν} (nodup : t.keys.Nodup) (k : κ) (v : ν) : t.get? k = some v ↔ (k,v) ∈ t.entries := by
  unfold get? keys at *
  generalize t.entries = entries at nodup ⊢
  induction entries with
  | nil => simp
  | cons e rest ih =>
    obtain ⟨j,w⟩ := e
    obtain ⟨apart,once⟩ := List.nodup_cons.mp nodup
    rw [List.lookup_cons,List.mem_cons,← ih once]
    by_cases same : k = j
    · subst same
      rw [beq_self_eq_true]
      constructor
      · intro here
        exact .inl (by rw [Option.some.inj here])
      · rintro (here | later)
        · rw [(Prod.mk.inj here).2]
        · exact absurd (List.mem_map_of_mem ((ih once).mp later)) apart
    · have other : (k == j) = false := by simpa using same
      simp [other,same]

end Table

namespace Chains

variable {c c' : Chains} {v : VarId} {d e u : Loc}

theorem ofGraphInduction {P : Chains → Prop} {g : Graph} (start : ∀ reaching, P { empty with reaching })
    (home : ∀ c table, P c → P { c with home := table })
    (used : ∀ c v u ds, P c → P { c with useDef := c.useDef.insert (v,u) ds })
    (addUse : ∀ c v u d, P c → P (c.addUse v u d)) (addDef : ∀ c v d, P c → P (c.addDef v d))
    (ok : ofGraph g = .ok c) : P c := by
  have uses : ∀ loc cur vs c c', P c → linkUses loc cur vs c = .ok c' → P c' := by
    intro loc cur vs
    induction vs with
    | nil => intro c c' holds ok; cases Except.ok.inj ok; exact holds
    | cons v vs ih =>
      intro c c' holds ok
      simp only [linkUses] at ok
      split at ok
      · exact ih c c' holds ok
      · split at ok
        · contradiction
        · refine ih _ c' ?_ ok
          exact List.foldlRecOn _ _ (motive := P) (used c v loc _ holds) fun c holds d _ => addUse c v loc d holds
  have stmts : ∀ node ss cur c c', P c → linkStmts node ss cur c = .ok c' → P c' := by
    intro node ss
    induction ss with
    | nil => intro cur c c' holds ok; cases Except.ok.inj ok; exact holds
    | cons s ss ih =>
      intro cur c c' holds ok
      simp only [linkStmts,bind,Except.bind] at ok
      split at ok
      · contradiction
      · rename_i linked reads
        have first := uses _ _ _ _ _ (home c _ holds) reads
        refine ih _ _ c' ?_ ok
        split
        · exact addDef _ _ _ first
        · exact first
  have nodes : ∀ is c c', P c → linkNodes g is c = .ok c' → P c' := by
    intro is
    induction is with
    | nil => intro c c' holds ok; cases Except.ok.inj ok; exact holds
    | cons i is ih =>
      intro c c' holds ok
      simp only [linkNodes,bind,Except.bind] at ok
      split at ok
      · contradiction
      · rename_i linked stated
        exact ih _ c' (stmts _ _ _ _ _ holds stated) ok
  unfold ofGraph at ok
  split at ok
  · cases Except.ok.inj ok
    exact start empty.reaching
  · simp only [bind,Except.bind] at ok
    split at ok
    · contradiction
    · rename_i linked all
      cases Except.ok.inj ok
      exact List.foldlRecOn _ _ (motive := P) (nodes _ _ _ (start _) all) fun c holds p _ => addDef c p _ holds

theorem keysOnce {g : Graph} (ok : ofGraph g = .ok c) : c.defUse.keys.Nodup ∧ c.useDef.keys.Nodup := by
  refine ofGraphInduction (P := fun c => c.defUse.keys.Nodup ∧ c.useDef.keys.Nodup) ?_ ?_ ?_ ?_ ?_ ok
  · exact fun _ => ⟨.nil,.nil⟩
  · exact fun _ _ holds => holds
  · exact fun c v u ds holds => ⟨holds.1,Table.nodupInsert holds.2 _ _⟩
  · exact fun c v u d holds => ⟨Table.nodupInsert holds.1 _ _,holds.2⟩
  · intro c v d holds
    unfold Chains.addDef
    split
    · exact holds
    · exact ⟨Table.nodupInsert holds.1 _ _,holds.2⟩

theorem memDefs : d ∈ c.defs v ↔ c.defUse.contains (v,d) = true := by
  rw [defs,List.mem_mergeSort,Table.containsIff]
  simp

theorem defsNodup (once : c.defUse.keys.Nodup) (v : VarId) : (c.defs v).Nodup := by
  rw [defs,(List.mergeSort_perm _ _).nodup_iff,List.nodup_map_iff_inj_on (once.filter _)]
  rintro ⟨w,d⟩ left ⟨x,e⟩ right same
  simp only [List.mem_filter,beq_iff_eq] at left right same
  rw [left.2,right.2,same]

theorem definedVarsSorted (c : Chains) :
    (∀ v, v ∈ c.definedVars ↔ ∃ d, c.defUse.contains (v,d) = true) ∧ c.definedVars.Nodup := by
  obtain ⟨members,sorted⟩ := Ascending.dedupSorts (c.defUse.keys.map Prod.fst)
  refine ⟨fun v => ?_,sorted.imp Nat.ne_of_lt⟩
  rw [definedVars,members,List.mem_map]
  simp [Table.containsIff]

def Joint (c : Chains) (v : VarId) (d e : Loc) : Prop := ∃ u, d ∈ c.defsOfUse v u ∧ e ∈ c.defsOfUse v u

/-- Uses with several definitions lead from one definition to the other. -/
def Connected (c : Chains) (v : VarId) : Loc → Loc → Prop := Relation.ReflTransGen (c.Joint v)

theorem Joint.symm (joint : c.Joint v d e) : c.Joint v e d := joint.imp fun _ => And.symm

theorem Connected.symm (connected : c.Connected v d e) : c.Connected v e d :=
  have : Std.Symm (c.Joint v) := ⟨fun _ _ => Joint.symm⟩
  Relation.ReflTransGen.stdSymm.symm _ _ connected

end Chains

namespace Webs

variable {ws : Webs} {ds locs : List Loc} {R : Loc → Loc → Prop} {d e : Loc} {w : List Loc}

/-- Sorted classes of the given locations whose members belong together. -/
structure Parts (ds : List Loc) (R : Loc → Loc → Prop) (ws : Webs) : Prop where
  covers : ∀ d, d ∈ ds ↔ ∃ w ∈ ws, d ∈ w
  apart : ws.Pairwise List.Disjoint
  linked : ∀ w ∈ ws, ∀ d ∈ w, ∀ e ∈ w, R d e
  sorted : ∀ w ∈ ws, Locs.Canonical w

def Closed (locs : List Loc) (ws : Webs) : Prop := ∀ w ∈ ws, ∀ d ∈ w, d ∈ locs → ∀ e ∈ locs, e ∈ w

theorem memUnions (ws : Webs) (acc : List Loc) : d ∈ ws.foldl Locs.union acc ↔ d ∈ acc ∨ ∃ w ∈ ws, d ∈ w := by
  induction ws generalizing acc with
  | nil => simp
  | cons w ws ih => rw [List.foldl_cons,ih,Locs.memUnion,List.exists_mem_cons_iff,or_assoc]

theorem canonicalUnions (sorted : ∀ w ∈ ws, Locs.Canonical w) {acc : List Loc} (first : Locs.Canonical acc) :
    Locs.Canonical (ws.foldl Locs.union acc) := by
  induction ws generalizing acc with
  | nil => exact first
  | cons w ws ih =>
    exact ih (fun x member => sorted x (List.mem_cons_of_mem _ member))
      (Locs.canonicalUnion (sorted w (List.mem_cons_self ..)))

theorem memJoin : w ∈ ws.join locs ↔
    w = (ws.filter fun w => w.any locs.contains).foldl Locs.union [] ∨ w ∈ ws ∧ ∀ d ∈ w, d ∉ locs := by
  simp [join]

theorem memJoined : d ∈ (ws.filter fun w => w.any locs.contains).foldl Locs.union [] ↔
    ∃ w ∈ ws, d ∈ w ∧ ∃ e ∈ w, e ∈ locs := by
  rw [memUnions]
  simp only [List.not_mem_nil,false_or,List.mem_filter,List.any_eq_true,List.contains_iff_mem]
  exact exists_congr fun w => by tauto

theorem Parts.join (parts : Parts ds R ws) (trans : ∀ d e f, R d e → R e f → R d f)
    (together : ∀ d ∈ locs, ∀ e ∈ locs, R d e) : Parts ds R (ws.join locs) := by
  refine ⟨fun d => ?_,?_,?_,?_⟩
  · rw [parts.covers]
    constructor
    · rintro ⟨w,member,held⟩
      by_cases meets : ∃ e ∈ w, e ∈ locs
      · exact ⟨_,memJoin.mpr (.inl rfl),memJoined.mpr ⟨w,member,held,meets⟩⟩
      · exact ⟨w,memJoin.mpr (.inr ⟨member,fun e inside met => meets ⟨e,inside,met⟩⟩),held⟩
    · rintro ⟨w,member,held⟩
      rcases memJoin.mp member with rfl | ⟨old,-⟩
      · obtain ⟨w,old,held,-⟩ := memJoined.mp held
        exact ⟨w,old,held⟩
      · exact ⟨w,old,held⟩
  · refine List.pairwise_cons.mpr ⟨fun w member d joined held => ?_,parts.apart.filter _⟩
    obtain ⟨x,old,inside,e,there,met⟩ := memJoined.mp joined
    obtain ⟨other,clear⟩ := List.mem_filter.mp member
    have : Std.Symm (List.Disjoint (α := Loc)) := ⟨fun _ _ => List.Disjoint.symm⟩
    have apart : x ≠ w := by
      rintro rfl
      simp only [Bool.not_eq_true',List.any_eq_false,List.contains_iff_mem] at clear
      exact clear e there met
    exact parts.apart.forall old other apart inside held
  · intro w member d first e second
    rcases memJoin.mp member with rfl | ⟨old,-⟩
    · obtain ⟨x,xs,first,d',there,met⟩ := memJoined.mp first
      obtain ⟨y,ys,second,e',there',met'⟩ := memJoined.mp second
      have cross := trans _ _ _ (parts.linked x xs d first d' there) (together d' met e' met')
      exact trans _ _ _ cross (parts.linked y ys e' there' e second)
    · exact parts.linked w old d first e second
  · intro w member
    rcases memJoin.mp member with rfl | ⟨old,-⟩
    · exact canonicalUnions (fun x listed => parts.sorted x (List.mem_filter.mp listed).1) .nil
    · exact parts.sorted w old

theorem closedJoin (parts : Parts ds R ws) (inside : ∀ d ∈ locs, d ∈ ds) : Closed locs (ws.join locs) := by
  intro w member d held met e there
  rcases memJoin.mp member with rfl | ⟨-,clear⟩
  · obtain ⟨x,xs,here⟩ := (parts.covers e).mp (inside e there)
    exact memJoined.mpr ⟨x,xs,here,e,here,there⟩
  · exact absurd met (clear d held)

theorem Closed.join {other : List Loc} (closed : Closed other ws) : Closed other (ws.join locs) := by
  intro w member d held met e there
  rcases memJoin.mp member with rfl | ⟨old,-⟩
  · obtain ⟨x,xs,here,meets⟩ := memJoined.mp held
    exact memJoined.mpr ⟨x,xs,closed x xs d here met e there,meets⟩
  · exact closed w old d held met e there

theorem Parts.joins {uses : List (List Loc)} (parts : Parts ds R ws) (trans : ∀ d e f, R d e → R e f → R d f)
    (inside : ∀ locs ∈ uses, ∀ d ∈ locs, d ∈ ds) (together : ∀ locs ∈ uses, ∀ d ∈ locs, ∀ e ∈ locs, R d e) :
    Parts ds R (uses.foldl Webs.join ws) ∧ (∀ locs ∈ uses, Closed locs (uses.foldl Webs.join ws)) ∧
      ∀ locs, Closed locs ws → Closed locs (uses.foldl Webs.join ws) := by
  induction uses generalizing ws with
  | nil => exact ⟨parts,by simp,fun _ closed => closed⟩
  | cons locs uses ih =>
    have first := inside locs (List.mem_cons_self ..)
    obtain ⟨rest,closed,keeps⟩ := ih (parts.join trans (together locs (List.mem_cons_self ..)))
      (fun l member => inside l (List.mem_cons_of_mem _ member))
      (fun l member => together l (List.mem_cons_of_mem _ member))
    refine ⟨rest,fun l member => ?_,fun l old => keeps l old.join⟩
    rcases List.mem_cons.mp member with rfl | member
    · exact keeps l (closedJoin parts first)
    · exact closed l member

theorem singles (nodup : ds.Nodup) (same : ∀ d, R d d) : Parts ds R (ds.map fun d => [d]) := by
  refine ⟨fun d => by simp,?_,?_,?_⟩
  · rw [List.pairwise_map]
    exact nodup.imp fun other => by simpa using Ne.symm other
  · intro w member d first e second
    obtain ⟨x,-,rfl⟩ := List.mem_map.mp member
    rw [List.mem_singleton.mp first,List.mem_singleton.mp second]
    exact same x
  · intro w member
    obtain ⟨x,-,rfl⟩ := List.mem_map.mp member
    simp [Locs.Canonical]

theorem Parts.perm {ws' : Webs} (parts : Parts ds R ws) (perm : ws'.Perm (ws.filter fun w => !w.isEmpty)) :
    Parts ds R ws' := by
  have member : ∀ {w}, w ∈ ws' → w ∈ ws := fun listed => (List.mem_filter.mp (perm.mem_iff.mp listed)).1
  refine ⟨fun d => ?_,?_,fun w listed => parts.linked w (member listed),fun w listed => parts.sorted w (member listed)⟩
  · rw [parts.covers]
    refine exists_congr fun w => and_congr_left fun held => ?_
    rw [perm.mem_iff,List.mem_filter,and_iff_left]
    simpa using List.ne_nil_of_mem held
  · exact (perm.pairwise_iff fun apart => apart.symm).mpr (parts.apart.filter _)

end Webs

namespace Analysed

open Chains

variable {a : Analysed} {v : VarId} {d e u : Loc} {w : List Loc}

theorem Made.linksReach (made : a.Made) {p : Point} {s : Stmt} (here : a.graph.StmtAt p s) (use : v ∈ s.uses) :
    d ∈ a.chains.defsOfUse v s.loc ↔ a.graph.Reaches v d p :=
  ⟨made.fresh.1.reaches made.wired here,fun reaches =>
    made.tied.2 v s.loc ⟨p,s,here,rfl,use⟩ d ⟨p,s,here,rfl,reaches⟩⟩

theorem Made.webs (made : a.Made) (v : VarId) :
    Webs.Parts (a.chains.defs v) (a.chains.Connected v) (Webs.ofChains a.chains v) ∧
    (∀ w ∈ Webs.ofChains a.chains v, w ≠ []) ∧
    (∀ w ∈ Webs.ofChains a.chains v, ∀ d ∈ w, ∀ e, a.chains.Connected v d e → e ∈ w) ∧
    (Webs.ofChains a.chains v).Pairwise fun x y => x.headD 0 ≤ y.headD 0 := by
  obtain ⟨defsOnce,usesOnce⟩ := keysOnce made.ok
  let uses := (a.chains.useDef.entries.filter fun entry => entry.1.1 == v).map Prod.snd
  have memUses : ∀ locs, locs ∈ uses ↔ ∃ u, a.chains.useDef.get? (v,u) = some locs := by
    intro locs
    simp only [uses,List.mem_map,List.mem_filter,Table.getIff usesOnce]
    constructor
    · rintro ⟨⟨⟨w,u⟩,ds⟩,⟨member,same⟩,rfl⟩
      obtain rfl : w = v := by simpa using same
      exact ⟨u,member⟩
    · rintro ⟨u,member⟩
      exact ⟨((v,u),locs),⟨member,by simp⟩,rfl⟩
  have linked : ∀ {locs}, locs ∈ uses → ∃ u, locs = a.chains.defsOfUse v u := by
    intro locs member
    obtain ⟨u,held⟩ := (memUses locs).mp member
    exact ⟨u,by rw [defsOfUse,Table.getD,held]; rfl⟩
  have start : Webs.Parts (a.chains.defs v) (a.chains.Connected v) ((a.chains.defs v).map fun d => [d]) :=
    Webs.singles (defsNodup defsOnce v) fun _ => .refl
  obtain ⟨parts,closed,-⟩ := start.joins (fun _ _ _ => .trans)
    (fun locs (member : locs ∈ uses) d held => by
      obtain ⟨u,rfl⟩ := linked member
      exact memDefs.mpr ((made.tied.1.defined v d).mpr (made.tied.1.linked held).2))
    (fun locs member d first e second => by
      obtain ⟨u,rfl⟩ := linked member
      exact .single ⟨u,first,second⟩)
  have perm := List.mergeSort_perm ((uses.foldl Webs.join ((a.chains.defs v).map fun d => [d])).filter
    fun w => !w.isEmpty) fun a b => decide (a.headD 0 ≤ b.headD 0)
  refine ⟨parts.perm perm,fun w member => ?_,fun w member d held e connected => ?_,?_⟩
  · simpa using (List.mem_filter.mp (perm.mem_iff.mp member)).2
  · have old := (List.mem_filter.mp (perm.mem_iff.mp member)).1
    induction connected with
    | refl => exact held
    | tail _ joint ih =>
      obtain ⟨u,first,second⟩ := joint
      have listed : a.chains.defsOfUse v u ∈ uses := by
        rw [memUses]
        cases found : a.chains.useDef.get? (v,u) with
        | none =>
          rw [defsOfUse,Table.getD,found] at first
          contradiction
        | some locs => exact ⟨u,by rw [found,defsOfUse,Table.getD,found]; rfl⟩
      exact closed _ listed w old _ ih first _ second
  · have sorts := @List.pairwise_mergeSort _ (fun a b : List Loc => decide (a.headD 0 ≤ b.headD 0))
      (fun a b c first second => by
        simp only [decide_eq_true_eq] at *
        exact Int.le_trans first second) (fun a b => by simpa using Int.le_total _ _)
      ((uses.foldl Webs.join ((a.chains.defs v).map fun d => [d])).filter fun w => !w.isEmpty)
    exact sorts.imp fun le => by simpa using le

end Analysed

end RegCode
