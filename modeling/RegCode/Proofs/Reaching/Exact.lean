import RegCode.Proofs.Flow.Path
import RegCode.Proofs.Reaching.Transfer
import Mathlib.Data.Finset.Prod
import Mathlib.Data.Finset.Card

/-! Passes over a graph only ever add definitions, and only definitions of the graph, so that they
come to rest within the bound; then every edge carries its set along. -/
namespace RegCode.Reaching

inductive Part where
  | start | finish | handler
  deriving DecidableEq

namespace State

def part (g : Graph) (s : State) : Part → NodeId → DefSet
  | .start, i => at? s.starts g.vars.size i
  | .finish, i => at? s.ends g.vars.size i
  | .handler, i => at? s.catches g.vars.size i

def Le (g : Graph) (s t : State) : Prop := ∀ q i, s.part g q i ≤ t.part g q i

theorem leTrans {g : Graph} {s t u : State} (st : Le g s t) (tu : Le g t u) : Le g s u :=
  fun q i => DefSet.leTrans (st q i) (tu q i)

structure Shaped (g : Graph) (s : State) : Prop where
  starts : s.starts.size = g.store.size
  ends : s.ends.size = g.store.size
  catches : s.catches.size = g.store.size
  parts : ∀ q i, (s.part g q i).Shaped g.vars.size

theorem setsEq {size : Nat} {as bs : Array DefSet} (sizes : as.size = bs.size)
    (same : ∀ i, at? as size i = at? bs size i) : as = bs := by
  refine Array.ext sizes fun i hi hi' => ?_
  simpa [at?,hi,hi'] using same i

theorem leAntisymm {g : Graph} {s t : State} (left : Shaped g s) (right : Shaped g t)
    (st : Le g s t) (ts : Le g t s) : s = t := by
  have same : ∀ q i, s.part g q i = t.part g q i := fun q i =>
    DefSet.leAntisymm (left.parts q i) (right.parts q i) (st q i) (ts q i)
  have starts := setsEq (left.starts.trans right.starts.symm) (same .start)
  have ends := setsEq (left.ends.trans right.ends.symm) (same .finish)
  have catches := setsEq (left.catches.trans right.catches.symm) (same .handler)
  cases s; cases t
  simp_all

end State

variable {g : Graph} {s : State} {i : NodeId}

def joined (g : Graph) (s : State) (i : NodeId) : DefSet :=
  (g.node i).catchPreds.foldl (fun acc p => acc.union (s.part g .handler p))
    ((g.node i).preds.foldl (fun acc p => acc.union (s.part g .finish p)) (s.part g .start i))

theorem shapedJoined (shaped : s.Shaped g) (i : NodeId) : (joined g s i).Shaped g.vars.size :=
  DefSet.shapedFoldUnion (DefSet.shapedFoldUnion (shaped.parts .start i) (shaped.parts .finish))
    (shaped.parts .handler)

theorem memJoined (shaped : s.Shaped g) {v : VarId} {d : Loc} :
    d ∈ (joined g s i).get v ↔ d ∈ (s.part g .start i).get v ∨
      (∃ p ∈ (g.node i).preds, d ∈ (s.part g .finish p).get v) ∨
      ∃ p ∈ (g.node i).catchPreds, d ∈ (s.part g .handler p).get v := by
  unfold joined
  rw [DefSet.memFoldUnion (DefSet.shapedFoldUnion (shaped.parts .start i) (shaped.parts .finish))
    (shaped.parts .handler),DefSet.memFoldUnion (shaped.parts .start i) (shaped.parts .finish)]
  exact or_assoc

def passed (g : Graph) (s : State) (i : NodeId) : Part → DefSet
  | .start => joined g s i
  | .finish => (g.node i).stmts.foldl DefSet.after (joined g s i)
  | .handler =>
    if (g.node i).catchSuccs.isEmpty then s.part g .handler i
    else (g.node i).stmts.foldl DefSet.during (joined g s i)

theorem atSet {size : Nat} {sets : Array DefSet} {x : DefSet} {i j : NodeId} (inside : i < sets.size) :
    at? (sets.setIfInBounds i x) size j = if j = i then x else at? sets size j := by
  simp only [at?,Array.getElem?_setIfInBounds]
  by_cases h : j = i
  · subst h; simp [inside]
  · simp [h,Ne.symm h]

theorem partPassNode (shaped : s.Shaped g) (inside : i < g.store.size) (q : Part) (j : NodeId) :
    (passNode g g.vars.size s i).part g q j = if j = i then passed g s i q else s.part g q j := by
  have starts : i < s.starts.size := shaped.starts ▸ inside
  have ends : i < s.ends.size := shaped.ends ▸ inside
  have catches : i < s.catches.size := shaped.catches ▸ inside
  cases q with
  | start => exact atSet starts
  | finish => exact atSet ends
  | handler =>
    simp only [passNode,passed,State.part]
    split
    · by_cases h : j = i
      · subst h; simp
      · simp [h]
    · exact atSet catches

theorem shapedPassNode (shaped : s.Shaped g) (inside : i < g.store.size) :
    (passNode g g.vars.size s i).Shaped g := by
  refine ⟨by simp [passNode,shaped.starts],by simp [passNode,shaped.ends],?_,fun q j => ?_⟩
  · simp only [passNode]
    split
    · exact shaped.catches
    · simp [shaped.catches]
  · rw [partPassNode shaped inside]
    split
    · cases q with
      | start => exact shapedJoined shaped i
      | finish => exact DefSet.shapedFoldAfter (shapedJoined shaped i) _
      | handler =>
        simp only [passed]
        split
        · exact shaped.parts _ _
        · exact DefSet.shapedFoldDuring (shapedJoined shaped i) _
    · exact shaped.parts q j

structure Kept (g : Graph) (s : State) : Prop where
  shaped : s.Shaped g
  finish : ∀ i, s.part g .finish i ≤ (g.node i).stmts.foldl DefSet.after (s.part g .start i)
  handler : ∀ i, s.part g .handler i ≤ (g.node i).stmts.foldl DefSet.during (s.part g .start i)

theorem startLeJoined (shaped : s.Shaped g) : s.part g .start i ≤ joined g s i :=
  fun _ _ member => (memJoined shaped).mpr (.inl member)

theorem lePassNode (kept : Kept g s) (inside : i < g.store.size)
    (bounded : Bounded g.vars.size (g.node i).stmts) : s.Le g (passNode g g.vars.size s i) := by
  intro q j
  have shaped := kept.shaped
  have grown := startLeJoined (i := i) shaped
  rw [partPassNode shaped inside]
  split
  · rename_i same
    subst same
    cases q with
    | start => exact grown
    | finish =>
      exact DefSet.leTrans (kept.finish j)
        (DefSet.foldAfterMono (shaped.parts _ _) (shapedJoined shaped j) bounded grown)
    | handler =>
      simp only [passed]
      split
      · exact DefSet.leRefl _
      · exact DefSet.leTrans (kept.handler j)
          (DefSet.foldDuringMono (shaped.parts _ _) (shapedJoined shaped j) bounded grown)
  · exact DefSet.leRefl _

theorem keptPassNode (kept : Kept g s) (inside : i < g.store.size)
    (bounded : Bounded g.vars.size (g.node i).stmts) : Kept g (passNode g g.vars.size s i) := by
  have shaped := kept.shaped
  have le := lePassNode kept inside bounded
  refine ⟨shapedPassNode shaped inside,fun j => ?_,fun j => ?_⟩
  · rw [partPassNode shaped inside .finish,partPassNode shaped inside .start]
    split
    · rename_i same; subst same; exact DefSet.leRefl _
    · exact kept.finish j
  · rw [partPassNode shaped inside .handler,partPassNode shaped inside .start]
    split
    · rename_i same
      subst same
      simp only [passed]
      split
      · exact DefSet.leTrans (kept.handler j) (DefSet.foldDuringMono (shaped.parts _ _)
          (shapedJoined shaped j) bounded (startLeJoined shaped))
      · exact DefSet.leRefl _
    · exact kept.handler j

end RegCode.Reaching

/-! The sets at rest are those of the ways through the graph: a definition is in the set at a point
just when some way leads from it to the point past no other definition of its variable. -/
namespace RegCode

namespace Graph

inductive DefinedAt (g : Graph) (v : VarId) : Loc → Point → Prop where
  | stmt {i k s} (here : g.StmtAt ⟨i,k⟩ s) (defines : s.def? = some v) :
      DefinedAt g v s.loc ⟨i,k + 1⟩
  | param {e} (member : v ∈ g.params) (entry : g.entry = some e) : DefinedAt g v paramLoc ⟨e,0⟩

/-- Some way leads from the definition to the point past no definition of the variable. -/
def Reaches (g : Graph) (v : VarId) (d : Loc) (q : Point) : Prop :=
  ∃ p, g.DefinedAt v d p ∧ g.Path (fun s => s.def? ≠ some v) p q

def defSites (g : Graph) : List Site :=
  (g.rpo.flatMap fun i => (g.node i).stmts.filterMap fun s => s.def?.map (·,s.loc)) ++
    g.params.map (·,paramLoc)

theorem DefinedAt.site {g : Graph} {v : VarId} {d : Loc} {p : Point} (h : g.DefinedAt v d p) :
    (v,d) ∈ g.defSites := by
  cases h with
  | @stmt i k s here defines =>
    refine List.mem_append_left _ (List.mem_flatMap.mpr ⟨i,here.1,List.mem_filterMap.mpr ?_⟩)
    exact ⟨s,List.mem_of_getElem? here.2,by simp [defines]⟩
  | param member entry => exact List.mem_append_right _ (List.mem_map.mpr ⟨v,member,rfl⟩)

theorem DefinedAt.inNode {g : Graph} {v : VarId} {d : Loc} {p : Point} (wired : g.Wired)
    (defined : g.DefinedAt v d p) :
    p.node ∈ g.rpo ∧ p.index ≤ (g.node p.node).stmts.length := by
  cases defined with
  | stmt here defines => exact ⟨here.1,(List.getElem?_eq_some_iff.mp here.2).1⟩
  | param member entry => exact ⟨wired.entry _ entry,Nat.zero_le _⟩

theorem defSitesLength (g : Graph) :
    g.defSites.length ≤ Reaching.stmtCount g + g.params.length := by
  have nodes : ∀ is : List NodeId, (is.flatMap fun i =>
      (g.node i).stmts.filterMap fun s => s.def?.map (·,s.loc)).length ≤
        sumOf (fun i => (g.node i).stmts.length) is := by
    intro is
    induction is with
    | nil => simp [sumOf]
    | cons i is ih =>
      rw [List.flatMap_cons,List.length_append,sumOf]
      exact Nat.add_le_add (List.length_filterMap_le ..) ih
  rw [defSites,List.length_append,List.length_map]
  exact Nat.add_le_add_right (nodes g.rpo) _

end Graph

namespace Reaching

variable {g : Graph} {s : State} {i : NodeId}

def Part.Means (g : Graph) : Part → NodeId → VarId → Loc → Prop
  | .start, i, v, d => g.Reaches v d ⟨i,0⟩
  | .finish, i, v, d => g.Reaches v d ⟨i,(g.node i).stmts.length⟩
  | .handler, i, v, d => ∃ k, g.Reaches v d ⟨i,k⟩

def Sound (g : Graph) (s : State) : Prop :=
  ∀ q i v d, d ∈ (s.part g q i).get v → i ∈ g.rpo ∧ q.Means g i v d

theorem boundedOfWired (wired : g.Wired) (member : i ∈ g.rpo) :
    Bounded g.vars.size (g.node i).stmts := wired.defs i member

theorem prefixSound {start : DefSet} (wired : g.Wired) (member : i ∈ g.rpo)
    (shaped : start.Shaped g.vars.size)
    (known : ∀ v, ∀ d ∈ start.get v, g.Reaches v d ⟨i,0⟩) (k : Nat)
    (short : k ≤ (g.node i).stmts.length) {v : VarId} {d : Loc}
    (h : d ∈ (((g.node i).stmts.take k).foldl DefSet.after start).get v) :
    g.Reaches v d ⟨i,k⟩ := by
  have bounded := boundedOfWired wired member
  induction k generalizing v d with
  | zero => exact known v d h
  | succ k ih =>
    have here : (g.node i).stmts[k]? = some (g.node i).stmts[k] := List.getElem?_eq_getElem short
    have front := DefSet.shapedFoldAfter shaped ((g.node i).stmts.take k)
    have inside := bounded _ (List.getElem_mem short)
    rw [← List.take_concat_get' _ _ short,List.foldl_append,List.foldl_cons,List.foldl_nil,
      DefSet.memAfter (by rwa [front.size])] at h
    rcases h with ⟨defines,rfl⟩ | ⟨other,h⟩
    · exact ⟨_,.stmt ⟨member,here⟩ defines,.stay⟩
    · obtain ⟨p,defined,way⟩ := ih (Nat.le_of_succ_le short) h
      exact ⟨p,defined,.next way here other⟩

theorem soundPassNode (wired : g.Wired) (kept : Kept g s) (sound : Sound g s) (member : i ∈ g.rpo) :
    Sound g (passNode g g.vars.size s i) := by
  have shaped := kept.shaped
  have bounded := boundedOfWired wired member
  have start : ∀ v, ∀ d ∈ (joined g s i).get v, g.Reaches v d ⟨i,0⟩ := by
    intro v d h
    rcases (memJoined shaped).mp h with h | ⟨p,pred,h⟩ | ⟨p,pred,h⟩
    · exact (sound .start i v d h).2
    · obtain ⟨at_,defined,way⟩ := (sound .finish p v d h).2
      exact ⟨at_,defined,.edge way (wired.preds i member p pred).2⟩
    · obtain ⟨k,at_,defined,way⟩ := (sound .handler p v d h).2
      exact ⟨at_,defined,.raise way (wired.catchPreds i member p pred).2⟩
  have joinedShaped := shapedJoined shaped i
  intro q j v d h
  rw [partPassNode shaped (wired.inStore i member)] at h
  split at h
  · rename_i same
    subst same
    refine ⟨member,?_⟩
    cases q with
    | start => exact start v d h
    | finish =>
      refine prefixSound wired member joinedShaped start _ (le_refl _) ?_
      rwa [List.take_length]
    | handler =>
      simp only [passed] at h
      split at h
      · exact (sound .handler j v d h).2
      · obtain ⟨k,short,h⟩ := (DefSet.memFoldDuring joinedShaped bounded).mp h
        exact ⟨k,prefixSound wired member joinedShaped start k short h⟩
  · exact sound q j v d h

structure Fair (g : Graph) (s : State) : Prop where
  kept : Kept g s
  sound : Sound g s

theorem fairFold (wired : g.Wired) (is : List NodeId) (numbered : ∀ i ∈ is, i ∈ g.rpo)
    (fair : Fair g s) :
    Fair g (is.foldl (passNode g g.vars.size) s) ∧
      s.Le g (is.foldl (passNode g g.vars.size) s) := by
  induction is generalizing s with
  | nil => exact ⟨fair,fun _ _ => DefSet.leRefl _⟩
  | cons i is ih =>
    have member := numbered i (List.mem_cons_self ..)
    have inside := wired.inStore i member
    have bounded := boundedOfWired wired member
    have next : Fair g (passNode g g.vars.size s i) :=
      ⟨keptPassNode fair.kept inside bounded,soundPassNode wired fair.kept fair.sound member⟩
    have rest := ih (fun j h => numbered j (List.mem_cons_of_mem _ h)) next
    exact ⟨rest.1,State.leTrans (lePassNode fair.kept inside bounded) rest.2⟩

theorem fixedFold (wired : g.Wired) (is : List NodeId) (numbered : ∀ i ∈ is, i ∈ g.rpo)
    (fair : Fair g s) (rest : is.foldl (passNode g g.vars.size) s = s) :
    ∀ i ∈ is, passNode g g.vars.size s i = s := by
  induction is generalizing s with
  | nil => simp
  | cons i is ih =>
    have member := numbered i (List.mem_cons_self ..)
    have inside := wired.inStore i member
    have bounded := boundedOfWired wired member
    have others : ∀ j ∈ is, j ∈ g.rpo := fun j h => numbered j (List.mem_cons_of_mem _ h)
    have next : Fair g (passNode g g.vars.size s i) :=
      ⟨keptPassNode fair.kept inside bounded,soundPassNode wired fair.kept fair.sound member⟩
    have up := lePassNode fair.kept inside bounded
    have down := (fairFold wired is others next).2
    rw [List.foldl_cons] at rest
    rw [rest] at down
    have same : passNode g g.vars.size s i = s :=
      State.leAntisymm next.kept.shaped fair.kept.shaped down up
    rw [same] at rest
    intro j h
    rcases List.mem_cons.mp h with rfl | h
    · exact same
    · exact ih others fair rest j h

end Reaching

/-! Runs from a definition to a use, and when what the definition read is still the same there. -/

namespace Graph

/-- A run from the entry that carries out the statement at `d`, from the values `ρ` to the values
`σ`, and comes to the one at `u` with the values `τ` without having carried out the former again. -/
inductive Trip {V : Type} (g : Graph) (m : Meaning V) (d u : Loc) (ρ σ τ : Values V) : Prop where
  | mk {e p q s t ν} (entry : g.entry = some e) (arrival : g.Run m (fun _ => True) ⟨e,0⟩ ν p ρ)
      (there : g.StmtAt p s) (left : s.loc = d) (done : s.Carried m ρ σ)
      (onward : g.Run m (·.loc ≠ d) p.next σ q τ) (here : g.StmtAt q t) (right : t.loc = u)

/-- Whatever has been read at `d` has the same value at `u`. -/
def Safe (g : Graph) (d u : Loc) (value : Expr) : Prop :=
  ∀ (V : Type) (m : Meaning V) (ρ σ τ : Values V), g.Trip m d u ρ σ τ → ∀ x ∈ value.vars, τ x = ρ x

/-- A statement that some such run carries out, from the one at `d` on. -/
inductive Met (g : Graph) (d u : Loc) (t : Stmt) : Prop where
  | first {p q s} (there : g.StmtAt p t) (left : t.loc = d) (onward : g.Path (·.loc ≠ d) p.next q)
      (here : g.StmtAt q s) (right : s.loc = u)
  | later {p q r s} (there : g.StmtAt p r) (left : r.loc = d)
      (between : g.Between (·.loc ≠ d) p.next q t) (here : g.StmtAt q s) (right : s.loc = u)

variable {g : Graph} {d u : Loc} {value : Expr}

theorem Connected.path (connected : g.Connected) {p : Point} {s : Stmt} (there : g.StmtAt p s) :
    ∃ e, g.entry = some e ∧ g.Path (fun _ => True) ⟨e,0⟩ p := by
  obtain ⟨e,entry,edges⟩ := connected p.node there.1
  have short := Nat.le_of_lt (List.getElem?_eq_some_iff.mp there.2).1
  exact ⟨e,entry,(pathOfEdges edges).trans (pathInNode p.node short)⟩

theorem Met.trip (connected : g.Connected) {t : Stmt} {x : VarId} (met : g.Met d u t)
    (defines : t.def? = some x) : ∃ ρ σ τ, g.Trip anyMeaning d u ρ σ τ ∧ τ x ≠ ρ x := by
  cases met with
  | @first p q s there left onward here right =>
    obtain ⟨e,entry,way⟩ := connected.path there
    obtain ⟨ρ,arrival,-⟩ := way.runAs true fun _ => true
    obtain ⟨σ,done,-,set⟩ := carriedAs (!ρ x) t ρ
    obtain ⟨τ,run,values⟩ := onward.runAs (!ρ x) σ
    refine ⟨ρ,σ,τ,.mk entry arrival there left done run here right,?_⟩
    have flipped : τ x = !ρ x := (values x).elim (fun same => same.trans (set x defines)) id
    rw [flipped]
    exact Bool.not_ne_self _
  | @later p q r s there left between here right =>
    obtain ⟨e,entry,way⟩ := connected.path there
    obtain ⟨ρ,arrival,-⟩ := way.runAs true fun _ => true
    obtain ⟨σ,done,-⟩ := carriedAs (!ρ x) r ρ
    obtain ⟨τ,run,flipped⟩ := between.run (!ρ x) defines σ
    refine ⟨ρ,σ,τ,.mk entry arrival there left done run here right,?_⟩
    rw [flipped]
    exact Bool.not_ne_self _

theorem safeIff (connected : g.Connected) :
    g.Safe d u value ↔ ∀ x ∈ value.vars, ∀ t, g.Met d u t → t.def? ≠ some x := by
  constructor
  · intro safe x read t met defines
    obtain ⟨ρ,σ,τ,trip,other⟩ := met.trip connected defines
    exact other (safe Bool anyMeaning ρ σ τ trip x read)
  · intro clear V m ρ σ τ trip x read
    obtain ⟨entry,arrival,there,left,done,onward,here,right⟩ := trip
    have first := done.other (clear x read _ (.first there left onward.path here right))
    rcases onward.kept x with same | ⟨t,defines,between⟩
    · exact same.trans first
    · exact absurd defines (clear x read t (.later there left between here right))

theorem Safe.meaning (distinct : g.LocsDistinct) (safe : g.Safe d u value)
    (pure : value.hasEffects = false) (blind : value.readsMemory = false) {p : Point} {s : Stmt}
    {v : VarId} {b : Bool} (there : g.StmtAt p s) (left : s.loc = d)
    (act : s.act = .assign v value b) {V : Type} {m : Meaning V} (near : m.Local)
    {ρ σ τ : Values V} (trip : g.Trip m d u ρ σ τ) : m value τ (σ v) := by
  have kept := safe V m ρ σ τ trip
  obtain ⟨entry,arrival,there',left',done,onward,here,right⟩ := trip
  obtain ⟨-,rfl⟩ := there.unique distinct there' (left.trans left'.symm)
  rw [Stmt.Carried,act] at done
  obtain ⟨w,evaluates,rfl⟩ := done
  rw [Function.update_self]
  exact near value ρ τ w pure blind kept evaluates

theorem DefinedAt.place (distinct : g.LocsDistinct) {v : VarId} {l : Loc} {p q : Point} {s : Stmt}
    (defined : g.DefinedAt v l p) (here : g.StmtAt q s) (same : s.loc = l) (other : l ≠ paramLoc) :
    p = q.next := by
  cases defined with
  | @stmt i k t there defines =>
    obtain ⟨rfl,-⟩ := here.unique distinct there same
    rfl
  | param member entry => exact absurd rfl other

theorem Between.last (wired : g.Wired) {ok : Stmt → Prop} {p q : Point} {t : Stmt} {x : VarId}
    (start : p.node ∈ g.rpo) (between : g.Between ok p q t) (defines : t.def? = some x) :
    ∃ r, g.Between ok p q r ∧ ok r ∧ r.def? = some x ∧ g.Reaches x r.loc q := by
  obtain ⟨i,place,okay,before,after⟩ := between
  rcases after.last x with clear | ⟨j,r,place',okay',defines',before',clear⟩
  · refine ⟨t,⟨i,place,okay,before,after⟩,okay,defines,i.next,?_,clear.mono fun _ h => h.2⟩
    exact .stmt ⟨before.inRpo wired start,place⟩ defines
  · have way := (Path.next before place okay).trans before'
    refine ⟨r,⟨j,place',okay',way,clear.mono fun _ h => h.1⟩,okay',defines',j.next,?_,
      clear.mono fun _ h => h.2⟩
    exact .stmt ⟨way.inRpo wired start,place'⟩ defines'

end Graph

end RegCode
