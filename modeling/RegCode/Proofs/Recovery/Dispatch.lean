import RegCode.Proofs.Recovery.Protection
import Mathlib.Data.List.Find

/-! Which handler an exception reaches in structured code, beside the table of its region. Handlers
with one entry share a clause, which stands where the first of them does. -/
namespace RegCode

def CatchEntry.Takes (fits : String → Bool) (h : CatchEntry) : Bool := h.type = "" || fits h.type

abbrev Clause := List String × Int

def Clause.Takes (fits : String → Bool) (c : Clause) : Bool := c.1.any fits

namespace Tree

variable {α β : Type}

mutual

def shields (around : List (RegionId × List Clause)) : Tree α → List (List (RegionId × List Clause))
  | block _ body => shieldsAll around body
  | branch _ _ _ t none => shieldsAll around t
  | branch _ _ _ t (some e) => shieldsAll around t ++ shieldsAll around e
  | loop _ _ _ _ _ body => shieldsAll around body
  | switch _ _ _ arms => shieldsArms around arms
  | guarded _ r body cs z =>
    ((r,clauseHeads cs z) :: around) :: shieldsAll ((r,clauseHeads cs z) :: around) body ++
      shieldsCatches around cs
  | stmts _ _ _ | goto _ _ | breakTo _ _ | continueTo _ _ => []

def shieldsAll (around : List (RegionId × List Clause)) :
    List (Tree α) → List (List (RegionId × List Clause))
  | [] => []
  | t :: ts => t.shields around ++ shieldsAll around ts

def shieldsArms (around : List (RegionId × List Clause)) :
    List (ArmHead × List (Tree α)) → List (List (RegionId × List Clause))
  | [] => []
  | (_,body) :: rest => shieldsAll around body ++ shieldsArms around rest

def shieldsCatches (around : List (RegionId × List Clause)) :
    List (CatchHead × List (Tree α)) → List (List (RegionId × List Clause))
  | [] => []
  | (_,body) :: rest => shieldsAll around body ++ shieldsCatches around rest

end

end Tree

namespace Recovery

open RegCode.Tree

variable {p : Plan}

def clausesOf (p : Plan) (r : RegionId) : List Clause :=
  (ownGroups p r).map fun a => (a.types,(a.entry : Int))

def Lined (p : Plan) (x : Option RegionId) (around : List (RegionId × List Clause)) : Prop :=
  around = (p.graph.regionsAround x).map fun r => (r,clausesOf p r)

variable {α : Type}

mutual

theorem linedShields (nested : p.graph.Nested) {x : Option RegionId}
    {around : List (RegionId × List Clause)} (lined : Lined p x around) :
    ∀ t : Tree α, Stands p x t → ∀ y ∈ t.shields around, ∃ q < p.graph.regions.size, Lined p (some q) y
  | .block _ body, stands => by
    intro y member
    exact linedShieldsAll nested lined body (fun z inside => stands z (List.mem_cons_of_mem _ inside))
      y member
  | .branch _ _ _ t none, stands => by
    intro y member
    exact linedShieldsAll nested lined t (fun z inside => stands z (List.mem_cons_of_mem _ inside))
      y member
  | .branch _ _ _ t (some e), stands => by
    intro y member
    rcases List.mem_append.mp member with member | member
    · exact linedShieldsAll nested lined t (fun z inside =>
        stands z (List.mem_cons_of_mem _ (List.mem_append_left _ inside))) y member
    · exact linedShieldsAll nested lined e (fun z inside =>
        stands z (List.mem_cons_of_mem _ (List.mem_append_right _ inside))) y member
  | .loop _ _ _ _ _ body, stands => by
    intro y member
    exact linedShieldsAll nested lined body (fun z inside => stands z (List.mem_cons_of_mem _ inside))
      y member
  | .switch _ _ _ arms, stands => by
    intro y member
    exact linedShieldsArms nested lined arms (fun z inside =>
      stands z (List.mem_cons_of_mem _ inside)) y member
  | .guarded _ r body cs z, stands => by
    obtain ⟨inside,parent,heads⟩ := stands _ List.mem_cons_self
    have here : Lined p (some r) ((r,clauseHeads cs z) :: around) := by
      rw [Lined,Graph.aroundCons nested inside,List.map_cons,parent,← show around = _ from lined,heads]
      rfl
    intro y member
    rcases List.mem_cons.mp member with rfl | member
    · exact ⟨r,inside,here⟩
    · rcases List.mem_append.mp member with member | member
      · exact linedShieldsAll nested here body (fun z inside =>
          stands z (List.mem_cons_of_mem _ (List.mem_append_left _ inside))) y member
      · exact linedShieldsCatches nested lined cs (fun z inside =>
          stands z (List.mem_cons_of_mem _ (List.mem_append_right _ inside))) y member
  | .stmts _ _ _, _ => nofun
  | .goto _ _, _ => nofun
  | .breakTo _ _, _ => nofun
  | .continueTo _ _, _ => nofun

theorem linedShieldsAll (nested : p.graph.Nested) {x : Option RegionId}
    {around : List (RegionId × List Clause)} (lined : Lined p x around) :
    ∀ ts : List (Tree α), (∀ y ∈ withinAll x ts, Placed p y.1 y.2) →
      ∀ y ∈ shieldsAll around ts, ∃ q < p.graph.regions.size, Lined p (some q) y
  | [], _ => nofun
  | t :: ts, stands => by
    intro y member
    rcases List.mem_append.mp member with member | member
    · exact linedShields nested lined t (fun z inside => stands z (List.mem_append_left _ inside))
        y member
    · exact linedShieldsAll nested lined ts (fun z inside =>
        stands z (List.mem_append_right _ inside)) y member

theorem linedShieldsArms (nested : p.graph.Nested) {x : Option RegionId}
    {around : List (RegionId × List Clause)} (lined : Lined p x around) :
    ∀ arms : List (ArmHead × List (Tree α)), (∀ y ∈ withinArms x arms, Placed p y.1 y.2) →
      ∀ y ∈ shieldsArms around arms, ∃ q < p.graph.regions.size, Lined p (some q) y
  | [], _ => nofun
  | (_,body) :: rest, stands => by
    intro y member
    rcases List.mem_append.mp member with member | member
    · exact linedShieldsAll nested lined body (fun z inside =>
        stands z (List.mem_append_left _ inside)) y member
    · exact linedShieldsArms nested lined rest (fun z inside =>
        stands z (List.mem_append_right _ inside)) y member

theorem linedShieldsCatches (nested : p.graph.Nested) {x : Option RegionId}
    {around : List (RegionId × List Clause)} (lined : Lined p x around) :
    ∀ cs : List (CatchHead × List (Tree α)), (∀ y ∈ withinCatches x cs, Placed p y.1 y.2) →
      ∀ y ∈ shieldsCatches around cs, ∃ q < p.graph.regions.size, Lined p (some q) y
  | [], _ => nofun
  | (_,body) :: rest, stands => by
    intro y member
    rcases List.mem_append.mp member with member | member
    · exact linedShieldsAll nested lined body (fun z inside =>
        stands z (List.mem_append_left _ inside)) y member
    · exact linedShieldsCatches nested lined rest (fun z inside =>
        stands z (List.mem_append_right _ inside)) y member

end

variable {fits : String → Bool}

def Group.Takes (fits : String → Bool) (a : Group) : Bool := a.catchAll || a.types.any fits

def meets (fits : String → Bool) (hs : List CatchEntry) (e : NodeId) : Bool :=
  hs.any fun l => l.entry == e && l.Takes fits

structure Grouped (fits : String → Bool) (hs : List CatchEntry) (groups : List Group) : Prop where
  distinct : (groups.map (·.entry)).Nodup
  order : ∀ q : NodeId → Bool, (groups.map (·.entry)).find? q = (hs.map (·.entry)).find? q
  takes : ∀ a ∈ groups, a.Takes fits = meets fits hs a.entry

theorem addHandlerCases (fits : String → Bool) (h : CatchEntry) (groups : List Group) :
    (h.entry ∉ groups.map (·.entry) ∧
      ∃ a : Group, addHandler h groups = groups ++ [a] ∧ a.entry = h.entry ∧ a.Takes fits = h.Takes fits) ∨
    ∃ (front : List Group) (a b : Group) (back : List Group), groups = front ++ a :: back ∧ addHandler h groups = front ++ b :: back ∧
      a.entry = h.entry ∧ b.entry = h.entry ∧ b.Takes fits = (a.Takes fits || h.Takes fits) := by
  induction groups with
  | nil =>
    refine .inl ⟨List.not_mem_nil,_,rfl,rfl,?_⟩
    by_cases all : h.type = "" <;> simp [Group.Takes,CatchEntry.Takes,all]
  | cons a rest ih =>
    by_cases same : a.entry = h.entry
    · refine .inr ⟨[],a,_,rest,rfl,by rw [addHandler,if_pos same,List.nil_append],same,?_,?_⟩
      · split <;> exact same
      · by_cases all : h.type = ""
        · simp [Group.Takes,CatchEntry.Takes,all]
        · simp [Group.Takes,CatchEntry.Takes,all,Bool.or_assoc]
    · have more : addHandler h (a :: rest) = a :: addHandler h rest := by rw [addHandler,if_neg same]
      rcases ih with ⟨none,b,added,entry,takes⟩ | ⟨front,b,c,back,rfl,added,entries⟩
      · refine .inl ⟨?_,b,by rw [more,added,List.cons_append],entry,takes⟩
        rw [List.map_cons]
        exact fun member => (List.mem_cons.mp member).elim (Ne.symm same) none
      · exact .inr ⟨a :: front,b,c,back,rfl,by rw [more,added,List.cons_append],entries⟩

theorem Grouped.add {hs : List CatchEntry} {groups : List Group} (grouped : Grouped fits hs groups)
    (h : CatchEntry) : Grouped fits (hs ++ [h]) (addHandler h groups) := by
  rcases addHandlerCases fits h groups with
    ⟨none,a,added,entry,takes⟩ | ⟨front,a,b,back,rfl,added,old,new,takes⟩
  · have first : ∀ l ∈ hs, l.entry ≠ h.entry := by
      intro l member same
      have found := grouped.order (· == h.entry)
      rw [List.find?_eq_none.mpr (by simpa using none)] at found
      have := List.find?_eq_none.mp found.symm h.entry (List.mem_map.mpr ⟨l,member,same⟩)
      simp at this
    rw [added]
    refine ⟨?_,fun q => ?_,fun b member => ?_⟩
    · rw [List.map_append,List.map_singleton,entry]
      exact List.nodup_append.mpr ⟨grouped.distinct,List.nodup_singleton _,fun x member y here same =>
        none (List.mem_singleton.mp here ▸ same ▸ member)⟩
    · rw [List.map_append,List.map_append,List.find?_append,List.find?_append,grouped.order q,
        List.map_singleton,List.map_singleton,entry]
    · rw [meets,List.any_append,List.any_cons,List.any_nil,Bool.or_false,← meets]
      rcases List.mem_append.mp member with member | member
      · have other : h.entry ≠ b.entry := fun same => none (same ▸ List.mem_map_of_mem member)
        rw [grouped.takes b member,beq_false_of_ne other,Bool.false_and,Bool.or_false]
      · obtain rfl := List.mem_singleton.mp member
        have alone : meets fits hs b.entry = false :=
          List.any_eq_false.mpr fun l member => by simp [entry,first l member]
        rw [alone,entry,takes,beq_self_eq_true,Bool.true_and,Bool.false_or]
  · have entries : (front ++ b :: back).map (·.entry) = (front ++ a :: back).map (·.entry) := by
      simp [old,new]
    have distinct := grouped.distinct
    rw [List.map_append,List.map_cons] at distinct
    obtain ⟨-,tail,apart⟩ := List.nodup_append.mp distinct
    rw [added]
    refine ⟨entries ▸ grouped.distinct,fun q => ?_,fun c member => ?_⟩
    · rw [entries,grouped.order q,List.map_append,List.find?_append,List.map_singleton]
      cases found : (hs.map (·.entry)).find? q with
      | some e => rfl
      | none =>
        have missing := found
        rw [← grouped.order q] at missing
        have refuses := List.find?_eq_none.mp missing h.entry (by simp [old])
        simp [refuses]
    · rw [meets,List.any_append,List.any_cons,List.any_nil,Bool.or_false,← meets]
      have kept : c ∈ front ∨ c ∈ back → c.entry ≠ h.entry ∧ c ∈ front ++ a :: back := by
        rintro (here | here)
        · refine ⟨fun same => ?_,List.mem_append_left _ here⟩
          exact apart _ (List.mem_map_of_mem here) _ List.mem_cons_self (same.trans old.symm)
        · refine ⟨fun same => ?_,List.mem_append_right _ (List.mem_cons_of_mem _ here)⟩
          exact (List.nodup_cons.mp tail).1 (old.trans same.symm ▸ List.mem_map_of_mem here)
      rcases List.mem_append.mp member with member | member
      · obtain ⟨other,before⟩ := kept (.inl member)
        rw [grouped.takes c before,beq_false_of_ne (Ne.symm other),Bool.false_and,Bool.or_false]
      · rcases List.mem_cons.mp member with rfl | member
        · rw [takes,grouped.takes a (by simp),old,new,beq_self_eq_true,Bool.true_and]
        · obtain ⟨other,before⟩ := kept (.inr member)
          rw [grouped.takes c before,beq_false_of_ne (Ne.symm other),Bool.false_and,Bool.or_false]

theorem groupedHandlers (fits : String → Bool) (hs : List CatchEntry) :
    Grouped fits hs (hs.foldl (fun as h => addHandler h as) []) := by
  induction hs using List.reverseRecOn with
  | nil => exact ⟨List.nodup_nil,fun _ => rfl,nofun⟩
  | append_singleton hs h ih =>
    rw [List.foldl_append]
    exact ih.add h

def landing (fits : String → Bool) (clauses : List Clause) : Option Int :=
  (clauses.find? (Clause.Takes fits)).map (·.2)

def Group.clause (a : Group) : Clause := (if a.catchAll then [anyThrown] else a.types,a.entry)

theorem clausesTable (order : p.policy.handlers = .table) (r : RegionId) :
    clausesOf p r = ((ownHandlers p.graph r).foldl (fun as h => addHandler h as) []).map Group.clause := by
  rw [clausesOf,ownGroups,order]
  unfold groupHandlers
  rw [List.map_map]
  refine List.map_congr_left fun a _ => ?_
  rw [Function.comp_apply,Group.clause]
  split <;> rfl

theorem landingOwn (order : p.policy.handlers = .table) (throwable : fits anyThrown = true)
    (r : RegionId) : landing fits (clausesOf p r) =
      ((ownHandlers p.graph r).find? fun h => meets fits (ownHandlers p.graph r) h.entry).map
        fun h => (h.entry : Int) := by
  have grouped := groupedHandlers fits (ownHandlers p.graph r)
  rw [landing,clausesTable order]
  revert grouped
  generalize (ownHandlers p.graph r).foldl (fun as h => addHandler h as) [] = groups
  generalize ownHandlers p.graph r = hs
  intro grouped
  have same : ∀ a ∈ groups, Clause.Takes fits a.clause = meets fits hs a.entry := by
    intro a member
    rw [← grouped.takes a member,Clause.Takes,Group.Takes,Group.clause]
    cases all : a.catchAll <;> simp [throwable]
  have swap : groups.find? (Clause.Takes fits ∘ Group.clause) =
      groups.find? (meets fits hs ∘ fun a => a.entry) := List.find?_congr same
  have first := grouped.order (meets fits hs)
  rw [List.find?_map,List.find?_map] at first
  have casts := congrArg (Option.map fun e : NodeId => (e : Int)) first
  rw [Option.map_map,Option.map_map] at casts
  rw [List.find?_map,Option.map_map,swap]
  exact casts

/-- A handler stands ahead of the first one that matches, with the entry of a later one that matches
too. -/
def Overtakes (fits : String → Bool) (hs : List CatchEntry) : Prop :=
  ∃ front i mid h back, hs = front ++ i :: (mid ++ h :: back) ∧
    (∀ k ∈ front ++ i :: mid, k.Takes fits = false) ∧ h.Takes fits = true ∧
    (∀ k ∈ front ++ [i], k.entry ≠ h.entry) ∧ ∃ l ∈ back, l.entry = i.entry ∧ l.Takes fits = true

variable {hs : List CatchEntry} {h : CatchEntry}

theorem meetsSelf (member : h ∈ hs) (takes : h.Takes fits = true) : meets fits hs h.entry = true :=
  List.any_eq_true.mpr ⟨h,member,by simp [takes]⟩

theorem meetsNone : (hs.find? fun h => meets fits hs h.entry) = none ↔ hs.find? (CatchEntry.Takes fits) = none := by
  rw [List.find?_eq_none,List.find?_eq_none]
  constructor
  · exact fun none h member takes => none h member (meetsSelf member takes)
  · intro none h _ matched
    obtain ⟨l,member,both⟩ := List.any_eq_true.mp matched
    exact none l member (Bool.and_eq_true_iff.mp both).2

theorem overtakesIff (found : hs.find? (CatchEntry.Takes fits) = some h) :
    Overtakes fits hs ↔ ∃ i, (hs.find? fun h => meets fits hs h.entry) = some i ∧ i.entry ≠ h.entry := by
  constructor
  · rintro ⟨front,i,mid,k,back,rfl,refuse,takes,apart,l,later,same,matched⟩
    have first : List.find? (CatchEntry.Takes fits) (front ++ i :: (mid ++ k :: back)) = some k := by
      refine List.find?_eq_some_iff_append.mpr ⟨takes,front ++ i :: mid,back,by simp,fun j member => ?_⟩
      rw [refuse j member]
      rfl
    obtain rfl : k = h := Option.some.inj (first.symm.trans found)
    have some : ((front ++ [i]).find? fun j => meets fits (front ++ i :: (mid ++ k :: back)) j.entry).isSome := by
      refine List.find?_isSome.mpr ⟨i,by simp,List.any_eq_true.mpr ⟨l,by simp [later],?_⟩⟩
      simp [same,matched]
    obtain ⟨j,here⟩ := Option.isSome_iff_exists.mp some
    refine ⟨j,?_,apart j (List.mem_of_find?_eq_some here)⟩
    rw [List.append_cons front i,List.find?_append,← List.append_cons front i,here]
    rfl
  · rintro ⟨i,here,apart⟩
    obtain ⟨matched,front,rest,parts,before⟩ := List.find?_eq_some_iff_append.mp here
    obtain ⟨takes,ahead,back,split,refuse⟩ := List.find?_eq_some_iff_append.mp found
    have member : h ∈ hs := List.mem_of_find?_eq_some found
    have others : ∀ k ∈ front, k.entry ≠ h.entry := by
      intro k inside same
      have met : meets fits hs k.entry = true := List.any_eq_true.mpr ⟨h,member,by simp [same,takes]⟩
      simpa [met] using before k inside
    obtain ⟨mid,rfl,rfl⟩ : ∃ mid, ahead = front ++ i :: mid ∧ rest = mid ++ h :: back := by
      rcases List.append_eq_append_iff.mp (split.symm.trans parts) with ⟨as,rfl,later⟩ | ⟨as,rfl,later⟩
      · cases as with
        | nil =>
          obtain ⟨rfl,-⟩ := List.cons.inj later
          exact absurd rfl apart
        | cons a as =>
          obtain ⟨rfl,-⟩ := List.cons.inj later
          exact absurd rfl (others h (by simp))
      · cases as with
        | nil =>
          obtain ⟨rfl,-⟩ := List.cons.inj later
          exact absurd rfl apart
        | cons a as =>
          obtain ⟨rfl,rfl⟩ := List.cons.inj later
          exact ⟨as,rfl,rfl⟩
    refine ⟨front,i,mid,h,back,parts,fun k inside => by simpa using refuse k inside,takes,?_,?_⟩
    · intro k inside
      rcases List.mem_append.mp inside with inside | inside
      · exact others k inside
      · exact List.mem_singleton.mp inside ▸ apart
    · obtain ⟨l,inside,both⟩ := List.any_eq_true.mp matched
      obtain ⟨same,takes'⟩ := Bool.and_eq_true_iff.mp both
      refine ⟨l,?_,beq_iff_eq.mp same,takes'⟩
      rw [split] at inside
      rcases List.mem_append.mp inside with inside | inside
      · simpa [takes'] using refuse l inside
      · rcases List.mem_cons.mp inside with rfl | inside
        · exact absurd (beq_iff_eq.mp same).symm apart
        · exact inside

theorem searchesAgree {β γ : Type} {first second : β → Option γ} (ks : List β)
    (stop : ∀ k, first k = none ↔ second k = none) :
    (ks.findSome? first = none ↔ ks.findSome? second = none) ∧
      (ks.findSome? first = ks.findSome? second ↔
        ∀ k, (ks.find? fun k => (second k).isSome) = some k → first k = second k) := by
  induction ks with
  | nil => exact ⟨.rfl,fun _ => nofun,fun _ => rfl⟩
  | cons k ks ih =>
    rw [List.findSome?_cons,List.findSome?_cons,List.find?_cons]
    cases there : second k with
    | none =>
      rw [(stop k).mpr there]
      exact ih
    | some b =>
      obtain ⟨a,here⟩ := Option.ne_none_iff_exists'.mp fun none => nomatch there.symm.trans ((stop k).mp none)
      rw [here]
      refine ⟨⟨nofun,nofun⟩,fun same j found => ?_,fun all => ?_⟩
      · obtain rfl := Option.some.inj found
        exact here.trans (same.trans there.symm)
      · exact here.symm.trans ((all k rfl).trans there)

def tableEntry (g : Graph) (fits : String → Bool) (x : RegionId) : Option Int :=
  ((g.handlersOf x).find? (CatchEntry.Takes fits)).map fun h => (h.entry : Int)

def takingRegion (g : Graph) (fits : String → Bool) (x : RegionId) : Option RegionId :=
  (g.regionsAround (some x)).find? fun k => (ownHandlers g k).any (CatchEntry.Takes fits)

def ownEntry (g : Graph) (fits : String → Bool) (k : RegionId) : Option Int :=
  ((ownHandlers g k).find? (CatchEntry.Takes fits)).map fun h => (h.entry : Int)

section
variable (order : p.policy.handlers = .table) (throwable : fits anyThrown = true)
include order throwable

theorem landingStops (k : RegionId) :
    landing fits (clausesOf p k) = none ↔ ownEntry p.graph fits k = none := by
  rw [landingOwn order throwable,ownEntry,Option.map_eq_none_iff,Option.map_eq_none_iff,meetsNone]

theorem landingExact {k : RegionId} (taken : (ownEntry p.graph fits k).isSome) :
    landing fits (clausesOf p k) = ownEntry p.graph fits k ↔
      ¬Overtakes fits (ownHandlers p.graph k) := by
  obtain ⟨h,found⟩ := Option.isSome_iff_exists.mp (Option.isSome_map.symm.trans taken)
  obtain ⟨i,here⟩ := Option.ne_none_iff_exists'.mp fun none =>
    nomatch found.symm.trans (meetsNone.mp none)
  have results : landing fits (clausesOf p k) = ownEntry p.graph fits k ↔ i.entry = h.entry := by
    rw [landingOwn order throwable,ownEntry,here,found,Option.map_some,Option.map_some,
      Option.some_inj,Int.ofNat_inj]
  rw [results,overtakesIff found,here]
  constructor
  · rintro same ⟨j,found,apart⟩
    exact apart (Option.some.inj found ▸ same)
  · exact fun never => not_not.mp fun apart => never ⟨i,rfl,apart⟩

theorem landingAround (shaped : p.graph.Shaped) {x : RegionId} (inside : x < p.graph.regions.size) :
    (landing fits ((p.graph.regionsAround (some x)).flatMap (clausesOf p)) = none ↔
        tableEntry p.graph fits x = none) ∧
      (landing fits ((p.graph.regionsAround (some x)).flatMap (clausesOf p)) =
        tableEntry p.graph fits x ↔
        ∀ k, takingRegion p.graph fits x = some k → ¬Overtakes fits (ownHandlers p.graph k)) := by
  have clauses : landing fits ((p.graph.regionsAround (some x)).flatMap (clausesOf p)) =
      (p.graph.regionsAround (some x)).findSome? fun k => landing fits (clausesOf p k) := by
    rw [landing,List.find?_flatMap,List.map_findSome?]
    rfl
  have table : tableEntry p.graph fits x =
      (p.graph.regionsAround (some x)).findSome? (ownEntry p.graph fits) := by
    rw [tableEntry,Graph.handlersAround shaped.nested inside,List.find?_flatMap,List.map_findSome?]
    rfl
  have taking : takingRegion p.graph fits x =
      (p.graph.regionsAround (some x)).find? fun k => (ownEntry p.graph fits k).isSome := by
    refine List.find?_congr fun k _ => ?_
    rw [ownEntry,Option.isSome_map,List.isSome_find?]
  obtain ⟨stops,same⟩ := searchesAgree (p.graph.regionsAround (some x))
    (landingStops order throwable)
  rw [clauses,table,taking]
  refine ⟨stops,same.trans (forall_congr' fun k => imp_congr_right fun found => ?_)⟩
  have taken := List.find?_some found
  exact landingExact order throwable taken

end

end Recovery

namespace Graph

open RegCode.Tree Recovery

/-- What is thrown in protected code is taken by some clause just when the table of the region takes
it. It reaches the handler of the table unless, in the innermost region that takes it, a handler
before the first match shares its entry with one after. -/
theorem recoverDispatches {m : Method} {g : Graph} (made : ofMethod m = .ok g) (d : Dominators)
    (policy : LoopPolicy) : ∃ r, g.splitTests.simplify.recover d ⟨policy,.table⟩ = .ok r ∧
      ∀ around ∈ r.root.shields [], ∃ x, around.head?.map Prod.fst = some x ∧
        around.map Prod.fst = g.splitTests.simplify.regionsAround (some x) ∧
        ∀ fits, fits anyThrown = true →
          (landing fits (around.flatMap Prod.snd) = none ↔
            tableEntry g.splitTests.simplify fits x = none) ∧
          (landing fits (around.flatMap Prod.snd) = tableEntry g.splitTests.simplify fits x ↔
            ∀ k, takingRegion g.splitTests.simplify fits x = some k →
              ¬Overtakes fits (ownHandlers g.splitTests.simplify k)) := by
  obtain ⟨r,code,places⟩ := recoverPlaces made d ⟨policy,.table⟩
  have shaped := shapedOfMethod made
  refine ⟨r,code,fun around member => ?_⟩
  obtain ⟨x,inside,lined⟩ := linedShields shaped.nested (congrArg (List.map _) aroundNone).symm r.root
    places around member
  refine ⟨x,?_,?_,fun fits throwable => ?_⟩
  · rw [lined,aroundCons (g := (Plan.ofGraph g.splitTests.simplify d ⟨policy,.table⟩).graph)
      shaped.nested inside]
    rfl
  · rw [lined,List.map_map]
    exact List.map_id _
  · have clauses : around.flatMap Prod.snd = (g.splitTests.simplify.regionsAround (some x)).flatMap
        (clausesOf (Plan.ofGraph g.splitTests.simplify d ⟨policy,.table⟩)) := by
      rw [lined,List.flatMap_map]
      rfl
    rw [clauses]
    exact landingAround rfl throwable shaped inside

end Graph

def Method.merged : Method := .short [.callOf 0 "g",.leave 3,.leave 4,.receive 5,.raise 6]
  [⟨0,3,[⟨"Ljava/lang/ArithmeticException;",4⟩,⟨"Ljava/io/IOException;",5⟩,
    ⟨"Ljava/lang/Exception;",4⟩]⟩]

def fitsInputError (type : String) : Bool :=
  type = "Ljava/io/IOException;" || type = "Ljava/lang/Exception;" || type = Recovery.anyThrown

namespace Graph

open RegCode.Tree Recovery

set_option maxRecDepth 100000 in
theorem mergedStrays : (Method.merged.recovered? {}).any (fun x => (x.2.root.shields []).any fun around =>
    (around.head?.map Prod.fst).any fun q =>
      landing fitsInputError (around.flatMap Prod.snd) !=
        tableEntry x.1.splitTests.simplify fitsInputError q) = true := by
  simp only [Method.recovered?,ofMethod,Block.split,Block.starts,TryTable.ascending,simplify,renumber,
    reversePostorder,Flow.exploreNested,sortByHalves]
  decide +kernel

/-- In `merged` an input error reaches the handler that the table puts second. -/
theorem recoverDispatchesMerged : fitsInputError anyThrown = true ∧ ∃ g r, ofMethod .merged = .ok g ∧
    g.splitTests.simplify.recover (Dominators.ofGraph g.splitTests.simplify) {} = .ok r ∧
    ∃ around ∈ r.root.shields [], ∃ q, around.head?.map Prod.fst = some q ∧
      landing fitsInputError (around.flatMap Prod.snd) ≠
        tableEntry g.splitTests.simplify fitsInputError q ∧
      ∃ k, takingRegion g.splitTests.simplify fitsInputError q = some k ∧
        Overtakes fitsInputError (ownHandlers g.splitTests.simplify k) := by
  have throwable : fitsInputError anyThrown = true := by decide
  obtain ⟨g,r,made,code,strays⟩ := recoveredAny mergedStrays
  obtain ⟨r',code',dispatches⟩ :=
    recoverDispatches made (Dominators.ofGraph g.splitTests.simplify) .pretestFirst
  obtain rfl := Except.ok.inj (code.symm.trans code')
  obtain ⟨around,member,strays⟩ := List.any_eq_true.mp strays
  obtain ⟨q,first,other⟩ := (Option.any_eq_true ..).mp strays
  obtain ⟨x,here,-,exact⟩ := dispatches around member
  obtain rfl := Option.some.inj (first.symm.trans here)
  have apart := bne_iff_ne.mp other
  obtain ⟨k,taking,overtakes⟩ : ∃ k, takingRegion g.splitTests.simplify fitsInputError q = some k ∧
      Overtakes fitsInputError (ownHandlers g.splitTests.simplify k) := by
    by_contra none
    exact apart ((exact fitsInputError throwable).2.mpr fun k taking overtakes =>
      none ⟨k,taking,overtakes⟩)
  exact ⟨throwable,g,r,made,code,around,member,q,first,apart,k,taking,overtakes⟩

end Graph

end RegCode
