import RegCode.Proofs.Chains.Unread
import RegCode.Proofs.Chains.Webs
import RegCode.Proofs.Dominance.Loops
import RegCode.Proofs.Dominance.Tree
import RegCode.Proofs.Recovery.Declaring

/-! Places of declaration. The place of a variable comes before all that mentions it, on every way as well
as in its own node, also when it has been moved out of loops and regions, and whatever else has been declared
there. -/
namespace RegCode

namespace Stmt

variable {s t : Stmt} {v : VarId}

theorem mentionsIff : s.mentions v = true ↔ s.def? = some v ∨ v ∈ s.uses := by simp [mentions]

theorem mentionsNot : s.mentions v = false ↔ s.def? ≠ some v ∧ v ∉ s.uses := by simp [mentions]

/-- The statements define and read the same variables at the same location. -/
structure Alike (s t : Stmt) : Prop where
  loc : t.loc = s.loc
  def? : t.def? = s.def?
  uses : t.uses = s.uses

theorem Alike.refl (s : Stmt) : Alike s s := ⟨rfl,rfl,rfl⟩

theorem Alike.trans {u : Stmt} (first : Alike s t) (second : Alike t u) : Alike s u :=
  ⟨second.loc.trans first.loc,second.def?.trans first.def?,second.uses.trans first.uses⟩

theorem Alike.mentions (alike : Alike s t) (v : VarId) : t.mentions v = s.mentions v := by
  rw [Stmt.mentions,Stmt.mentions,alike.def?,alike.uses]

theorem alikeDeclaring (s : Stmt) : Alike s s.declaring := by
  obtain ⟨loc,act⟩ := s
  cases act <;> exact ⟨rfl,rfl,rfl⟩

theorem declaresStill (declared : s.declared? = some v) : s.declaring.declared? = some v := by
  obtain ⟨loc,act⟩ := s
  cases act with
  | assign w e declares =>
    cases declares with
    | true => exact declared
    | false => contradiction
  | _ => exact declared

theorem declaresDefined (defines : s.def? = some v) : s.declaring.declared? = some v := by
  obtain ⟨loc,act⟩ := s
  cases act with
  | assign w e declares => exact defines
  | _ => contradiction

theorem declaredDefined {w : VarId} (defines : s.def? = some v) (declared : s.declared? = some w) : w = v := by
  obtain ⟨loc,act⟩ := s
  cases act with
  | assign x e declares =>
    cases declares with
    | true => exact Option.some.inj (declared.symm.trans defines)
    | false => contradiction
  | _ => contradiction

def mark (l : Loc) (s : Stmt) : Stmt := if s.loc = l then s.declaring else s

theorem alikeMark (l : Loc) (s : Stmt) : Alike s (s.mark l) := by
  unfold mark
  split
  · exact s.alikeDeclaring
  · exact .refl s

theorem declaresMarked (l : Loc) (declared : s.declared? = some v) : (s.mark l).declared? = some v := by
  unfold mark
  split
  · exact declaresStill declared
  · exact declared

theorem countDeclared (front back : List Stmt) (s : Stmt) (v : VarId) :
    (declaredBy (front ++ s :: back)).count v =
      (declaredBy front).count v + (if s.declared? = some v then 1 else 0) + (declaredBy back).count v := by
  simp only [declaredBy,List.filterMap_append,List.count_append,List.filterMap_cons]
  cases s.declared? with
  | none => simp
  | some w =>
    by_cases same : w = v
    · simp [same]
      omega
    · simp [same]

end Stmt

namespace Graph

def declarations (g : Graph) : List VarId := Stmt.declaredBy g.stated

def Leads (g : Graph) (n : NodeId) (v : VarId) : Prop :=
  ∃ front s back, (g.node n).stmts = front ++ s :: back ∧ s.declared? = some v ∧ ∀ t ∈ front, t.mentions v = false

def marked (g : Graph) (l : Loc) : Graph := { g with store := g.store.map (Node.modifyStmt l Stmt.declaring) }

def opened (g : Graph) (n : NodeId) (v : VarId) : Graph :=
  { (g.modify n fun x => { x with stmts := ⟨g.nextLoc,.declare v⟩ :: x.stmts }) with nextLoc := g.nextLoc + 1 }

variable {g : Graph} {n : NodeId}

theorem stmtsMarked (g : Graph) (l : Loc) (i : NodeId) :
    ((g.marked l).node i).stmts = (g.node i).stmts.map (Stmt.mark l) := g.stmtsModified l _ i

theorem statedMarked (g : Graph) (l : Loc) : (g.marked l).stated = g.stated.map (Stmt.mark l) := by
  rw [stated,stated,List.map_flatMap]
  exact List.flatMap_congr fun i _ => g.stmtsMarked l i

theorem stmtsOpened (inside : n < g.store.size) (v : VarId) (i : NodeId) :
    ((g.opened n v).node i).stmts = (if i = n then [⟨g.nextLoc,.declare v⟩] else []) ++ (g.node i).stmts := by
  have edit := g.nodeModify n i fun x => { x with stmts := ⟨g.nextLoc,.declare v⟩ :: x.stmts }
  rw [show (g.opened n v).node i = _ from edit]
  by_cases same : n = i
  · subst same
    simp [inside]
  · simp [same,Ne.symm same]

theorem statedOpened (inside : n < g.store.size) (once : g.rpo.Nodup) (member : n ∈ g.rpo) (v : VarId) :
    (g.opened n v).stated.Perm (⟨g.nextLoc,.declare v⟩ :: g.stated) := by
  have one : (g.rpo.flatMap fun i => if i = n then [(⟨g.nextLoc,.declare v⟩ : Stmt)] else []) =
      [⟨g.nextLoc,.declare v⟩] := by
    obtain ⟨front,back,parts⟩ := List.append_of_mem member
    rw [parts,List.nodup_middle,List.nodup_cons,List.mem_append,not_or] at once
    have none : ∀ is : List NodeId, n ∉ is →
        (is.flatMap fun i => if i = n then [(⟨g.nextLoc,.declare v⟩ : Stmt)] else []) = [] := fun is absent =>
      List.flatMap_eq_nil_iff.mpr fun i listed => if_neg (ne_of_mem_of_not_mem listed absent)
    rw [parts,List.flatMap_append,List.flatMap_cons,none front once.1.1,none back once.1.2]
    simp
  have split : (g.opened n v).stated =
      g.rpo.flatMap fun i => (if i = n then [⟨g.nextLoc,.declare v⟩] else []) ++ (g.node i).stmts :=
    List.flatMap_congr fun i _ => stmtsOpened inside v i
  have perm := (List.flatMap_append_perm g.rpo
    (fun i => if i = n then [(⟨g.nextLoc,.declare v⟩ : Stmt)] else []) fun i => (g.node i).stmts).symm
  rw [one] at perm
  rw [split]
  exact perm

end Graph

namespace Dominators

variable {g : Graph} {n : NodeId} {sites : List NodeId}

theorem commonAllDominates (ranked : g.Ranked) (edged : g.Edged) (inside : ∀ m ∈ sites, m ∈ g.rpo)
    (found : (ofGraph g).commonAll sites = some n) : n ∈ g.rpo ∧ ∀ m ∈ sites, g.Dominates n m := by
  cases sites with
  | nil => contradiction
  | cons first rest =>
    have fold : ∀ (rest : List NodeId) (c : NodeId), c ∈ g.rpo → (∀ m ∈ rest, m ∈ g.rpo) →
        rest.foldl (ofGraph g).common c ∈ g.rpo ∧ g.Dominates (rest.foldl (ofGraph g).common c) c ∧
          ∀ m ∈ rest, g.Dominates (rest.foldl (ofGraph g).common c) m := by
      intro rest
      induction rest with
      | nil => exact fun c member _ => ⟨member,.refl g c,by simp⟩
      | cons m rest ih =>
        intro c member inside
        obtain ⟨joined,both,-⟩ := commonIff ranked edged member (inside m (List.mem_cons_self ..))
        obtain ⟨left,right⟩ := (both _).mp (.refl g _)
        obtain ⟨here,dom,all⟩ := ih _ joined fun x listed => inside x (List.mem_cons_of_mem _ listed)
        refine ⟨here,dom.trans left,fun x listed => ?_⟩
        rcases List.mem_cons.mp listed with rfl | listed
        · exact dom.trans right
        · exact all x listed
    cases Option.some.inj found
    obtain ⟨here,dom,all⟩ := fold rest first (inside first (List.mem_cons_self ..)) fun m listed =>
      inside m (List.mem_cons_of_mem _ listed)
    refine ⟨here,fun m listed => ?_⟩
    rcases List.mem_cons.mp listed with rfl | listed
    · exact dom
    · exact all m listed

end Dominators

namespace Analysed

open Chains

variable {a b c : Analysed} {g h : Graph} {n m : NodeId} {v w : VarId} {d l u : Loc} {sites : List NodeId}

theorem hoistDominates (ranked : g.Ranked) (edged : g.Edged) (h : Graph) (fuel : Nat) (inside : n ∈ g.rpo)
    (dom : ∀ m ∈ sites, g.Dominates n m) :
    hoist h (Dominators.ofGraph g) (LoopForest.ofGraph g (Dominators.ofGraph g)) sites fuel n ∈ g.rpo ∧
      ∀ m ∈ sites, g.Dominates
        (hoist h (Dominators.ofGraph g) (LoopForest.ofGraph g (Dominators.ofGraph g)) sites fuel n) m := by
  induction fuel generalizing n with
  | zero => exact ⟨inside,dom⟩
  | succ fuel ih =>
    have climb : ∀ {x up}, x ∈ g.rpo → g.Dominates x n → (Dominators.ofGraph g).idom? x = some up →
        up ∈ g.rpo ∧ ∀ m ∈ sites, g.Dominates up m := fun member higher idom =>
      have up := Dominators.idomDominates ranked edged member idom
      ⟨up.1,fun m listed => (up.2.2.1.trans higher).trans (dom m listed)⟩
    unfold hoist
    dsimp only
    split
    · rename_i up _ out
      obtain ⟨l,around,leaves⟩ := Option.bind_eq_some_iff.mp out
      have natural := (LoopForest.naturalOfGraph ranked edged).1 l
        (List.mem_reverse.mp (List.mem_of_find?_eq_some around))
      have held : n ∈ l.body := by simpa [Loop.contains] using List.find?_some around
      split at leaves
      · contradiction
      · have idom := Option.some.inj leaves
        obtain ⟨here,all⟩ := climb (natural.inside _ natural.header).1 (natural.inside n held).2 idom
        exact ih here all
    · exact ⟨inside,dom⟩
    · rename_i up _ out
      obtain ⟨r,_,leaves⟩ := Option.bind_eq_some_iff.mp out
      split at leaves
      · contradiction
      · obtain ⟨here,all⟩ := climb inside (.refl g n) (Option.some.inj leaves)
        exact ih here all
    · exact ⟨inside,dom⟩
    · exact ⟨inside,dom⟩

/-! ### One declaration -/

theorem firstAssignedSplit {ss : List Stmt} (found : firstAssigned? v ss = some l) :
    ∃ (front : List Stmt) (s : Stmt) (back : List Stmt), ss = front ++ s :: back ∧ s.loc = l ∧
      s.def? = some v ∧ ∀ t ∈ front, t.mentions v = false := by
  induction ss with
  | nil => contradiction
  | cons s ss ih =>
    unfold firstAssigned? at found
    split at found
    · contradiction
    · rename_i unread
      split at found
      · rename_i defines
        exact ⟨[],s,ss,rfl,Option.some.inj found,defines,by simp⟩
      · rename_i other
        obtain ⟨front,t,back,parts,loc,defines,clear⟩ := ih found
        refine ⟨s :: front,t,back,by rw [parts]; rfl,loc,defines,fun x listed => ?_⟩
        rcases List.mem_cons.mp listed with rfl | listed
        · exact Stmt.mentionsNot.mpr ⟨other,by simpa using unread⟩
        · exact clear x listed

inductive Declares (b : Analysed) (n : NodeId) (v : VarId) : Analysed → Prop where
  | marked {front s back} (parts : (b.graph.node n).stmts = front ++ s :: back) (defines : s.def? = some v)
      (clear : ∀ t ∈ front, t.mentions v = false) : Declares b n v { b with graph := b.graph.marked s.loc }
  | opened : Declares b n v
      ⟨b.graph.opened n v,{ b.chains with home := b.chains.home.insert b.graph.nextLoc n }⟩

theorem declaresIn (b : Analysed) (n : NodeId) (v : VarId) : Declares b n v (b.declareIn n v) := by
  unfold declareIn
  split
  · rename_i l found
    obtain ⟨front,s,back,parts,rfl,defines,clear⟩ := firstAssignedSplit found
    exact .marked parts defines clear
  · exact .opened

structure Place (g : Graph) (n : NodeId) : Prop where
  member : n ∈ g.rpo
  inside : n < g.store.size
  once : g.rpo.Nodup

theorem Declares.leads (declares : Declares b n v c) (place : Place b.graph n) :
    c.graph.Leads n v ∧ ∀ m w, b.graph.Leads m w → c.graph.Leads m w := by
  cases declares with
  | @marked front s back parts defines clear =>
    have all : ∀ {m w front t back}, (b.graph.node m).stmts = front ++ t :: back → (t.mark s.loc).declared? = some w →
        (∀ x ∈ front, x.mentions w = false) → (b.graph.marked s.loc).Leads m w := by
      intro m w front t back parts declared clear
      refine ⟨front.map (Stmt.mark s.loc),t.mark s.loc,back.map (Stmt.mark s.loc),?_,declared,fun x listed => ?_⟩
      · rw [Graph.stmtsMarked,parts,List.map_append,List.map_cons]
      · obtain ⟨y,old,rfl⟩ := List.mem_map.mp listed
        rw [(y.alikeMark s.loc).mentions]
        exact clear y old
    refine ⟨all parts ?_ clear,fun m w => ?_⟩
    · rw [Stmt.mark,if_pos rfl]
      exact Stmt.declaresDefined defines
    · rintro ⟨front,t,back,parts,declared,clear⟩
      exact all parts (Stmt.declaresMarked s.loc declared) clear
  | opened =>
    have node := Graph.stmtsOpened place.inside v
    refine ⟨⟨[],⟨b.graph.nextLoc,.declare v⟩,(b.graph.node n).stmts,?_,rfl,by simp⟩,?_⟩
    · rw [node,if_pos rfl]
      rfl
    · rintro m w ⟨front,t,back,parts,declared,clear⟩
      refine ⟨(if m = n then [⟨b.graph.nextLoc,.declare v⟩] else []) ++ front,t,back,?_,declared,fun x listed => ?_⟩
      · rw [node,parts,List.append_assoc]
      · rcases List.mem_append.mp listed with new | old
        · split at new
          · rw [List.mem_singleton.mp new]
            rfl
          · contradiction
        · exact clear x old

theorem Declares.counts (declares : Declares b n v c) (place : Place b.graph n) (distinct : b.graph.LocsDistinct) :
    (b.graph.declarations.count v = 0 → c.graph.declarations.count v = 1) ∧
      ∀ w, w ≠ v → c.graph.declarations.count w = b.graph.declarations.count w := by
  cases declares with
  | @marked front s back parts defines clear =>
    have listed : s ∈ b.graph.stated := List.mem_flatMap.mpr ⟨n,place.member,by rw [parts]; simp⟩
    obtain ⟨before,after,whole⟩ := List.append_of_mem listed
    have locs : (b.graph.stated.map (·.loc)).Nodup := by
      rw [← Graph.locsStated]
      exact distinct
    rw [whole,List.map_append,List.map_cons,List.nodup_middle,List.nodup_cons,List.mem_append,not_or] at locs
    have kept : ∀ {ss : List Stmt}, s.loc ∉ ss.map (·.loc) → ss.map (Stmt.mark s.loc) = ss := fun {ss} absent =>
      (List.map_congr_left fun t held => by
        rw [Stmt.mark,if_neg fun same => absent (List.mem_map.mpr ⟨t,held,same⟩)]
        rfl).trans (List.map_id _)
    have declared : s.declaring.declared? = some v := Stmt.declaresDefined defines
    have marked : (b.graph.marked s.loc).stated = before ++ s.declaring :: after := by
      rw [Graph.statedMarked,whole,List.map_append,List.map_cons,kept locs.1.1,kept locs.1.2,Stmt.mark,if_pos rfl]
    simp only [Graph.declarations,marked,whole,Stmt.countDeclared]
    refine ⟨fun none => ?_,fun w other => ?_⟩
    · rw [if_pos declared]
      omega
    · rw [if_neg fun same => other (Option.some.inj (same.symm.trans declared)),
        if_neg fun same => other (Stmt.declaredDefined defines same)]
  | opened =>
    have counts := fun w => ((Graph.statedOpened place.inside place.once place.member v).filterMap Stmt.declared?).count_eq w
    have own : Stmt.declared? ⟨b.graph.nextLoc,.declare v⟩ = some v := rfl
    simp only [List.filterMap_cons,own] at counts
    refine ⟨fun none => ?_,fun w other => ?_⟩
    · rw [Graph.declarations,Stmt.declaredBy,counts,List.count_cons_self]
      exact congrArg (· + 1) none
    · rw [Graph.declarations,Stmt.declaredBy,counts,List.count_cons_of_ne other.symm]
      rfl

structure Opened (a b : Analysed) : Prop where
  restated : a.graph.Restated b.graph
  params : ∀ v, (b.graph.vars.get v).isParam = (a.graph.vars.get v).isParam
  defUse : b.chains.defUse = a.chains.defUse
  home : ∀ l, l < a.graph.nextLoc → b.chains.home.get? l = a.chains.home.get? l
  later : a.graph.nextLoc ≤ b.graph.nextLoc
  distinct : b.graph.LocsDistinct
  room : ∀ l ∈ b.graph.locs, l < b.graph.nextLoc
  remains : ∀ i, ∀ s ∈ (a.graph.node i).stmts, ∃ t ∈ (b.graph.node i).stmts, s.Alike t
  origin : ∀ i, ∀ t ∈ (b.graph.node i).stmts, (∃ v, t.act = .declare v) ∨ ∃ s ∈ (a.graph.node i).stmts, s.Alike t

theorem Opened.declares (opened : Opened a b) (place : Place b.graph n) (declares : Declares b n v c) : Opened a c := by
  cases declares with
  | @marked front s back parts defines clear =>
    have locs : (b.graph.marked s.loc).locs = b.graph.locs := by
      rw [Graph.locsStated,Graph.locsStated,Graph.statedMarked,List.map_map]
      exact List.map_congr_left fun t _ => (t.alikeMark s.loc).loc
    refine ⟨opened.restated.trans (b.graph.restatedMap fun _ => rfl),opened.params,opened.defUse,opened.home,
      opened.later,?_,?_,fun i t held => ?_,fun i t held => ?_⟩
    · show (b.graph.marked s.loc).locs.Nodup
      exact locs ▸ opened.distinct
    · show ∀ l ∈ (b.graph.marked s.loc).locs, l < b.graph.nextLoc
      exact locs ▸ opened.room
    · obtain ⟨u,there,alike⟩ := opened.remains i t held
      refine ⟨u.mark s.loc,?_,alike.trans (u.alikeMark s.loc)⟩
      rw [Graph.stmtsMarked]
      exact List.mem_map_of_mem there
    · rw [Graph.stmtsMarked] at held
      obtain ⟨u,there,rfl⟩ := List.mem_map.mp held
      rcases opened.origin i u there with ⟨w,act⟩ | ⟨t,old,alike⟩
      · refine .inl ⟨w,?_⟩
        unfold Stmt.mark
        split
        · simp [Stmt.declaring,act,Action.declaring]
        · exact act
      · exact .inr ⟨t,old,alike.trans (u.alikeMark s.loc)⟩
  | opened =>
    have locs : (b.graph.opened n v).locs.Perm (b.graph.nextLoc :: b.graph.locs) := by
      rw [Graph.locsStated,Graph.locsStated]
      exact (Graph.statedOpened place.inside place.once place.member v).map _
    have stated := b.graph.restatedModify n
      (f := fun x => { x with stmts := ⟨b.graph.nextLoc,.declare v⟩ :: x.stmts }) fun _ => rfl
    have node := Graph.stmtsOpened place.inside v
    refine ⟨opened.restated.trans ⟨rfl,stated.size,stated.nodes⟩,opened.params,opened.defUse,fun l old => ?_,
      ?_,?_,fun l listed => ?_,fun i t held => ?_,fun i t held => ?_⟩
    · have other : l ≠ b.graph.nextLoc := Int.ne_of_lt (Int.lt_of_lt_of_le old opened.later)
      rw [Table.get?_insert,if_neg (by simpa using other)]
      exact opened.home l old
    · exact Int.le_trans opened.later (Int.le_add_one (Int.le_refl _))
    · refine locs.nodup_iff.mpr (List.nodup_cons.mpr ⟨fun listed => ?_,opened.distinct⟩)
      exact absurd (opened.room _ listed) (Int.lt_irrefl _)
    · rcases List.mem_cons.mp (locs.mem_iff.mp listed) with rfl | old
      · exact Int.lt_add_one_of_le (Int.le_refl _)
      · exact Int.lt_add_one_of_le (Int.le_of_lt (opened.room l old))
    · obtain ⟨u,there,alike⟩ := opened.remains i t held
      refine ⟨u,?_,alike⟩
      rw [node]
      exact List.mem_append_right _ there
    · rw [node] at held
      rcases List.mem_append.mp held with new | old
      · split at new
        · exact .inl ⟨v,by rw [List.mem_singleton.mp new]⟩
        · contradiction
      · exact opened.origin i t old

/-! ### All declarations -/

theorem inferTypesKeeps (a : Analysed) : a.inferTypes.chains = a.chains ∧
    ∃ vars, a.inferTypes.graph = { a.graph with vars } ∧ ∀ v, (vars.get v).isParam = (a.graph.vars.get v).isParam := by
  let Keeps (a b : Analysed) : Prop := b.chains = a.chains ∧
    ∃ vars, b.graph = { a.graph with vars } ∧ ∀ v, (vars.get v).isParam = (a.graph.vars.get v).isParam
  have refl : ∀ a, Keeps a a := fun a => ⟨rfl,a.graph.vars,rfl,fun _ => rfl⟩
  have trans : ∀ {a b c}, Keeps a b → Keeps b c → Keeps a c := by
    rintro a b c ⟨chains,vars,graph,params⟩ ⟨chains',vars',graph',params'⟩
    refine ⟨chains'.trans chains,vars',by rw [graph',graph],fun v => (params' v).trans ?_⟩
    rw [graph]
    exact params v
  have one : ∀ (acc : Analysed × Bool) v, Keeps acc.1 (inferVar acc v).1 := by
    rintro ⟨a,changed⟩ v
    unfold inferVar
    dsimp only
    split
    · exact refl a
    · split
      · exact refl a
      · refine ⟨rfl,_,rfl,fun w => ?_⟩
        unfold VarTable.setType VarTable.set VarTable.get
        rw [Array.getElem?_setIfInBounds]
        split
        · rename_i same
          subst same
          split
          · rfl
          · rename_i outside
            rw [Array.getElem?_eq_none (Nat.not_lt.mp outside)]
        · rfl
  have rounds : ∀ (fuel : Nat) (a : Analysed), Keeps a (inferRounds fuel a) := by
    intro fuel
    induction fuel with
    | zero => exact refl
    | succ fuel ih =>
      intro a
      have round : Keeps a (a.chains.definedVars.foldl inferVar (a,false)).1 :=
        List.foldlRecOn _ _ (motive := fun r : Analysed × Bool => Keeps a r.1) (refl a)
          fun r before v _ => trans before (one r v)
      unfold inferRounds
      dsimp only
      split
      · exact trans round (ih _)
      · exact round
  exact rounds _ a

/-- A variable that some statement still defines, and that is no parameter. -/
def Local (a : Analysed) (v : VarId) : Prop :=
  (a.graph.vars.get v).isParam = false ∧ ∃ p s, a.graph.StmtAt p s ∧ s.def? = some v

structure Ready (a : Analysed) : Prop where
  tied : a.Tied
  ranked : a.graph.Ranked
  params : ∀ v ∈ a.graph.params, (a.graph.vars.get v).isParam = true
  room : ∀ l ∈ a.graph.locs, l < a.graph.nextLoc

theorem Ready.stated (ready : a.Ready) (plain : (a.graph.vars.get v).isParam = false) (defines : a.graph.Defines v d) :
    ∃ p s, a.graph.StmtAt p s ∧ s.loc = d ∧ s.def? = some v := by
  obtain ⟨q,here⟩ := defines
  cases here with
  | stmt here defines => exact ⟨_,_,here,rfl,defines⟩
  | param member _ =>
    rw [ready.params v member] at plain
    contradiction

theorem Opened.siteNodes (opened : Opened a b) (ready : a.Ready) (plain : (a.graph.vars.get v).isParam = false) :
    m ∈ b.siteNodes v ↔ ∃ p s, a.graph.StmtAt p s ∧ s.mentions v = true ∧ p.node = m := by
  have tied := ready.tied
  have old : ∀ {p s}, a.graph.StmtAt p s → b.chains.home.get? s.loc = some p.node := fun {p s} here => by
    rw [opened.home _ (ready.room _ (Graph.memLocs.mpr ⟨p,s,here,rfl⟩))]
    exact tied.placed p s here
  have defs : ∀ {d}, d ∈ b.chains.defs v ↔ a.graph.Defines v d := by
    intro d
    rw [memDefs,opened.defUse]
    exact tied.defined v d
  have uses : ∀ {d u}, u ∈ b.chains.uses v d ↔ d ∈ a.chains.defsOfUse v u := by
    intro d u
    rw [Chains.uses,opened.defUse]
    exact tied.agree v u d
  have found : ∀ {d}, a.graph.Defines v d → (b.stmt? d).isSome := by
    intro d defines
    obtain ⟨p,s,here,rfl,-⟩ := ready.stated plain defines
    obtain ⟨t,there,alike⟩ := opened.remains p.node s (List.mem_of_getElem? here.2)
    have held : ((b.graph.node p.node).stmt? s.loc).isSome := by
      rw [Node.stmt?,List.find?_isSome]
      exact ⟨t,there,by simpa using alike.loc⟩
    obtain ⟨x,at_⟩ := Option.isSome_iff_exists.mp held
    rw [Analysed.stmt?,Chains.stmt?,old here]
    simp [at_]
  unfold Analysed.siteNodes
  simp only [List.mem_eraseDups,List.mem_filterMap,List.mem_flatMap,List.mem_filter,List.mem_cons,defs,uses]
  constructor
  · rintro ⟨l,⟨d,⟨defines,-⟩,place⟩,home⟩
    rcases place with rfl | linked
    · obtain ⟨p,s,here,rfl,own⟩ := ready.stated plain defines
      exact ⟨p,s,here,Stmt.mentionsIff.mpr (.inl own),Option.some.inj ((old here).symm.trans home)⟩
    · obtain ⟨⟨p,s,here,rfl,use⟩,-⟩ := tied.linked linked
      exact ⟨p,s,here,Stmt.mentionsIff.mpr (.inr use),Option.some.inj ((old here).symm.trans home)⟩
  · rintro ⟨p,s,here,mention,rfl⟩
    rcases Stmt.mentionsIff.mp mention with own | use
    · have defines : a.graph.Defines v s.loc := ⟨_,.stmt (i := p.node) (k := p.index) here own⟩
      exact ⟨s.loc,⟨s.loc,⟨defines,found defines⟩,.inl rfl⟩,old here⟩
    · obtain ⟨d,linked⟩ := List.exists_mem_of_ne_nil _ (tied.served v s.loc ⟨p,s,here,rfl,use⟩)
      have defines := (tied.linked linked).2
      exact ⟨s.loc,⟨d,⟨defines,found defines⟩,.inr linked⟩,old here⟩

theorem Ready.mentioned (ready : a.Ready) (plain : (a.graph.vars.get v).isParam = false) {p : Point} {s : Stmt}
    (here : a.graph.StmtAt p s) (mention : s.mentions v = true) : a.Local v := by
  rcases Stmt.mentionsIff.mp mention with own | use
  · exact ⟨plain,p,s,here,own⟩
  · obtain ⟨d,linked⟩ := List.exists_mem_of_ne_nil _ (ready.tied.served v s.loc ⟨p,s,here,rfl,use⟩)
    obtain ⟨q,t,there,-,own⟩ := ready.stated plain (ready.tied.linked linked).2
    exact ⟨plain,q,t,there,own⟩

structure Placed (a b : Analysed) (v : VarId) (n : NodeId) : Prop where
  kept : a.Local v
  member : n ∈ a.graph.rpo
  dominates : ∀ p s, a.graph.StmtAt p s → s.mentions v = true → a.graph.Dominates n p.node
  leads : b.graph.Leads n v

structure Placing (a : Analysed) (done : List VarId) (r : Analysed × List (VarId × NodeId)) : Prop where
  opened : Opened a r.1
  placed : ∀ v n, (v,n) ∈ r.2 → v ∈ done ∧ a.Placed r.1 v n
  one : ∀ v m n, (v,m) ∈ r.2 → (v,n) ∈ r.2 → m = n
  every : ∀ v ∈ done, a.Local v → ∃ n, (v,n) ∈ r.2
  declared : ∀ v ∈ done, a.Local v → a.graph.declarations.count v = 0 → r.1.graph.declarations.count v = 1
  still : ∀ v, ¬(v ∈ done ∧ a.Local v) → r.1.graph.declarations.count v = a.graph.declarations.count v

theorem Placing.skip {done : List VarId} {r : Analysed × List (VarId × NodeId)} (placing : Placing a done r)
    (none : ¬a.Local v) : Placing a (done ++ [v]) r := by
  have back : ∀ {w}, w ∈ done ++ [v] → a.Local w → w ∈ done := fun {w} listed held =>
    (List.mem_append.mp listed).resolve_right fun last => none (List.mem_singleton.mp last ▸ held)
  exact ⟨placing.opened,fun w n listed => (placing.placed w n listed).imp_left (List.mem_append_left _),placing.one,
    fun w listed held => placing.every w (back listed held) held,
    fun w listed held => placing.declared w (back listed held) held,
    fun w other => placing.still w fun both => other ⟨List.mem_append_left _ both.1,both.2⟩⟩

theorem Placing.next (ready : a.Ready) {done : List VarId} {r : Analysed × List (VarId × NodeId)}
    (placing : Placing a done r) (fresh : v ∉ done) :
    Placing a (done ++ [v]) (placeVar (Dominators.ofGraph a.graph)
      (LoopForest.ofGraph a.graph (Dominators.ofGraph a.graph)) r v) := by
  obtain ⟨b,places⟩ := r
  have edged := ready.tied.wired.toEdged
  have opened := placing.opened
  unfold placeVar
  dsimp only
  split
  · rename_i param
    refine placing.skip fun held => ?_
    rw [opened.params,held.1] at param
    contradiction
  · rename_i plain
    have plain : (a.graph.vars.get v).isParam = false := by
      rw [← opened.params]
      exact Bool.eq_false_iff.mpr plain
    have sites := fun m => opened.siteNodes (m := m) ready plain
    split
    · rename_i nowhere
      refine placing.skip fun held => ?_
      obtain ⟨-,p,s,here,own⟩ := held
      have listed := (sites p.node).mpr ⟨p,s,here,Stmt.mentionsIff.mpr (.inl own),rfl⟩
      cases all : b.siteNodes v with
      | nil => rw [all] at listed; contradiction
      | cons m rest => rw [all] at nowhere; contradiction
    · rename_i first found
      obtain ⟨member,dom⟩ := Dominators.commonAllDominates ready.ranked edged (fun m listed => by
        obtain ⟨p,s,here,-,rfl⟩ := (sites m).mp listed
        exact here.1) found
      obtain ⟨inside,higher⟩ := hoistDominates ready.ranked edged b.graph (b.graph.store.size + 1) member dom
      generalize hoist b.graph (Dominators.ofGraph a.graph) (LoopForest.ofGraph a.graph (Dominators.ofGraph a.graph))
        (b.siteNodes v) (b.graph.store.size + 1) first = n at inside higher
      have rpo : b.graph.rpo = a.graph.rpo := by rw [opened.restated.rest]
      have place : Place b.graph n := ⟨rpo ▸ inside,opened.restated.size ▸ ready.tied.wired.inStore n inside,
        rpo ▸ ready.ranked.nodup⟩
      have declares := b.declaresIn n v
      obtain ⟨own,others⟩ := declares.leads place
      obtain ⟨once,counts⟩ := declares.counts place opened.distinct
      have held : a.Local v := by
        cases all : b.siteNodes v with
        | nil => rw [all] at found; contradiction
        | cons m rest =>
          obtain ⟨p,s,here,mention,-⟩ := (sites m).mp (all ▸ List.mem_cons_self ..)
          exact ready.mentioned plain here mention
      refine ⟨opened.declares place declares,fun w m listed => ?_,fun w m n' left right => ?_,fun w listed local_ => ?_,
        fun w listed local_ none => ?_,fun w other => ?_⟩
      · rcases List.mem_append.mp listed with old | new
        · obtain ⟨before,placed⟩ := placing.placed w m old
          exact ⟨List.mem_append_left _ before,{ placed with leads := others m w placed.leads }⟩
        · obtain ⟨rfl,rfl⟩ := Prod.mk.inj (List.mem_singleton.mp new)
          refine ⟨by simp,held,inside,fun p s here mention => ?_,own⟩
          exact higher p.node ((sites p.node).mpr ⟨p,s,here,mention,rfl⟩)
      · have new : ∀ {x}, (v,x) ∈ places ++ [(v,n)] → x = n := fun {x} listed => by
          rcases List.mem_append.mp listed with old | new
          · exact absurd (placing.placed v x old).1 fresh
          · exact (Prod.mk.inj (List.mem_singleton.mp new)).2
        by_cases same : w = v
        · subst same
          exact (new left).trans (new right).symm
        · have old : ∀ {x}, (w,x) ∈ places ++ [(v,n)] → (w,x) ∈ places := fun {x} listed =>
            (List.mem_append.mp listed).resolve_right fun last => same (Prod.mk.inj (List.mem_singleton.mp last)).1
          exact placing.one w m n' (old left) (old right)
      · rcases List.mem_append.mp listed with old | new
        · obtain ⟨m,before⟩ := placing.every w old local_
          exact ⟨m,List.mem_append_left _ before⟩
        · exact ⟨n,by rw [List.mem_singleton.mp new]; simp⟩
      · rcases List.mem_append.mp listed with old | new
        · have other : w ≠ v := fun same => fresh (same ▸ old)
          exact (counts w other).trans (placing.declared w old local_ none)
        · obtain rfl := List.mem_singleton.mp new
          exact once ((placing.still w fun both => fresh both.1).trans none)
      · have apart : w ≠ v := fun same => other ⟨by simp [same],same ▸ held⟩
        exact (counts w apart).trans (placing.still w fun both => other ⟨List.mem_append_left _ both.1,both.2⟩)

theorem Placing.all (ready : a.Ready) (vs done : List VarId) {r : Analysed × List (VarId × NodeId)}
    (placing : Placing a done r) (once : (done ++ vs).Nodup) :
    Placing a (done ++ vs) (vs.foldl (placeVar (Dominators.ofGraph a.graph)
      (LoopForest.ofGraph a.graph (Dominators.ofGraph a.graph))) r) := by
  induction vs generalizing done r with
  | nil => simpa using placing
  | cons v vs ih =>
    have fresh : v ∉ done := fun old => (List.nodup_append.mp once).2.2 v old v (List.mem_cons_self ..) rfl
    rw [List.append_cons] at once ⊢
    exact ih (done ++ [v]) (placing.next ready fresh) once

theorem Ready.typed (ready : a.Ready) : Placing a [] (a.inferTypes,[]) := by
  obtain ⟨chains,vars,graph,params⟩ := a.inferTypesKeeps
  refine ⟨⟨a.restatedInferTypes,?_,by rw [chains],fun l _ => by rw [chains],?_,?_,?_,?_,?_⟩,by simp,by simp,by simp,
    by simp,fun v _ => ?_⟩
  · rw [graph]
    exact params
  · rw [graph]
  · rw [graph]
    exact ready.tied.distinct
  · rw [graph]
    exact ready.room
  · rw [graph]
    exact fun i s held => ⟨s,held,.refl s⟩
  · rw [graph]
    exact fun i s held => .inr ⟨s,held,.refl s⟩
  · rw [graph]
    rfl

theorem Ready.placing (ready : a.Ready) : Placing a a.chains.definedVars
    (a.placeDeclarations (Dominators.ofGraph a.graph) (LoopForest.ofGraph a.graph (Dominators.ofGraph a.graph))) := by
  have all := ready.typed.all ready a.chains.definedVars [] (definedVarsSorted a.chains).2
  unfold placeDeclarations
  dsimp only
  rw [a.inferTypesKeeps.1]
  exact all

theorem Opened.mentions (opened : Opened a b) {p : Point} {t : Stmt} (there : b.graph.StmtAt p t)
    (mention : t.mentions v = true) : ∃ q s, a.graph.StmtAt q s ∧ q.node = p.node ∧ s.Alike t := by
  rcases opened.origin p.node t (List.mem_of_getElem? there.2) with ⟨w,act⟩ | ⟨s,old,alike⟩
  · rw [Stmt.mentions,Stmt.def?,Stmt.uses,act] at mention
    contradiction
  · obtain ⟨k,at_⟩ := List.getElem?_of_mem old
    refine ⟨⟨p.node,k⟩,s,⟨?_,at_⟩,rfl,alike⟩
    have member := there.1
    rwa [opened.restated.rest] at member

theorem Opened.same (opened : Opened a b) : b.Local v ↔ a.Local v := by
  unfold Local
  rw [opened.params]
  refine and_congr_right fun _ => ⟨?_,?_⟩
  · rintro ⟨p,t,there,defines⟩
    obtain ⟨q,s,here,-,alike⟩ := opened.mentions there (Stmt.mentionsIff.mpr (.inl defines))
    exact ⟨q,s,here,alike.def?.symm.trans defines⟩
  · rintro ⟨p,s,here,defines⟩
    obtain ⟨t,there,alike⟩ := opened.remains p.node s (List.mem_of_getElem? here.2)
    obtain ⟨k,at_⟩ := List.getElem?_of_mem there
    have member := here.1
    rw [← show b.graph.rpo = a.graph.rpo by rw [opened.restated.rest]] at member
    exact ⟨⟨p.node,k⟩,t,⟨member,at_⟩,alike.def?.trans defines⟩

/-- A variable that is no parameter and still has a definition gets one place and, if it had none, one declaration.
The place dominates every node that mentions it, and in the place itself nothing mentions it before the
declaration. No other variable gets any. -/
theorem declarationsDominate {s : Analysed} {fits : Analysed → Loc → VarId → Prop} (made : s.Made)
    (start : b = s ∨ s.splitLifetimes = .ok b) (steps : Steps fits b a) (ranked : a.graph.Ranked)
    (params : ∀ v ∈ a.graph.params, (a.graph.vars.get v).isParam = true)
    (room : ∀ l ∈ a.graph.locs, l < a.graph.nextLoc) (v : VarId) :
    let d := Dominators.ofGraph a.graph
    let c := (a.placeDeclarations d (LoopForest.ofGraph a.graph d)).1
    let places := (a.placeDeclarations d (LoopForest.ofGraph a.graph d)).2
    (c.Local v ↔ a.Local v) ∧
    (a.Local v → ∃ n ∈ c.graph.rpo, (∀ m, (v,m) ∈ places ↔ m = n) ∧
      (∀ p t, c.graph.StmtAt p t → t.mentions v = true → a.graph.Dominates n p.node) ∧ c.graph.Leads n v ∧
      (a.graph.declarations.count v = 0 → c.graph.declarations.count v = 1)) ∧
    (¬a.Local v → (∀ n, (v,n) ∉ places) ∧ c.graph.declarations.count v = a.graph.declarations.count v) := by
  intro d c places
  have tied : a.Tied := (steps.tied (start.elim (fun same => same ▸ made) made.split)).1
  have ready : a.Ready := ⟨tied,ranked,params,room⟩
  have placing : Placing a a.chains.definedVars (c,places) := ready.placing
  have done : a.Local v → v ∈ a.chains.definedVars := by
    rintro ⟨-,p,s,here,defines⟩
    exact ((definedVarsSorted a.chains).1 v).mpr
      ⟨s.loc,(tied.defined v s.loc).mpr ⟨_,.stmt (i := p.node) (k := p.index) here defines⟩⟩
  refine ⟨placing.opened.same,fun held => ?_,fun none => ⟨fun n listed => ?_,?_⟩⟩
  · obtain ⟨n,listed⟩ := placing.every v (done held) held
    have placed := (placing.placed v n listed).2
    have rpo : c.graph.rpo = a.graph.rpo := by rw [placing.opened.restated.rest]
    refine ⟨n,rpo ▸ placed.member,fun m => ⟨fun other => placing.one v m n other listed,fun same => same ▸ listed⟩,
      fun p t there mention => ?_,placed.leads,placing.declared v (done held) held⟩
    obtain ⟨q,s,here,node,alike⟩ := placing.opened.mentions there mention
    exact node ▸ placed.dominates q s here ((alike.mentions v).symm.trans mention)
  · exact none (placing.placed v n listed).2.kept
  · exact placing.still v fun both => none both.2

def joining : Graph where
  vars := ⟨#[{ kind := .param },{ register := 1 },{ register := 2 }]⟩
  params := [0]
  entry := some 0
  store := #[
    { num := 0, kind := .cond, succs := [1,2], onTrue := some 1, onFalse := some 2,
      stmts := [⟨0,.branch ⟨.eq,.var 0,none⟩⟩] },
    { num := 1, stmts := [⟨1,.assign 1 (.const "I" 1) false⟩], succs := [3], preds := [0] },
    { num := 2, stmts := [⟨2,.assign 1 (.const "I" 2) false⟩], succs := [3], preds := [0] },
    { num := 3, kind := .ret, preds := [1,2],
      stmts := [⟨3,.assign 2 (.binary .mul (.var 1) (.var 1) "I") false⟩,
        ⟨4,.assign 2 (.binary .add (.var 2) (.var 1) "I") false⟩,⟨5,.ret (some (.var 2))⟩] }]
  nodes := [0,1,2,3]
  rpo := [0,1,2,3]
  nextLoc := 6

theorem joiningWired : joining.Wired where
  inStore := by decide
  entry := by intro e h; cases h; decide
  empty := by intro h; cases h
  succs := by decide
  preds := by decide
  catchSuccs := by decide
  catchPreds := by decide
  defs := by
    have all : ∀ i ∈ joining.rpo, ∀ s ∈ (joining.node i).stmts,
        s.def?.all (· < joining.vars.size) = true := by decide
    intro i hi s hs v defines
    simpa [defines] using all i hi s hs
  params := by decide

theorem joiningDistinct : joining.LocsDistinct := by unfold Graph.LocsDistinct; decide

theorem joiningReserved : ∀ i ∈ joining.rpo, paramLoc ∉ (joining.node i).stmts.map (·.loc) := by decide

theorem joiningRanked : joining.Ranked where
  nums := by
    have all : ∀ k : Nat, k < 4 → ∀ n ∈ joining.rpo[k]?, (joining.node n).num = k := by decide
    intro k n listed
    exact all k (List.getElem?_eq_some_iff.mp listed).1 n listed
  first := rfl
  earlier := by decide

/-- The first comes in front of the branch, the second with its first assignment. The parameter gets nothing. -/
theorem declarationsDominateJoining : ∃ a : Analysed, a.graph = joining ∧ a.Made ∧
    let r := a.placeDeclarations (Dominators.ofGraph joining)
      (LoopForest.ofGraph joining (Dominators.ofGraph joining))
    r.2 = [(1,0),(2,3)] ∧ r.1.graph.Leads 0 1 ∧ r.1.graph.declarations.count 1 = 1 ∧
      (∀ p t, r.1.graph.StmtAt p t → t.mentions 1 = true → joining.Dominates 0 p.node) ∧
      r.1.graph.Leads 3 2 ∧ r.1.graph.declarations.count 0 = 0 := by
  have run : (Chains.ofGraph joining).toOption.map (fun c =>
      (placeDeclarations ⟨joining,c⟩ (Dominators.ofGraph joining)
        (LoopForest.ofGraph joining (Dominators.ofGraph joining))).2) = some [(1,0),(2,3)] := by cbv
  cases ok : Chains.ofGraph joining with
  | error f => rw [ok] at run; contradiction
  | ok c =>
    rw [ok] at run
    have places : (placeDeclarations ⟨joining,c⟩ (Dominators.ofGraph joining)
      (LoopForest.ofGraph joining (Dominators.ofGraph joining))).2 = [(1,0),(2,3)] := Option.some.inj run
    have made : Made ⟨joining,c⟩ := ⟨joiningWired,joiningDistinct,joiningReserved,ok⟩
    have all := declarationsDominate made (.inl rfl) (.none : Steps (fun _ _ _ => True) _ _) joiningRanked
      (show ∀ v ∈ joining.params, (joining.vars.get v).isParam = true by decide)
      (show ∀ l ∈ joining.locs, l < joining.nextLoc by decide)
    have none : joining.declarations = [] := by decide
    dsimp only at all
    simp only [places,none] at all
    obtain ⟨n,-,first,dom,leads,count⟩ := (all 1).2.1 ⟨rfl,⟨1,0⟩,_,⟨show 1 ∈ joining.rpo by decide,rfl⟩,rfl⟩
    obtain ⟨m,-,second,-,leads',-⟩ := (all 2).2.1 ⟨rfl,⟨3,0⟩,_,⟨show 3 ∈ joining.rpo by decide,rfl⟩,rfl⟩
    obtain rfl : 0 = n := (first 0).mp (by decide)
    obtain rfl : 3 = m := (second 3).mp (by decide)
    have param : ¬Local ⟨joining,c⟩ 0 := fun own => absurd own.1 (show (joining.vars.get 0).isParam ≠ false by decide)
    exact ⟨⟨joining,c⟩,rfl,made,places,leads,count rfl,dom,leads',((all 0).2.2 param).2⟩

end Analysed

end RegCode
