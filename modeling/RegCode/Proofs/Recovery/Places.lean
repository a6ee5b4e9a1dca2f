import RegCode.Proofs.Flow.Shape
import RegCode.Recovery
import Mathlib.Data.List.Perm.Subperm
import Mathlib.Data.List.TakeWhile
import RegCode.Proofs.Recovery.Complete

/-! The regions around a region, and which of them a node still lacks where it is written. Handlers
grow fewer from a region to the one around it, so the chain of regions ends within its bound. -/
namespace RegCode

namespace Graph

variable {g : Graph} {fuel : Nat} {x : Option RegionId} {r q : RegionId}

theorem chainAfter {front rest : List RegionId} (parts : g.regionChain fuel x = front ++ r :: rest) :
    (∃ k, fuel = front.length + 1 + k ∧ rest = g.regionChain k (g.parentOf r)) ∧
      ∀ j, g.regionChain (front.length + 1 + j) x = front ++ r :: g.regionChain j (g.parentOf r) := by
  induction front generalizing fuel x with
  | nil =>
    match fuel,x,parts with
    | fuel + 1,some r,rfl =>
      refine ⟨⟨fuel,Nat.add_comm ..,rfl⟩,fun j => ?_⟩
      rw [List.length_nil,Nat.zero_add,Nat.add_comm]
      rfl
  | cons s front ih =>
    match fuel,x,parts with
    | fuel + 1,some s,parts =>
      obtain ⟨⟨k,size,here⟩,all⟩ := ih (List.cons.inj parts).2
      refine ⟨⟨k,by rw [size,List.length_cons]; omega,here⟩,fun j => ?_⟩
      have fuels : (s :: front).length + 1 + j = front.length + 1 + j + 1 := by
        rw [List.length_cons]
        omega
      obtain rfl := (List.cons.inj parts).1
      rw [fuels,regionChain,all,List.cons_append]

theorem handlersFewer (nested : g.Nested) (parent : g.parentOf r = some q) :
    q < g.regions.size ∧ (g.handlersOf q).length < (g.handlersOf r).length := by
  obtain ⟨inside,own,any,split⟩ := nested r q parent
  rw [split,List.length_append]
  exact ⟨inside,Nat.lt_add_of_pos_left (List.length_pos_of_ne_nil any)⟩

theorem chainMem (nested : g.Nested) (inside : r < g.regions.size)
    (member : q ∈ g.regionChain fuel (some r)) :
    q < g.regions.size ∧ (g.handlersOf q).length ≤ (g.handlersOf r).length := by
  induction fuel generalizing r with
  | zero => contradiction
  | succ fuel ih =>
    rcases List.mem_cons.mp member with rfl | member
    · exact ⟨inside,Nat.le_refl _⟩
    · cases parent : g.parentOf r with
      | none =>
        rw [parent] at member
        cases fuel <;> contradiction
      | some s =>
        rw [parent] at member
        obtain ⟨below,fewer⟩ := handlersFewer nested parent
        obtain ⟨inside,few⟩ := ih below member
        exact ⟨inside,few.trans fewer.le⟩

theorem chainNodup (nested : g.Nested) (inside : r < g.regions.size) :
    (g.regionChain fuel (some r)).Nodup := by
  induction fuel generalizing r with
  | zero => exact List.nodup_nil
  | succ fuel ih =>
    rw [regionChain]
    cases parent : g.parentOf r with
    | none => cases fuel <;> exact List.nodup_singleton r
    | some s =>
      obtain ⟨below,fewer⟩ := handlersFewer nested parent
      refine List.nodup_cons.mpr ⟨fun member => ?_,ih below⟩
      exact absurd (chainMem nested below member).2 (Nat.not_le_of_gt fewer)

theorem chainLength (nested : g.Nested) (inside : r < g.regions.size) :
    (g.regionChain fuel (some r)).length ≤ g.regions.size := by
  have below : g.regionChain fuel (some r) ⊆ List.range g.regions.size :=
    fun q member => List.mem_range.mpr (chainMem nested inside member).1
  simpa using (List.subperm_of_subset (chainNodup nested inside) below).length_le

theorem chainEnds (nested : g.Nested) (inside : ∀ q, x = some q → q < g.regions.size)
    {front : List RegionId} (parts : g.regionsAround x = front ++ [r]) : g.parentOf r = none := by
  obtain ⟨⟨k,size,rest⟩,all⟩ := chainAfter parts
  cases parent : g.parentOf r with
  | none => rfl
  | some q =>
    rw [parent] at rest all
    cases k with
    | succ k => contradiction
    | zero =>
      have longer := all 1
      cases x with
      | none => cases front <;> contradiction
      | some s =>
        have few : (g.regionChain (front.length + 1 + 1) (some s)).length ≤ g.regions.size :=
          chainLength nested (inside s rfl)
        rw [longer,List.length_append] at few
        simp [regionChain] at few
        omega

theorem aroundNone : g.regionsAround none = [] := by
  unfold regionsAround
  cases g.regions.size <;> rfl

theorem aroundSome (inside : r < g.regions.size) : ∃ rest, g.regionsAround (some r) = r :: rest := by
  obtain ⟨k,size⟩ := Nat.exists_eq_succ_of_ne_zero (Nat.ne_of_gt (Nat.zero_lt_of_lt inside))
  exact ⟨_,by rw [regionsAround,size,regionChain]⟩

theorem aroundInside (nested : g.Nested) (inside : ∀ q, x = some q → q < g.regions.size)
    (member : r ∈ g.regionsAround x) : r < g.regions.size := by
  cases x with
  | none =>
    rw [aroundNone] at member
    contradiction
  | some q => exact (chainMem nested (inside q rfl) member).1

theorem chainTake (j : Nat) : g.regionChain fuel x = (g.regionChain (fuel + j) x).take fuel := by
  induction fuel generalizing x with
  | zero => rfl
  | succ fuel ih =>
    rw [Nat.succ_add]
    cases x with
    | none => rfl
    | some r => rw [regionChain,regionChain,List.take_succ_cons,← ih]

theorem aroundCons (nested : g.Nested) (inside : r < g.regions.size) :
    g.regionsAround (some r) = r :: g.regionsAround (g.parentOf r) := by
  obtain ⟨k,size⟩ := Nat.exists_eq_succ_of_ne_zero (Nat.ne_of_gt (Nat.zero_lt_of_lt inside))
  have few : (g.regionChain (k + 1 + 1) (some r)).length ≤ g.regions.size := chainLength nested inside
  rw [regionChain,List.length_cons,size] at few
  rw [regionsAround,regionsAround,size,regionChain,chainTake 1,
    List.take_of_length_le (Nat.le_of_succ_le_succ few)]

theorem parentInChain {front rest : List RegionId}
    (parts : g.regionChain fuel x = front ++ r :: q :: rest) : g.parentOf r = some q := by
  obtain ⟨⟨k,-,after⟩,-⟩ := chainAfter parts
  cases parent : g.parentOf r with
  | none =>
    rw [parent] at after
    cases k <;> contradiction
  | some s =>
    rw [parent] at after
    cases k with
    | zero => contradiction
    | succ k => exact congrArg some (List.cons.inj after).1.symm

theorem ownAlone (parent : g.parentOf r = none) : Recovery.ownHandlers g r = g.handlersOf r := by
  simp [Recovery.ownHandlers,handlersOf,parent]

theorem ownSplit (nested : g.Nested) (parent : g.parentOf r = some q) :
    g.handlersOf r = Recovery.ownHandlers g r ++ g.handlersOf q := by
  obtain ⟨-,own,-,split⟩ := nested r q parent
  have first : Recovery.ownHandlers g r =
      (g.handlersOf r).take ((g.handlersOf r).length - (g.handlersOf q).length) := by
    rw [Recovery.ownHandlers,parent]
    rfl
  rw [first,split]
  simp

theorem handlersAround (nested : g.Nested) (inside : r < g.regions.size) :
    g.handlersOf r = (g.regionsAround (some r)).flatMap (Recovery.ownHandlers g) := by
  have suffixes : ∀ (rest front : List RegionId) (q : RegionId),
      g.regionsAround (some r) = front ++ q :: rest →
      g.handlersOf q = (q :: rest).flatMap (Recovery.ownHandlers g) := by
    intro rest
    induction rest with
    | nil =>
      intro front q parts
      have inside : ∀ s, some r = some s → s < g.regions.size := fun s same =>
        Option.some.inj same ▸ inside
      simp [ownAlone (chainEnds nested inside parts)]
    | cons s rest ih =>
      intro front q parts
      rw [ownSplit nested (parentInChain parts),List.flatMap_cons,
        ih (front ++ [q]) s (by rw [parts]; simp)]
  obtain ⟨rest,around⟩ := aroundSome inside
  rw [around]
  exact suffixes rest [] r around

end Graph

namespace Recovery

variable {p : Plan} {f : Frame} {n : NodeId} {r : RegionId}

theorem activeEncloses {scopes : List Scope} (inside : isOutside p.graph scopes n = false)
    (active : activeRegion? scopes = some r) :
    r ∈ p.graph.regionsAround (p.graph.node n).region := by
  obtain ⟨scope,member,here⟩ := List.exists_of_findSome?_eq_some active
  have all := List.any_eq_false.mp inside scope member
  cases scope with
  | guarded q =>
    cases Option.some.inj here
    simpa [Graph.encloses] using all
  | loop shape key => contradiction
  | switch m follow key => contradiction

theorem activeOfPending (regions : ∀ r, (p.graph.node n).region = some r → r < p.graph.regions.size)
    (inside : isOutside p.graph f.scopes n = false) (pending : pendingRegion? p f n = none) :
    activeRegion? f.scopes = (p.graph.node n).region := by
  cases region : (p.graph.node n).region with
  | none =>
    cases active : activeRegion? f.scopes with
    | none => rfl
    | some q =>
      have member := activeEncloses inside active
      rw [region,Graph.aroundNone] at member
      contradiction
  | some r =>
    obtain ⟨rest,around⟩ := Graph.aroundSome (regions r region)
    rw [pendingRegion?,pendingRegions,region,around,List.getLast?_eq_none_iff] at pending
    by_contra other
    rw [List.takeWhile_cons_of_pos (by simpa using other)] at pending
    contradiction

theorem parentOfPending (nested : p.graph.Nested)
    (regions : ∀ r, (p.graph.node n).region = some r → r < p.graph.regions.size)
    (inside : isOutside p.graph f.scopes n = false) (pending : pendingRegion? p f n = some r) :
    r ∈ p.graph.regionsAround (p.graph.node n).region ∧
      activeRegion? f.scopes = p.graph.parentOf r := by
  obtain ⟨front,parts⟩ := List.getLast?_eq_some_iff.mp pending
  have whole := List.takeWhile_append_dropWhile (p := fun q => activeRegion? f.scopes != some q)
    (l := p.graph.regionsAround (p.graph.node n).region)
  obtain ⟨rest,here⟩ : ∃ rest, (p.graph.regionsAround (p.graph.node n).region).dropWhile
    (fun q => activeRegion? f.scopes != some q) = rest := ⟨_,rfl⟩
  rw [show List.takeWhile _ _ = front ++ [r] from parts,here,List.append_assoc,List.singleton_append]
    at whole
  refine ⟨whole ▸ by simp,?_⟩
  cases rest with
  | nil =>
    rw [Graph.chainEnds nested regions whole.symm]
    cases active : activeRegion? f.scopes with
    | none => rfl
    | some q =>
      have member := activeEncloses inside active
      rw [← whole] at member
      have lacks : q ∈ pendingRegions p f n := parts ▸ member
      have := List.mem_takeWhile_imp lacks
      simp [active] at this
  | cons q rest =>
    have found : activeRegion? f.scopes = some q := by
      have := List.head?_dropWhile_not (fun q => activeRegion? f.scopes != some q)
        (p.graph.regionsAround (p.graph.node n).region)
      rw [here] at this
      simpa using this
    exact found.trans (Graph.parentInChain whole.symm).symm

theorem insideGuarded (inside : isOutside p.graph f.scopes n = false)
    (around : r ∈ p.graph.regionsAround (p.graph.node n).region) :
    isOutside p.graph (.guarded r :: f.scopes) n = false := by
  rw [isOutside,List.any_cons,Bool.or_eq_false_iff]
  exact ⟨by simpa [Graph.encloses] using around,inside⟩

end Recovery

end RegCode

/-! Where parts of structured code stand: under which protected body each node is written, with
which clauses, and what tests the loops have. -/
namespace RegCode

namespace Tree

variable {α β : Type}

mutual

def within (x : Option RegionId) : Tree α → List (Option RegionId × Tree α)
  | block l body => (x,block l body) :: withinAll x body
  | stmts l n ss => [(x,stmts l n ss)]
  | branch l n c t none => (x,branch l n c t none) :: withinAll x t
  | branch l n c t (some e) => (x,branch l n c t (some e)) :: withinAll x t ++ withinAll x e
  | loop l k n h c body => (x,loop l k n h c body) :: withinAll x body
  | switch l n v arms => (x,switch l n v arms) :: withinArms x arms
  | guarded l r body cs z => (x,guarded l r body cs z) :: withinAll (some r) body ++ withinCatches x cs
  | goto l t => [(x,goto l t)]
  | breakTo l t => [(x,breakTo l t)]
  | continueTo l t => [(x,continueTo l t)]

def withinAll (x : Option RegionId) : List (Tree α) → List (Option RegionId × Tree α)
  | [] => []
  | t :: ts => t.within x ++ withinAll x ts

def withinArms (x : Option RegionId) : List (ArmHead × List (Tree α)) → List (Option RegionId × Tree α)
  | [] => []
  | (_,body) :: rest => withinAll x body ++ withinArms x rest

def withinCatches (x : Option RegionId) :
    List (CatchHead × List (Tree α)) → List (Option RegionId × Tree α)
  | [] => []
  | (_,body) :: rest => withinAll x body ++ withinCatches x rest

end

def clauseHeads (cs : List (CatchHead × List (Tree α))) (cleanup : Option (List (Tree α))) :
    List (List String × Int) :=
  cs.map (fun c => (c.1.types,(c.1.node : Int))) ++
    (sourcesAll (cleanup.getD [])).map fun n => ([Recovery.anyThrown],n)

theorem withinAllMem {x : Option RegionId} {y : Option RegionId × Tree α} {ts : List (Tree α)} :
    y ∈ withinAll x ts ↔ ∃ t ∈ ts, y ∈ t.within x := by
  induction ts with
  | nil => simp [withinAll]
  | cons t ts ih => simp [withinAll,ih]

theorem withinArmsMem {x : Option RegionId} {y : Option RegionId × Tree α}
    {arms : List (ArmHead × List (Tree α))} :
    y ∈ withinArms x arms ↔ ∃ a ∈ arms, y ∈ withinAll x a.2 := by
  induction arms with
  | nil => simp [withinArms]
  | cons a arms ih =>
    obtain ⟨h,body⟩ := a
    simp [withinArms,ih]

theorem withinCatchesMem {x : Option RegionId} {y : Option RegionId × Tree α}
    {cs : List (CatchHead × List (Tree α))} :
    y ∈ withinCatches x cs ↔ ∃ c ∈ cs, y ∈ withinAll x c.2 := by
  induction cs with
  | nil => simp [withinCatches]
  | cons c cs ih =>
    obtain ⟨h,body⟩ := c
    simp [withinCatches,ih]

section
variable (f : α → β)

mutual

theorem withinRelabel : ∀ (x : Option RegionId) (t : Tree α),
    (t.relabel f).within x = (t.within x).map fun y => (y.1,y.2.relabel f)
  | x, block _ body => by simp [relabel,within,withinAllRelabel x body]
  | _, stmts _ _ _ => by simp [relabel,within]
  | x, branch _ _ _ t none => by simp [relabel,within,withinAllRelabel x t]
  | x, branch _ _ _ t (some e) => by simp [relabel,within,withinAllRelabel x t,withinAllRelabel x e]
  | x, loop _ _ _ _ _ body => by simp [relabel,within,withinAllRelabel x body]
  | x, switch _ _ _ arms => by simp [relabel,within,withinArmsRelabel x arms]
  | x, guarded _ r body cs none => by
    simp [relabel,within,withinAllRelabel (some r) body,withinCatchesRelabel x cs]
  | x, guarded _ r body cs (some z) => by
    simp [relabel,within,withinAllRelabel (some r) body,withinCatchesRelabel x cs]
  | _, goto _ _ => by simp [relabel,within]
  | _, breakTo _ _ => by simp [relabel,within]
  | _, continueTo _ _ => by simp [relabel,within]

theorem withinAllRelabel : ∀ (x : Option RegionId) (ts : List (Tree α)),
    withinAll x (relabelAll f ts) = (withinAll x ts).map fun y => (y.1,y.2.relabel f)
  | _, [] => rfl
  | x, t :: ts => by simp [relabelAll,withinAll,withinRelabel x t,withinAllRelabel x ts]

theorem withinArmsRelabel : ∀ (x : Option RegionId) (arms : List (ArmHead × List (Tree α))),
    withinArms x (relabelArms f arms) = (withinArms x arms).map fun y => (y.1,y.2.relabel f)
  | _, [] => rfl
  | x, (_,body) :: rest => by
    simp [relabelArms,withinArms,withinAllRelabel x body,withinArmsRelabel x rest]

theorem withinCatchesRelabel : ∀ (x : Option RegionId) (cs : List (CatchHead × List (Tree α))),
    withinCatches x (relabelCatches f cs) = (withinCatches x cs).map fun y => (y.1,y.2.relabel f)
  | _, [] => rfl
  | x, (_,body) :: rest => by
    simp [relabelCatches,withinCatches,withinAllRelabel x body,withinCatchesRelabel x rest]

end

end

end Tree

namespace Recovery

open RegCode.Tree

variable {α : Type} {p : Plan} {x : Option RegionId}

def Placed (p : Plan) (x : Option RegionId) : Tree α → Prop
  | .stmts _ m _ => ∀ n : NodeId, m = n → (p.graph.node n).region = x
  | .branch _ m _ _ _ => ∀ n : NodeId, m = n → (p.graph.node n).region = x
  | .switch _ m _ _ => ∀ n : NodeId, m = n → (p.graph.node n).region = x
  | .loop _ _ m h _ _ => (∀ n : NodeId, h = n → (p.graph.node n).region = x) ∧
    ∀ n : NodeId, m = n → (p.graph.node n).kind = .cond
  | .guarded _ r _ cs z => r < p.graph.regions.size ∧ p.graph.parentOf r = x ∧
    clauseHeads cs z = (ownGroups p r).map fun a => (a.types,(a.entry : Int))
  | _ => True

theorem placedRelabel {β : Type} {f : α → β} {t : Tree α} : Placed p x (t.relabel f) ↔ Placed p x t := by
  cases t with
  | branch l m c t e => cases e <;> rfl
  | guarded l r body cs z =>
    have heads : (relabelCatches f cs).map (fun c => (c.1.types,(c.1.node : Int))) =
        cs.map fun c => (c.1.types,(c.1.node : Int)) := by
      induction cs with
      | nil => rfl
      | cons c cs ih =>
        obtain ⟨h,body⟩ := c
        rw [relabelCatches,List.map_cons,List.map_cons,ih]
    cases z with
    | none => simp only [relabel,Placed,clauseHeads,heads,Option.getD_none,sourcesAll]
    | some z => simp only [relabel,Placed,clauseHeads,heads,Option.getD_some,sourcesRelabelAll]
  | _ => rfl

/-- So it is with a part and everything in it. -/
def Stands (p : Plan) (x : Option RegionId) (t : Tree α) : Prop := ∀ y ∈ t.within x, Placed p y.1 y.2

def StandAll (p : Plan) (x : Option RegionId) (ts : List (Tree α)) : Prop := ∀ t ∈ ts, Stands p x t

theorem standAllWithin {ts : List (Tree α)} :
    StandAll p x ts ↔ ∀ y ∈ withinAll x ts, Placed p y.1 y.2 := by
  constructor
  · intro all y member
    obtain ⟨t,inside,member⟩ := withinAllMem.mp member
    exact all t inside y member
  · exact fun all t inside y member => all y (withinAllMem.mpr ⟨t,inside,member⟩)

theorem StandAll.nil : StandAll p x ([] : List (Tree α)) := fun _ member => absurd member List.not_mem_nil

theorem StandAll.append {ts us : List (Tree α)} (left : StandAll p x ts) (right : StandAll p x us) :
    StandAll p x (ts ++ us) := fun t member => (List.mem_append.mp member).elim (left t) (right t)

theorem StandAll.cons {t : Tree α} {ts : List (Tree α)} (first : Stands p x t) (rest : StandAll p x ts) :
    StandAll p x (t :: ts) := List.forall_mem_cons.mpr ⟨first,rest⟩

theorem StandAll.dropLast {ts : List (Tree α)} (all : StandAll p x ts) : StandAll p x ts.dropLast :=
  fun t member => all t (List.mem_of_mem_dropLast member)

theorem standsJump {t : Tree α} (jump : t.within x = [(x,t)]) (placed : Placed p x t) :
    Stands p x t := by
  intro y member
  rw [jump] at member
  cases List.mem_singleton.mp member
  exact placed

theorem standsBranch {l : α} {m : Int} {c : Test} {t : List (Tree α)} {e : Option (List (Tree α))}
    (here : ∀ n : NodeId, m = n → (p.graph.node n).region = x) (onTrue : StandAll p x t)
    (onFalse : StandAll p x (e.getD [])) : Stands p x (.branch l m c t e) := by
  intro y member
  cases e with
  | none =>
    rcases List.mem_cons.mp member with rfl | member
    · exact here
    · exact standAllWithin.mp onTrue y member
  | some e =>
    rcases List.mem_cons.mp member with rfl | member
    · exact here
    · rcases List.mem_append.mp member with member | member
      · exact standAllWithin.mp onTrue y member
      · exact standAllWithin.mp onFalse y member

theorem standsLoop {l : α} {k : LoopKind} {m h : Int} {c : Option Test} {body : List (Tree α)}
    (header : ∀ n : NodeId, h = n → (p.graph.node n).region = x)
    (test : ∀ n : NodeId, m = n → (p.graph.node n).kind = .cond) (inner : StandAll p x body) :
    Stands p x (.loop l k m h c body) := by
  intro y member
  rcases List.mem_cons.mp member with rfl | member
  · exact ⟨header,test⟩
  · exact standAllWithin.mp inner y member

theorem standsSwitch {l : α} {m : Int} {v : Option Expr} {arms : List (ArmHead × List (Tree α))}
    (here : ∀ n : NodeId, m = n → (p.graph.node n).region = x) (all : ∀ a ∈ arms, StandAll p x a.2) :
    Stands p x (.switch l m v arms) := by
  intro y member
  rcases List.mem_cons.mp member with rfl | member
  · exact here
  · obtain ⟨a,inside,member⟩ := withinArmsMem.mp member
    exact standAllWithin.mp (all a inside) y member

theorem standsGuarded {l : α} {r : RegionId} {body : List (Tree α)}
    {cs : List (CatchHead × List (Tree α))} {z : Option (List (Tree α))}
    (inside : r < p.graph.regions.size) (parent : p.graph.parentOf r = x)
    (heads : clauseHeads cs z = (ownGroups p r).map fun a => (a.types,(a.entry : Int)))
    (inner : StandAll p (some r) body) (clauses : ∀ c ∈ cs, StandAll p x c.2) :
    Stands p x (.guarded l r body cs z) := by
  intro y member
  rcases List.mem_cons.mp member with rfl | member
  · exact ⟨inside,parent,heads⟩
  · rcases List.mem_append.mp member with member | member
    · exact standAllWithin.mp inner y member
    · obtain ⟨c,inside,member⟩ := withinCatchesMem.mp member
      exact standAllWithin.mp (clauses c inside) y member

end Recovery

end RegCode
