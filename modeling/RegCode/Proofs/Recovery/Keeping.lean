import RegCode.Proofs.Recovery.Answering
import RegCode.Proofs.Recovery.Unwinding

/-! What clean-up code that stands for the start of a node asks for: whoever comes to the node comes out of the
protected code, and whatever leaves the protected code comes to the node. Where that is so, jumps and exceptions
lead out of the code around them as the edges of the graph do. -/
namespace RegCode

def Deed.cover? : Deed → Option Cover
  | .guard c => some c
  | _ => none

namespace Recovery

open RegCode.Tree

/-! ### All that code holds -/

mutual

theorem deedsSame (k k' : List Cover) : (t : Piece) → (t.deeds k).map Prod.snd = (t.deeds k').map Prod.snd
  | .block _ body => deedsSameAll k k' body
  | .stmts _ n _ => by
    rw [deeds,deeds]
    split <;> rfl
  | .branch _ n _ a none => congrArg (Deed.test n :: ·) (deedsSameAll k k' a)
  | .branch _ _ _ a (some b) => by
    rw [deeds,deeds,List.map_append,List.map_append,List.map_cons,List.map_cons,deedsSameAll k k' a,
      deedsSameAll k k' b]
  | .loop _ _ _ _ _ body => by
    rw [deeds,deeds,List.map_append,List.map_append,deedsSameAll k k' body,List.map_map,List.map_map]
    rfl
  | .switch _ n _ arms => congrArg (Deed.test n :: ·) (deedsSameArms k k' arms)
  | .guarded _ r body cs z => by
    rw [deeds,deeds,List.map_append,List.map_append,List.map_cons,List.map_cons,
      deedsSameAll (cover r cs z :: k) (cover r cs z :: k') body,deedsSameCatches k k' cs]
  | .goto _ _ | .breakTo _ _ | .continueTo _ _ => rfl

theorem deedsSameAll (k k' : List Cover) :
    (ts : List Piece) → (deedsAll k ts).map Prod.snd = (deedsAll k' ts).map Prod.snd
  | [] => rfl
  | t :: ts => by
    rw [deedsAll,deedsAll,List.map_append,List.map_append,deedsSame k k' t,deedsSameAll k k' ts]

theorem deedsSameArms (k k' : List Cover) :
    (arms : List (ArmHead × List Piece)) → (deedsArms k arms).map Prod.snd = (deedsArms k' arms).map Prod.snd
  | [] => rfl
  | (_,body) :: rest => by
    rw [deedsArms,deedsArms,List.map_append,List.map_append,deedsSameAll k k' body,deedsSameArms k k' rest]

theorem deedsSameCatches (k k' : List Cover) : (cs : List (CatchHead × List Piece)) →
    (deedsCatches k cs).map Prod.snd = (deedsCatches k' cs).map Prod.snd
  | [] => rfl
  | (_,body) :: rest => by
    rw [deedsCatches,deedsCatches,List.map_append,List.map_append,deedsSameAll k k' body,
      deedsSameCatches k k' rest]

end

def deedsOf (ts : List Piece) : List Deed := (deedsAll [] ts).map Prod.snd

/-- So it is with all that is to be done from a spot on. -/
def Over (P : Tasks → Prop) (xs : List (Key × Tasks)) (k : Tasks) : Prop := ∀ x ∈ xs, P (x.2 ++ k)

section
variable {P : Tasks → Prop} {xs ys : List (Key × Tasks)} {k : Tasks}

theorem overNil : Over P [] k := fun _ member => absurd member List.not_mem_nil

theorem overAppend : Over P (xs ++ ys) k ↔ Over P xs k ∧ Over P ys k := List.forall_mem_append

theorem overUnder (front : Tasks) : Over P (xs.map fun x => (x.1,x.2 ++ front)) k ↔ Over P xs (front ++ k) := by
  simp only [Over,List.forall_mem_map,List.append_assoc]

theorem pushNil (ts : List Piece) : push ts [] ++ k = push ts k := by simp [push]

theorem overCons {t : Piece} {ts : List Piece} : Over P (spotsAll (t :: ts)) k ↔
    P (push (t :: ts) k) ∧ Over P (spots t) (push ts k) ∧ Over P (spotsAll ts) k := by
  rw [spotsAll,List.cons_append,← List.singleton_append,overAppend,overAppend,overUnder,pushNil]
  simp only [Over,List.forall_mem_singleton,pushNil]

theorem overJoin {ts us : List Piece} : Over P (spotsAll (ts ++ us)) k ↔
    Over P (spotsAll ts) (push us k) ∧ Over P (spotsAll us) k := by
  rw [spotsAppend,overAppend,overUnder,pushNil]

theorem overLoop {key : Key} {kind : LoopKind} {n h : Int} {c : Option Test} {body : List Piece} :
    Over P (spots (.loop key kind n h c body)) k ↔ Over P (spotsAll body) (.loop key kind n c body :: k) := by
  rw [spots,overUnder,List.singleton_append]

theorem overCatches {cs : List (CatchHead × List Piece)} :
    Over P (spotsCatches cs) k ↔ ∀ c ∈ cs, Over P (spotsAll c.2) k := by
  induction cs with
  | nil => simp [spotsCatches,overNil]
  | cons c cs ih => rw [spotsCatches,overAppend,ih,List.forall_mem_cons]

theorem overGuarded {key : Key} {r : RegionId} {body : List Piece} {cs : List (CatchHead × List Piece)}
    {z : Option (List Piece)} : Over P (spots (.guarded key r body cs z)) k ↔
      Over P (spotsAll body) (.guard key r cs z :: k) ∧ ∀ c ∈ cs, Over P (spotsAll c.2) k := by
  rw [spots,overAppend,overUnder,List.singleton_append,overCatches]

end

/-! ### Clean-up code -/

def guardedBy (ss : List Scope) : List RegionId := ss.filterMap fun
  | .guarded r => some r
  | _ => none

def onset : Tasks → Option Int
  | .piece t :: _ => t.begins
  | _ => none

namespace Draft

variable (w : Draft) (p : Plan)

def covers : List Cover := (deedsOf w.body).filterMap Deed.cover?

/-- The clean-up code that stands for what the node begins with. -/
def cleaners (x : NodeId) : List Cover :=
  w.covers.filter fun c => !c.code.isEmpty && p.regionExits c.region == [x]

/-- How many statements the node is without. -/
def due (x : NodeId) : Nat := (w.cleaners p x).head?.elim 0 fun c => (Stmt.run c.code).length

/-- How many of them whoever comes there out of these scopes has run. -/
def owed (ss : List Scope) (x : NodeId) : Nat :=
  if (w.cleaners p x).any fun c => (guardedBy ss).contains c.region then 0 else w.due p x

/-- The part that a jump to the node's label leads to begins with the node. -/
def stands (n : NodeId) : Bool := (w.aim? n).any fun k => onset k == some (n : Int)

/-- A jump to the node's label leaves clean-up code behind just when it is for the node. -/
def leads (n : NodeId) : Tasks → Bool
  | [] => true
  | .guard key r _ (some _) :: k => (p.regionExits r == [n]) != w.holds key n && leads n k
  | _ :: k => leads n k

/-- A jump out of a loop or a switch leaves no clean-up code behind. -/
def stays (text : String) (again : Bool) : Tasks → Bool
  | [] => true
  | .loop key _ _ _ _ :: k => w.calls text key || stays text again k
  | .switch key _ :: k => !again && w.calls text key || stays text again k
  | .guard _ _ _ (some _) :: _ => false
  | _ :: k => stays text again k

def minds : Tasks → Bool
  | .piece (.goto (.aim n) _) :: k => w.stands n && w.leads p n k
  | .piece (.breakTo _ text) :: k => w.stays text false k
  | .piece (.continueTo _ text) :: k => w.stays text true k
  | _ => true

end Draft

/-- Clean-up code is what the node begins with, for all ways into the node and out of the region. -/
structure Shares (p : Plan) (c : Cover) (e x : NodeId) : Prop where
  acts : c.code.map Stmt.act = ((p.graph.node x).stmts.take c.code.length).map Stmt.act
  entered : p.graph.entry ≠ some x
  caught : ∀ n ∈ p.graph.rpo, ∀ r, (p.graph.node n).region = some r →
    ∀ h ∈ p.graph.handlersOf r, h.entry ≠ x
  stays : ∀ n ∈ p.graph.rpo, c.region ∈ p.graph.regionsAround (p.graph.node n).region →
    (p.graph.node n).kind ≠ .ret
  handler : (p.graph.node e).region = p.graph.parentOf c.region
  around : c.code.any Stmt.canThrow = true → (p.graph.node x).region = p.graph.parentOf c.region
  rounds : ∀ a ∈ p.shapes, a.kind = .posttest → a.loop.header ≠ x

/-- Clean-up code stands once around its region, for what the region's only exit begins with. Whoever comes to
the exit runs just one such code, clauses take what the table says, and jumps leave clean-up code behind where the
edges that they are for do. -/
structure Draft.Tidy (w : Draft) (p : Plan) : Prop where
  once : ∀ c ∈ w.covers, c.code ≠ [] → ∀ d ∈ w.covers, d.region = c.region → d = c
  even : ∀ x, ∀ c ∈ w.cleaners p x, ∀ d ∈ w.cleaners p x, d.code.map Stmt.act = c.code.map Stmt.act
  apart : ∀ x, ∀ c ∈ w.cleaners p x, ∀ d ∈ w.cleaners p x,
    d.region ∈ p.graph.regionsAround (some c.region) → d.region = c.region
  sources : ∀ n ∈ p.graph.rpo, ∀ x ∈ (p.graph.node n).succs, w.cleaners p x ≠ [] →
    ∃ c ∈ w.cleaners p x, c.region ∈ p.graph.regionsAround (p.graph.node n).region
  whole : ∀ c ∈ w.covers, c.copies = []
  shares : ∀ c ∈ w.covers, ∀ (e : NodeId) code x, c.cleanup = [((e : Int),code)] →
    p.regionExits c.region = [x] → Shares p c e x
  dispatch : ∀ c ∈ w.covers, ∀ fits, fits anyThrown = true →
    landing fits (clausesOf p c.region) = ownEntry p.graph fits c.region
  minds : ∀ x ∈ spotsAll w.body, w.minds p x.2 = true

theorem runActs (same : us.map Stmt.act = ts.map Stmt.act) :
    (Stmt.run us).map Stmt.act = (Stmt.run ts).map Stmt.act := by
  induction us generalizing ts with
  | nil =>
    obtain rfl := List.map_eq_nil_iff.mp same.symm
    rfl
  | cons u us ih =>
    cases ts with
    | nil => contradiction
    | cons t ts =>
      obtain ⟨here,later⟩ := List.cons.inj same
      have kept : (!u.receives && !u.isTest) = (!t.receives && !t.isTest) := by
        rw [Stmt.receives,Stmt.isTest,Stmt.receives,Stmt.isTest,here]
      unfold Stmt.run
      rw [List.filter_cons,List.filter_cons,kept]
      split
      · rw [List.map_cons,List.map_cons,here]
        exact congrArg _ (ih later)
      · exact ih later

variable {w : Draft} {p : Plan} {ss : List Scope} {x : NodeId} {c d : Cover} {r : RegionId}

namespace Draft

theorem coversMem : c ∈ w.covers ↔ ∃ k, (k,.guard c) ∈ deedsAll [] w.body := by
  have only : ∀ d : Deed, d.cover? = some c ↔ d = .guard c := fun d => by
    cases d <;> simp [Deed.cover?]
  simp only [covers,deedsOf,List.mem_filterMap,List.mem_map,only,exists_eq_right]
  exact ⟨fun ⟨⟨k,d⟩,member,same⟩ => ⟨k,same ▸ member⟩,fun ⟨k,member⟩ => ⟨_,member,rfl⟩⟩

theorem cleanersMem : c ∈ w.cleaners p x ↔ c ∈ w.covers ∧ c.code ≠ [] ∧ p.regionExits c.region = [x] := by
  simp [cleaners]

theorem Tidy.due (tidy : w.Tidy p) (member : c ∈ w.cleaners p x) : w.due p x = (Stmt.run c.code).length := by
  cases first : w.cleaners p x with
  | nil =>
    rw [first] at member
    contradiction
  | cons d ds =>
    have even := congrArg List.length (runActs (tidy.even x c member d (first ▸ List.mem_cons_self ..)))
    rw [List.length_map,List.length_map] at even
    rw [Draft.due,first]
    exact even

theorem dueNone (none : w.cleaners p x = []) : w.due p x = 0 := by rw [due,none]; rfl

theorem owedNone (none : w.cleaners p x = []) : w.owed p ss x = 0 := by
  rw [owed,none]
  exact dueNone none

theorem owedInside (member : c ∈ w.cleaners p x) (inside : c.region ∈ guardedBy ss) : w.owed p ss x = 0 :=
  if_pos (List.any_eq_true.mpr ⟨c,member,by simpa using inside⟩)

theorem owedDue (free : ∀ c ∈ w.cleaners p x, c.region ∉ guardedBy ss) : w.owed p ss x = w.due p x :=
  if_neg (by simpa using free)

theorem owedOutermost : w.owed p [] x = w.due p x := owedDue fun _ _ => List.not_mem_nil

theorem owedApart (other : ∀ c ∈ w.cleaners p x, c.region ≠ r) :
    w.owed p (.guarded r :: ss) x = w.owed p ss x := by
  have both : ∀ c ∈ w.cleaners p x, c.region ∈ guardedBy (.guarded r :: ss) ↔ c.region ∈ guardedBy ss :=
    fun c member => List.mem_cons.trans (or_iff_right (other c member))
  have same : ((w.cleaners p x).any fun c => (guardedBy (.guarded r :: ss)).contains c.region) =
      (w.cleaners p x).any fun c => (guardedBy ss).contains c.region := by
    rw [Bool.eq_iff_iff,List.any_eq_true,List.any_eq_true]
    simp only [List.contains_iff_mem]
    exact exists_congr fun c => and_congr_right (both c)
  rw [owed,owed,same]

theorem owedFree (free : ∀ c ∈ w.covers, c.region = r → c.code = []) :
    w.owed p (.guarded r :: ss) x = w.owed p ss x := owedApart fun c member same =>
  (cleanersMem.mp member).2.1 (free c (cleanersMem.mp member).1 same)

theorem owedHere (around : guardedBy ss ⊆ p.graph.regionsAround (p.graph.node x).region) :
    w.owed p ss x = w.due p x := by
  refine Draft.owedDue fun c member inside => ?_
  have exits := (Draft.cleanersMem.mp member).2.2
  have out : x ∈ p.regionExits c.region := exits ▸ List.mem_singleton_self x
  rw [Plan.regionExits,Plan.exitsOf,List.mem_eraseDups,List.mem_flatMap] at out
  obtain ⟨n,-,here⟩ := out
  have beyond := (List.mem_filter.mp here).2
  simp only [Graph.encloses,Bool.not_eq_true',List.contains_eq_mem,decide_eq_false_iff_not] at beyond
  exact beyond (around inside)

end Draft

/-! ### What is run of a node -/

variable {g : Graph} {i j : Nat} {n : NodeId} {k k' : Tasks} {us ts rest : List Stmt}

theorem dropBeats {m : Int} {a : Jump} : Drifts w.turn (.jump a :: beats m us k) (.jump a :: k) := by
  induction us with
  | nil => exact .refl
  | cons u us ih => exact .head rfl ih

theorem labelSame {u t : Stmt} {m : Int} (same : u.act = t.act) (label : m = n ∨ u.act.closing? ≠ some .throw) :
    u.label m = t.label n := by
  unfold Stmt.label
  rw [← same]
  rcases label with rfl | plain
  · rfl
  · cases act : u.act <;> first | rfl | exact absurd (by rw [act]; rfl) plain

theorem closesNone {u : Stmt} (plain : u.isTest = false) (stays : u.returns = false)
    (quiet : u.act.closing? ≠ some .throw) : u.act.closing? = none := by
  unfold Stmt.isTest at plain
  unfold Stmt.returns at stays
  cases act : u.act <;> simp_all [Action.closing?]

/-- An exception of this kind leads to what the table of the region names. -/
def Lands (w : Draft) (g : Graph) (j : Nat) (fits : String → Bool) (r : Option RegionId) (k : Tasks) : Prop :=
  (g.catcher? fits r).elim (Stops w.turn k) (Plays w g j 0 k)

theorem Lands.drift {fits : String → Bool} {a : Option RegionId} (drifts : Drifts w.turn k k')
    (lands : Lands w g j fits a k') : Lands w g j fits a k := by
  unfold Lands at lands ⊢
  cases found : g.catcher? fits a with
  | none =>
    rw [found] at lands
    exact lands.drift drifts
  | some m =>
    rw [found] at lands
    exact lands.drift drifts

/-- Statements that do what the node does run as the node does, if they leave like it. -/
theorem playsBeats {m : Int} (same : us.map Stmt.act = ts.map Stmt.act) (plain : ∀ u ∈ us, u.isTest = false)
    (label : m = n ∨ ∀ u ∈ us, u.act.closing? ≠ some .throw)
    (raise : (∃ u ∈ us, u.act.closing? = some .throw ∨ u.canThrow = true) → ∀ fits, fits anyThrown = true →
      Lands w g j fits (g.node n).region (.jump (.raise fits) :: k))
    (leave : (∃ u ∈ us, u.returns = true) → Stops w.turn (.jump .leave :: k))
    (onward : (∀ u ∈ us, u.act.closing? = none) → PlaysOn w g (Plays w g j 0) n rest k) :
    PlaysOn w g (Plays w g j 0) n (ts ++ rest) (beats m us k) := by
  induction us generalizing ts with
  | nil =>
    obtain rfl := List.map_eq_nil_iff.mp same.symm
    exact onward fun _ member => absurd member List.not_mem_nil
  | cons u us ih =>
    cases ts with
    | nil => contradiction
    | cons t ts =>
      obtain ⟨here,later⟩ := List.cons.inj same
      have first : u ∈ u :: us := List.mem_cons_self ..
      have more : ∀ {v}, v ∈ us → v ∈ u :: us := List.mem_cons_of_mem _
      refine ⟨_,_,.refl,congrArg (Next.act · _) (labelSame here (label.imp_right fun none => none u first)),
        fun e => ?_⟩
      have raised : u.raises e = t.raises e := by rw [Stmt.raises,Stmt.raises,Stmt.canThrow,Stmt.canThrow,here]
      have left : u.returns = t.returns := by rw [Stmt.returns,Stmt.returns,here]
      rw [← raised,← left]
      split
      · rename_i raises
        refine (raise ⟨u,first,?_⟩ e.fits e.throwable).drift dropBeats
        simp only [Stmt.raises,Bool.or_eq_true,beq_iff_eq,Bool.and_eq_true] at raises
        exact raises.imp_right And.left
      · rename_i quiet
        split
        · rename_i returns
          exact (leave ⟨u,first,returns⟩).drift dropBeats
        · rename_i stays
          refine ih later (fun v member => plain v (more member))
            (label.imp_right fun none v member => none v (more member))
            (fun ⟨v,member,raises⟩ => raise ⟨v,more member,raises⟩)
            (fun ⟨v,member,returns⟩ => leave ⟨v,more member,returns⟩)
            fun none => onward (List.forall_mem_cons.mpr ⟨?_,none⟩)
          refine closesNone (plain u first) (by simpa using stays) fun throws => quiet ?_
          simp [Stmt.raises,throws]

/-! ### What is to be done around a place -/

def Aims (w : Draft) (p : Plan) (j : Nat) : Prop :=
  ∀ n k, w.aim? n = some k → onset k = some (n : Int) → Plays w p.graph j (w.due p n) k n

/-- What stands for the end of protected code: nothing, or the code that its only exit is without. -/
inductive Mends (w : Draft) (p : Plan) (r : RegionId) : Option (List Piece) → Prop
  | bare (free : ∀ c ∈ w.covers, c.region = r → c.code = []) : Mends w p r none
  | cleans {c : Cover} {e x : NodeId} {code : List Stmt} (member : c ∈ w.covers) (here : c.region = r)
      (only : c.cleanup = [((e : Int),code)]) (filled : code ≠ []) (entry : e ∈ p.graph.rpo)
      (cleans : Cleans p r e x code) : Mends w p r (some [.stmts .none e code])

theorem callsHere {scope : Option Key} {key : Key} {b : Bool} (same : scope = if b then some key else none)
    (called : ∀ key, scope = some key → w.name key = key.own) : w.calls (scopeText scope) key = true := by
  subst same
  cases b with
  | false => rfl
  | true => exact Bool.or_eq_true _ _ |>.mpr (.inr (beq_iff_eq.mpr (called key rfl)))

theorem Draft.Whole.callsOther (whole : w.Whole) {key other : Key} {y z : Scope} (owns : Scoped (z :: ss))
    (here : z.key? = some key) (member : y ∈ ss) (there : y.key? = some other) :
    w.calls other.own key = false := by
  obtain ⟨apart,some⟩ := whole.otherName owns here member there
  rw [Draft.calls,beq_false_of_ne some,beq_false_of_ne apart]
  rfl

/-- What is to be done carries on like the graph where jumps and exceptions lead out of the scopes around it. -/
inductive Bears (w : Draft) (p : Plan) (j : Nat) : List Scope → Tasks → Prop
  | outermost (aims : Aims w p j) : Bears w p j [] []
  | piece {ss : List Scope} {t k} (rest : Bears w p j ss k) : Bears w p j ss (.piece t :: k)
  | loop {ss : List Scope} {shape} {key : Key} {kind n c body k}
      (again : Plays w p.graph j (w.owed p ss shape.continueAt) (.loop key kind n c body :: k) shape.continueAt)
      (leaves : ∀ x, shape.follow = some x → Plays w p.graph j (w.owed p ss x) k x) (rest : Bears w p j ss k) :
      Bears w p j (.loop shape key :: ss) (.loop key kind n c body :: k)
  | switch {ss : List Scope} {n : NodeId} {follow} {key : Key} {later k}
      (leaves : ∀ x, follow = some x → Plays w p.graph j (w.owed p ss x) k x) (rest : Bears w p j ss k) :
      Bears w p j (.switch n follow key :: ss) (.switch key later :: k)
  | guard {ss : List Scope} {r : RegionId} {key : Key} {cs z k} (parent : p.graph.parentOf r = activeRegion? ss)
      (apart : ∀ q ∈ guardedBy ss, q ∈ p.graph.regionsAround (some r) ∧ q ≠ r) (mends : Mends w p r z)
      (takes : ∀ fits, fits anyThrown = true →
        ((ownHandlers p.graph r).find? (CatchEntry.Takes fits)).elim
          (caught fits cs z k = .jump (.raise fits) :: k)
          fun h => Plays w p.graph j 0 (caught fits cs z k) h.entry)
      (rest : Bears w p j ss k) : Bears w p j (.guarded r :: ss) (.guard key r cs z :: k)

theorem Shares.run {e : NodeId} (shares : Shares p c e x) : 
    (p.graph.runs x).drop (Stmt.run c.code).length = Stmt.run ((p.graph.node x).stmts.drop c.code.length) ∧
    (p.graph.runs x).take (Stmt.run c.code).length = Stmt.run ((p.graph.node x).stmts.take c.code.length) := by
  have parts : p.graph.runs x = Stmt.run ((p.graph.node x).stmts.take c.code.length) ++
      Stmt.run ((p.graph.node x).stmts.drop c.code.length) := by
    rw [← Stmt.runAppend,List.take_append_drop]
    rfl
  have long := congrArg List.length (runActs shares.acts)
  rw [List.length_map,List.length_map] at long
  rw [parts,long]
  exact ⟨List.drop_left ..,List.take_left ..⟩

theorem codeOnly {m : Int} {code : List Stmt} (only : c.cleanup = [(m,code)]) : c.code = code := by
  simp [Cover.code,only]

theorem Cleans.plain {e : NodeId} {code : List Stmt} (cleans : Cleans p r e x code)
    (closed : (p.graph.node e).Closed) : ∀ t ∈ code, t.act.closing? = none := by
  obtain ⟨first,last,-,-,stmts⟩ := cleans.handler
  have closes := closed.stmts
  rw [cleans.kind] at closes
  obtain ⟨front,a,acts,none,-⟩ := closes
  rw [stmts,← List.cons_append,List.map_append,List.map_singleton] at acts
  have same := List.append_inj_left' acts rfl
  exact fun t inside => none t.act (same ▸ List.mem_map_of_mem (List.mem_cons_of_mem _ inside))

theorem Lands.less {fits : String → Bool} {a : Option RegionId} (lands : Lands w g (j + 1) fits a k) :
    Lands w g j fits a k := by
  unfold Lands at lands ⊢
  cases found : g.catcher? fits a with
  | none =>
    rw [found] at lands
    exact lands
  | some m =>
    rw [found] at lands
    exact lands.less

/-- What the end of protected code runs is what whoever comes to its exit owes no longer. -/
theorem Mends.plays {z : Option (List Piece)} (mends : Mends w p r z) (tidy : w.Tidy p)
    (closed : ∀ n ∈ p.graph.rpo, (p.graph.node n).Closed)
    (apart : ∀ q ∈ guardedBy ss, q ∈ p.graph.regionsAround (some r) ∧ q ≠ r) (own : z ≠ none → p.regionExits r = [x])
    (raise : ∀ fits, fits anyThrown = true →
      Lands w p.graph j fits (p.graph.parentOf r) (.jump (.raise fits) :: k))
    (plays : Plays w p.graph j (w.owed p ss x) k x) :
    Plays w p.graph j (w.owed p (.guarded r :: ss) x) (push (z.getD []) k) x := by
  cases mends with
  | bare free =>
    rw [Draft.owedFree free]
    exact plays
  | @cleans c e x' code member here only filled entry cleans =>
    obtain rfl : x' = x := List.singleton_inj.mp (cleans.exits.symm.trans (own (Option.some_ne_none _)))
    subst here
    have coded := codeOnly only
    have own : c ∈ w.cleaners p x' := Draft.cleanersMem.mpr ⟨member,coded ▸ filled,cleans.exits⟩
    have shares := tidy.shares c member e code x' only cleans.exits
    have plain := cleans.plain (closed e entry)
    have beyond : ∀ d ∈ w.cleaners p x', d.region ∉ guardedBy ss := fun d also inside =>
      (apart d.region inside).2 (tidy.apart x' c own d also (apart d.region inside).1)
    rw [Draft.owedDue beyond,tidy.due own,coded] at plays
    have inside : c.region ∈ guardedBy (.guarded c.region :: ss) := List.mem_cons_self ..
    rw [Draft.owedInside own inside]
    have acts := runActs (coded ▸ shares.acts)
    have cut := coded ▸ shares.run.2
    have ran : ∀ {t}, t ∈ Stmt.run code → t ∈ code ∧ t.isTest = false := fun {t} inside => by
      obtain ⟨member,runs⟩ := List.mem_filter.mp inside
      exact ⟨member,by simpa using (Bool.and_eq_true_iff.mp runs).2⟩
    refine Plays.silent (l := beats e (Stmt.run code) k) rfl ?_
    cases j with
    | zero => trivial
    | succ j =>
      rw [Plays,List.drop_zero,← List.take_append_drop (Stmt.run code).length (p.graph.runs x'),cut]
      refine playsBeats acts (fun t inside => (ran inside).2)
        (.inr fun t inside => by rw [plain t (ran inside).1]; exact nofun)
        (fun ⟨t,inside,raises⟩ fits throwable => ?_) (fun ⟨t,inside,returns⟩ => ?_) fun _ => plays
      · have throws := raises.resolve_left (by rw [plain t (ran inside).1]; exact nofun)
        rw [shares.around (coded ▸ List.any_eq_true.mpr ⟨t,(ran inside).1,throws⟩)]
        exact (raise fits throwable).less
      · rw [Stmt.returns,plain t (ran inside).1] at returns
        contradiction

theorem catcherOwn (nested : g.Nested) (fits : String → Bool) (r : RegionId) : g.catcher? fits (some r) =
    (((ownHandlers g r).find? (CatchEntry.Takes fits)).map (·.entry)).or (g.catcher? fits (g.parentOf r)) := by
  cases parent : g.parentOf r with
  | none =>
    rw [Graph.catcher?,Option.bind_some,← Graph.ownAlone parent]
    exact (Option.or_none ..).symm
  | some q =>
    rw [Graph.catcher?,Option.bind_some,Graph.ownSplit nested parent,List.find?_append,Option.map_or]
    rfl

namespace Bears

theorem mono (le : i ≤ j) (bears : Bears w p j ss k) : Bears w p i ss k := by
  induction bears with
  | outermost aims => exact .outermost fun n k aim begins => (aims n k aim begins).mono le
  | piece rest ih => exact .piece ih
  | loop again leaves rest ih => exact .loop (again.mono le) (fun x here => (leaves x here).mono le) ih
  | switch leaves rest ih => exact .switch (fun x here => (leaves x here).mono le) ih
  | @guard ss r key cs z k parent apart mends takes rest ih =>
    refine .guard parent apart mends (fun fits throwable => ?_) ih
    have takes := takes fits throwable
    cases own : (ownHandlers p.graph r).find? (CatchEntry.Takes fits) with
    | none =>
      rw [own] at takes
      exact takes
    | some h =>
      rw [own] at takes
      exact takes.mono le

theorem raise (bears : Bears w p j ss k) (nested : p.graph.Nested) {fits : String → Bool}
    (throwable : fits anyThrown = true) : Lands w p.graph j fits (activeRegion? ss) (.jump (.raise fits) :: k) := by
  induction bears with
  | outermost => exact ⟨_,.refl,rfl⟩
  | piece rest ih | loop again leaves rest ih | switch leaves rest ih => exact ih.drift (.single rfl)
  | @guard ss r key cs z k parent apart mends takes rest ih =>
    refine Lands.drift (.single rfl : Drifts w.turn _ (caught fits cs z k)) ?_
    have takes := takes fits throwable
    show Lands w p.graph j fits (some r) _
    rw [Lands,catcherOwn nested]
    cases own : (ownHandlers p.graph r).find? (CatchEntry.Takes fits) with
    | none =>
      rw [own] at takes
      rw [show caught fits cs z k = _ from takes,parent]
      exact ih
    | some h =>
      rw [own] at takes
      exact takes

theorem leave (bears : Bears w p j ss k) (free : ∀ c ∈ w.covers, c.code ≠ [] → c.region ∉ guardedBy ss) :
    Stops w.turn (.jump .leave :: k) := by
  induction bears with
  | outermost => exact ⟨_,.refl,rfl⟩
  | piece rest ih | loop again leaves rest ih | switch leaves rest ih => exact (ih free).drift (.single rfl)
  | @guard ss r key cs z k parent apart mends takes rest ih =>
    have outer := ih fun c member some inside => free c member some (List.mem_cons_of_mem _ inside)
    cases mends with
    | bare none => exact outer.drift (.single rfl)
    | @cleans c e x code member here only filled entry cleans =>
      refine absurd (here ▸ List.mem_cons_self ..) (free c member ?_)
      rwa [codeOnly only]

variable {scope : Option Key} {t : NodeId}

theorem goto (bears : Bears w p j ss k) (tidy : w.Tidy p) (nested : p.graph.Nested)
    (closed : ∀ n ∈ p.graph.rpo, (p.graph.node n).Closed) (stands : w.stands t = true)
    (leads : w.leads p t k = true) : Plays w p.graph j (w.owed p ss t) (.jump (.goto t) :: k) t := by
  induction bears with
  | outermost aims =>
    obtain ⟨k,aim,begins⟩ := Option.any_eq_true _ _ |>.mp stands
    rw [Draft.owedOutermost]
    refine (aims t k aim (beq_iff_eq.mp begins)).silent ?_
    show (w.aim? t).elim Next.stuck Next.silent = _
    rw [aim]
    rfl
  | piece rest ih | loop again leaves rest ih | switch leaves rest ih =>
    exact (ih leads).silent rfl
  | @guard ss r key cs z k parent apart mends takes rest ih =>
    have raise : ∀ fits, fits anyThrown = true → Lands w p.graph j fits (p.graph.parentOf r)
        (.jump (.raise fits) :: .jump (.goto t) :: k) := fun fits throwable =>
      parent ▸ (rest.raise nested throwable).drift (.single rfl)
    cases z with
    | none =>
      refine Plays.silent (l := .jump (.goto t) :: k) ?_
        (mends.plays tidy closed apart (fun some => absurd rfl some) raise (ih leads))
      show Next.silent (if w.holds key t then _ else _) = _
      split <;> rfl
    | some z =>
      obtain ⟨here,leads⟩ := Bool.and_eq_true_iff.mp (show (_ && _) = true from leads)
      have inner := ih leads
      cases holds : w.holds key t with
      | false =>
        rw [holds] at here
        refine Plays.silent ?_ (mends.plays tidy closed apart (fun _ => by simpa using here) raise inner)
        show Next.silent (if w.holds key t then _ else _) = _
        rw [holds]
        rfl
      | true =>
        rw [holds] at here
        have other : p.regionExits r ≠ [t] := by simpa using here
        rw [Draft.owedApart fun c member same => other (by rw [← same]; exact (Draft.cleanersMem.mp member).2.2)]
        refine inner.silent ?_
        show Next.silent (if w.holds key t then _ else _) = _
        rw [holds]
        rfl

theorem breaks (bears : Bears w p j ss k) (whole : w.Whole) (owns : Scoped ss) {inLoop inBreakable : Bool}
    (jump : jumpOut? t inLoop inBreakable ss = some (.breakTo scope))
    (called : ∀ key, scope = some key → w.name key = key.own)
    (stays : w.stays (scopeText scope) false k = true) :
    Plays w p.graph j (w.owed p ss t) (.jump (.breakTo (scopeText scope)) :: k) t := by
  induction bears generalizing inLoop inBreakable with
  | outermost => contradiction
  | piece rest ih => exact (ih owns jump stays).silent rfl
  | @loop ss shape key kind n c body k again leaves rest ih =>
    rw [jumpOut?] at jump
    split at jump
    · simp at jump
    · split at jump
      · rename_i follow
        refine (leaves t (beq_iff_eq.mp follow)).silent ?_
        show Next.silent (if w.calls _ key then _ else _) = _
        rw [callsHere (Route.breakTo.inj (Option.some.inj jump)).symm called]
        rfl
      · obtain ⟨other,same,z,member,there⟩ := jumpNames (.inl ⟨rfl,jump⟩)
        have past : w.calls (scopeText scope) key = false := same ▸ whole.callsOther owns rfl member there
        refine Plays.silent (l := .jump (.breakTo (scopeText scope)) :: k) ?_
          (ih owns.tail jump (by rwa [Draft.stays,past,Bool.false_or] at stays))
        show Next.silent (if w.calls _ key then _ else _) = _
        rw [past]
        rfl
  | @switch ss n follow key later k leaves rest ih =>
    rw [jumpOut?] at jump
    split at jump
    · rename_i follow
      refine (leaves t (beq_iff_eq.mp follow)).silent ?_
      show Next.silent (if w.calls _ key then _ else _) = _
      rw [callsHere (Route.breakTo.inj (Option.some.inj jump)).symm called]
      rfl
    · obtain ⟨other,same,z,member,there⟩ := jumpNames (.inl ⟨rfl,jump⟩)
      have past : w.calls (scopeText scope) key = false := same ▸ whole.callsOther owns rfl member there
      refine Plays.silent (l := .jump (.breakTo (scopeText scope)) :: k) ?_
        (ih owns.tail jump (by rwa [Draft.stays,past,Bool.and_false,Bool.false_or] at stays))
      show Next.silent (if w.calls _ key then _ else _) = _
      rw [past]
      rfl
  | @guard ss r key cs z k parent apart mends takes rest ih =>
    cases mends with
    | cleans => contradiction
    | bare free =>
      rw [Draft.owedFree free]
      exact (ih owns.tail jump stays).silent rfl

theorem continues (bears : Bears w p j ss k) (whole : w.Whole) (owns : Scoped ss) {inLoop inBreakable : Bool}
    (jump : jumpOut? t inLoop inBreakable ss = some (.continueTo scope))
    (called : ∀ key, scope = some key → w.name key = key.own)
    (stays : w.stays (scopeText scope) true k = true) :
    Plays w p.graph j (w.owed p ss t) (.jump (.continueTo (scopeText scope)) :: k) t := by
  induction bears generalizing inLoop inBreakable with
  | outermost => contradiction
  | piece rest ih => exact (ih owns jump stays).silent rfl
  | @loop ss shape key kind n c body k again leaves rest ih =>
    rw [jumpOut?] at jump
    split at jump
    · rename_i here
      subst here
      refine again.silent ?_
      show Next.silent (if w.calls _ key then _ else _) = _
      rw [callsHere (Route.continueTo.inj (Option.some.inj jump)).symm called]
      rfl
    · split at jump
      · simp at jump
      · obtain ⟨other,same,z,member,there⟩ := jumpNames (.inr ⟨rfl,jump⟩)
        have past : w.calls (scopeText scope) key = false := same ▸ whole.callsOther owns rfl member there
        refine Plays.silent (l := .jump (.continueTo (scopeText scope)) :: k) ?_
          (ih owns.tail jump (by rwa [Draft.stays,past,Bool.false_or] at stays))
        show Next.silent (if w.calls _ key then _ else _) = _
        rw [past]
        rfl
  | @switch ss n follow key later k leaves rest ih =>
    rw [jumpOut?] at jump
    split at jump
    · simp at jump
    · exact (ih owns.tail jump stays).silent rfl
  | @guard ss r key cs z k parent apart mends takes rest ih =>
    cases mends with
    | cleans => contradiction
    | bare free =>
      rw [Draft.owedFree free]
      exact (ih owns.tail jump stays).silent rfl

end Bears

/-! ### The code of a node -/

theorem Took.own {policy : Policy} {ls : List Cover} {ss : List Stmt} (readied : g.Readied)
    (took : Took (Plan.ofGraph g (Dominators.ofGraph g) policy) {} (deedsAll [] w.body) w.state)
    (guards : Guards (Plan.ofGraph g (Dominators.ofGraph g) policy) (deedsAll [] w.body))
    (tidy : w.Tidy (Plan.ofGraph g (Dominators.ofGraph g) policy)) (member : n ∈ g.rpo)
    (code : (ls,.code n ss) ∈ deedsAll [] w.body) :
    Stmt.run ss = (g.runs n).drop (w.due (Plan.ofGraph g (Dominators.ofGraph g) policy) n) := by
  obtain ⟨m,same,-,left,rfl,among,others⟩ := took.code ls n ss code
  obtain rfl : n = m := Int.ofNat_inj.mp same
  have distinct := readied.spaced.each n (readied.rpo ▸ member)
  -- A statement that is run is left out for a copy only: the one that receives an exception comes first.
  have why : ∀ t ∈ (g.node n).stmts, t.receives = false → t.loc ∈ left → ∃ c ∈
      w.cleaners (Plan.ofGraph g (Dominators.ofGraph g) policy) n,
        t.loc ∈ spared (Plan.ofGraph g (Dominators.ofGraph g) policy) c n := by
    intro t inside runs here
    obtain fresh | ⟨u,-,skips⟩ := took.origin t.loc (among t.loc here)
    · exact absurd fresh List.not_mem_nil
    obtain rfl := skips.home readied guards member (List.mem_map_of_mem inside)
    obtain ⟨k,c,guard,⟨-,v,caught⟩ | ⟨exits,spared⟩⟩ := skips
    · obtain ⟨first,rest,stmts,receives,loc⟩ := caughtReceives caught
      have first' : first ∈ (g.node u).stmts := stmts ▸ List.mem_cons_self ..
      rw [List.inj_on_of_nodup_map distinct first' inside loc,runs] at receives
      contradiction
    · refine ⟨c,Draft.cleanersMem.mpr ⟨Draft.coversMem.mpr ⟨k,guard⟩,fun none => ?_,exits⟩,spared⟩
      rw [Recovery.spared,none] at spared
      exact absurd spared List.not_mem_nil
  cases found : w.cleaners (Plan.ofGraph g (Dominators.ofGraph g) policy) n with
  | nil =>
    have whole : Stmt.run ((g.node n).stmts.filter fun t => !left.contains t.loc) = g.runs n := by
      unfold Stmt.run Graph.runs
      rw [List.filter_comm]
      refine List.filter_eq_self.mpr fun t inside => ?_
      obtain ⟨here,runs⟩ := List.mem_filter.mp inside
      by_contra lacks
      obtain ⟨c,cleans,-⟩ := why t here (by simpa using (Bool.and_eq_true_iff.mp runs).1) (by simpa using lacks)
      rw [found] at cleans
      contradiction
    rw [Draft.dueNone found]
    exact whole
  | cons c cs =>
    have own : c ∈ w.cleaners (Plan.ofGraph g (Dominators.ofGraph g) policy) n := found ▸ List.mem_cons_self ..
    obtain ⟨covered,filled,exits⟩ := Draft.cleanersMem.mp own
    obtain ⟨k,guard⟩ := Draft.coversMem.mp covered
    have shares : ∃ e, Shares (Plan.ofGraph g (Dominators.ofGraph g) policy) c e n := by
      rcases (took.guards k c guard).1.cleanup with none | ⟨e,out,code,only,-⟩
      · exact absurd (by rw [Cover.code,none]; rfl) filled
      · exact ⟨e,tidy.shares c covered e code n only exits⟩
    obtain ⟨e,shares⟩ := shares
    have copied : ∀ l ∈ spared (Plan.ofGraph g (Dominators.ofGraph g) policy) c n, l ∈ left := by
      intro l inside
      have home := (List.take_sublist _ _).map _ |>.subset inside
      refine (others l ((took.guards k c guard).2 n exits l inside)).resolve_right ?_
      rintro ⟨u,other,skips⟩
      exact other (skips.home readied guards member home)
    rw [tidy.due own]
    show Stmt.run ((g.node n).stmts.filter fun t => !left.contains t.loc) =
      (g.runs n).drop (Stmt.run c.code).length
    rw [show (g.runs n).drop (Stmt.run c.code).length = _ from shares.run.1]
    have parts := List.take_append_drop c.code.length (g.node n).stmts
    have none : ((g.node n).stmts.take c.code.length).filter (fun t => !left.contains t.loc) = [] :=
      List.filter_eq_nil_iff.mpr fun t inside => by simpa using copied t.loc (List.mem_map_of_mem inside)
    have apart : (((g.node n).stmts.take c.code.length).map (·.loc) ++
        ((g.node n).stmts.drop c.code.length).map (·.loc)).Nodup := by
      rw [← List.map_append,parts]
      exact distinct
    rw [← parts,List.filter_append,none,List.nil_append]
    unfold Stmt.run
    rw [List.filter_comm]
    refine List.filter_eq_self.mpr fun t inside => ?_
    obtain ⟨here,runs⟩ := List.mem_filter.mp inside
    by_contra lacks
    obtain ⟨c',also,early⟩ := why t (List.mem_of_mem_drop here) (by simpa using (Bool.and_eq_true_iff.mp runs).1)
      (by simpa using lacks)
    have even := congrArg List.length (tidy.even n c own c' also)
    rw [List.length_map,List.length_map] at even
    rw [Recovery.spared,even] at early
    exact (List.nodup_append.mp apart).2.2 _ early _ (List.mem_map_of_mem here) rfl

/-! ### Labels and jumps in some code -/

mutual

theorem spotsBegin : (t : Piece) → ∀ x ∈ spots t, ∃ u k, x.2 = .piece u :: k
  | .block _ body => spotsBeginAll body
  | .branch _ _ _ a none => spotsBeginAll a
  | .branch _ _ _ a (some b) => fun x member =>
    (List.mem_append.mp member).elim (spotsBeginAll a x) (spotsBeginAll b x)
  | .loop _ _ _ _ _ body => fun x member => by
    obtain ⟨y,inside,rfl⟩ := List.mem_map.mp member
    obtain ⟨u,k,here⟩ := spotsBeginAll body y inside
    exact ⟨u,_,by rw [here]; rfl⟩
  | .switch key _ _ arms => spotsBeginArms key arms
  | .guarded _ _ body cs _ => fun x member => by
    rcases List.mem_append.mp member with member | inside
    · obtain ⟨y,inside,rfl⟩ := List.mem_map.mp member
      obtain ⟨u,k,here⟩ := spotsBeginAll body y inside
      exact ⟨u,_,by rw [here]; rfl⟩
    · exact spotsBeginCatches cs x inside
  | .stmts _ _ _ | .goto _ _ | .breakTo _ _ | .continueTo _ _ => fun _ member => absurd member List.not_mem_nil

theorem spotsBeginAll : (ts : List Piece) → ∀ x ∈ spotsAll ts, ∃ u k, x.2 = .piece u :: k
  | [] => fun _ member => absurd member List.not_mem_nil
  | t :: ts => fun x member => by
    rcases List.mem_cons.mp member with rfl | member
    · exact ⟨t,_,rfl⟩
    · rcases List.mem_append.mp member with member | inside
      · obtain ⟨y,inside,rfl⟩ := List.mem_map.mp member
        obtain ⟨u,k,here⟩ := spotsBegin t y inside
        exact ⟨u,_,by rw [here]; rfl⟩
      · exact spotsBeginAll ts x inside

theorem spotsBeginArms (key : Key) : (arms : List (ArmHead × List Piece)) →
    ∀ x ∈ spotsArms key arms, ∃ u k, x.2 = .piece u :: k
  | [] => fun _ member => absurd member List.not_mem_nil
  | (_,body) :: rest => fun x member => by
    rcases List.mem_append.mp member with member | inside
    · obtain ⟨y,inside,rfl⟩ := List.mem_map.mp member
      obtain ⟨u,k,here⟩ := spotsBeginAll body y inside
      exact ⟨u,_,by rw [here]; rfl⟩
    · exact spotsBeginArms key rest x inside

theorem spotsBeginCatches : (cs : List (CatchHead × List Piece)) →
    ∀ x ∈ spotsCatches cs, ∃ u k, x.2 = .piece u :: k
  | [] => fun _ member => absurd member List.not_mem_nil
  | (_,body) :: rest => fun x member =>
    (List.mem_append.mp member).elim (spotsBeginAll body x) (spotsBeginCatches rest x)

end

abbrev Minded (w : Draft) (p : Plan) : List (Key × Tasks) → Tasks → Prop := Over fun k => w.minds p k = true

/-- Where a label leads that a node has, the node runs. -/
abbrev Tallies (w : Draft) (p : Plan) (j : Nat) : List (Key × Tasks) → Tasks → Prop :=
  Over fun k => ∀ n : NodeId, onset k = some (n : Int) → Plays w p.graph j (w.due p n) k n

section
variable {key : Key} {last : Piece}

theorem leadsPast (u : Piece) (front k : Tasks) :
    w.leads p n (front ++ .piece u :: k) = w.leads p n (front ++ k) := by
  induction front with
  | nil => rfl
  | cons a front ih =>
    cases a with
    | guard key r cs z => cases z <;> simp only [List.cons_append,Draft.leads,ih]
    | _ => exact ih

theorem staysPast (u : Piece) (front k : Tasks) {text : String} {again : Bool} :
    w.stays text again (front ++ .piece u :: k) = w.stays text again (front ++ k) := by
  induction front with
  | nil => rfl
  | cons a front ih =>
    cases a with
    | guard key r cs z =>
      cases z with
      | none => exact ih
      | some z => rfl
    | loop | switch => simp only [List.cons_append,Draft.stays,ih]
    | _ => exact ih

theorem mindsPast (u : Piece) (front k : Tasks) {t : Piece} :
    w.minds p (.piece t :: (front ++ .piece u :: k)) = w.minds p (.piece t :: (front ++ k)) := by
  cases t with
  | goto l text =>
    cases l with
    | aim n => simp only [Draft.minds,leadsPast]
    | _ => rfl
  | breakTo l text | continueTo l text => simp only [Draft.minds,staysPast]
  | _ => rfl

theorem mindedPast {ts us : List Piece} : Minded w p (spotsAll ts) (push us k) ↔ Minded w p (spotsAll ts) k := by
  refine forall₂_congr fun x member => ?_
  obtain ⟨t,front,here⟩ := spotsBeginAll ts x member
  rw [here]
  induction us with
  | nil => rfl
  | cons u us ih => exact Eq.to_iff (congrArg (· = true) (mindsPast u front (push us k))) |>.trans ih

theorem Minded.untrim {ts : List Piece} (minded : Minded w p (spotsAll ts) k) (none : spots last = [])
    (here : w.minds p (.piece last :: k) = true) : Minded w p (spotsAll (ts ++ [last])) k := by
  refine overJoin.mpr ⟨mindedPast.mpr minded,overCons.mpr ⟨here,?_,overNil⟩⟩
  rw [none]
  exact overNil

theorem Tallies.trim {ts : List Piece} (tallies : Tallies w p j (spotsAll (ts ++ [last])) k)
    (skims : Skims (.piece last :: k) k) : Tallies w p j (spotsAll ts) k := by
  intro x member n begins
  obtain ⟨t,front,here⟩ := spotsBeginAll ts x member
  have plays := (overJoin.mp tallies).1 x member n (by rw [here] at begins ⊢; exact begins)
  exact plays.skims (skims.above x.2)

theorem Aims.of (tallies : Tallies w p j (spotsAll w.body) []) : Aims w p j := by
  intro n k aim begins
  obtain ⟨key,-,found⟩ := Option.bind_eq_some_iff.mp aim
  obtain ⟨front,back,same,-⟩ := List.lookup_eq_some_iff.mp found
  have plays := tallies (key,k) (same ▸ List.mem_append_right _ (List.mem_cons_self ..)) n
  rw [List.append_nil] at plays
  exact plays begins

end

end Recovery

end RegCode
