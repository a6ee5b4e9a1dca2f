import RegCode.Proofs.Flow.Closing
import RegCode.Proofs.Recovery.Catching
import RegCode.Proofs.Recovery.Dispatch
import RegCode.Proofs.Recovery.Execution

/-! How graphs and structured code run, statement by statement. An exception goes to the handler that the
table names, or to the clause that takes it; whatever leaves protected code, its end, a jump or an exception,
runs the clean-up code on its way. -/
namespace RegCode

open Recovery

/-- How a test turns out, and whether a statement that can raise does, and what takes its exception. -/
structure Turnout extends Outcome where
  raises : Bool
  fits : String → Bool
  throwable : fits anyThrown = true

inductive Label where
  | ran (act : Action)
  | throws (n : Int)
  | tests (n : Int)

namespace Stmt

def isTest (t : Stmt) : Bool := t.act.closing? == some .cond || t.act.closing? == some .switch

/-- What is run of statements: receiving an exception is no step of its own, and a test is one of its node. -/
def run (ss : List Stmt) : List Stmt := ss.filter fun t => !t.receives && !t.isTest

def returns (t : Stmt) : Bool := t.act.closing? == some .ret

def raises (e : Turnout) (t : Stmt) : Bool := t.act.closing? == some .throw || t.canThrow && e.raises

def label (n : Int) (t : Stmt) : Label :=
  match t.act with
  | .throw _ => .throws n
  | act => .ran act

theorem runAppend (ss ts : List Stmt) : run (ss ++ ts) = run ss ++ run ts := List.filter_append ..

end Stmt

inductive Next (σ : Type) where
  | halt
  | stuck
  | silent (k : σ)
  | act (label : Label) (after : Turnout → σ)

section
variable {σ : Type} (turn : σ → Next σ)

/-- What is done up to where the events end, or until nothing is left to do. -/
def trace : Nat → σ → List Turnout → Option (List Label)
  | 0, _, _ => none
  | fuel + 1, k, es =>
    match turn k with
    | .halt => some []
    | .stuck => none
    | .silent k => trace fuel k es
    | .act l after =>
      match es with
      | [] => some [l]
      | e :: es => (trace fuel (after e) es).map (l :: ·)

def Traces (k : σ) (es : List Turnout) (ls : List Label) : Prop := ∃ fuel, trace turn fuel k es = some ls

def Drifts : σ → σ → Prop := Relation.ReflTransGen fun k k' => turn k = .silent k'

def Stops (k : σ) : Prop := ∃ k', Drifts turn k k' ∧ turn k' = .halt

variable {turn} {k k' : σ} {es : List Turnout} {ls : List Label}

theorem Traces.drift (drifts : Drifts turn k k') (traces : Traces turn k' es ls) : Traces turn k es ls := by
  induction drifts using Relation.ReflTransGen.head_induction_on with
  | refl => exact traces
  | head here _ ih =>
    obtain ⟨fuel,done⟩ := ih
    exact ⟨fuel + 1,by rw [trace,here]; exact done⟩

theorem Stops.drift (drifts : Drifts turn k k') (stops : Stops turn k') : Stops turn k :=
  stops.imp fun _ there => there.imp_left drifts.trans

theorem Stops.traces (stops : Stops turn k) : Traces turn k es [] := by
  obtain ⟨k',drifts,halts⟩ := stops
  exact Traces.drift drifts ⟨1,by rw [trace,halts]⟩

theorem traceMore {fuel : Nat} {k : σ} {es : List Turnout} {ls : List Label}
    (done : trace turn fuel k es = some ls) : trace turn (fuel + 1) k es = some ls := by
  induction fuel generalizing k es ls with
  | zero => contradiction
  | succ fuel ih =>
    rw [trace] at done ⊢
    cases here : turn k with
    | halt => simpa only [here] using done
    | stuck => simp only [here] at done; contradiction
    | silent k' =>
      simp only [here] at done ⊢
      exact ih done
    | act l after =>
      simp only [here] at done ⊢
      cases es with
      | nil => exact done
      | cons e es =>
        obtain ⟨more,rest,rfl⟩ := Option.map_eq_some_iff.mp done
        dsimp only
        rw [ih rest]
        rfl

theorem traceMono {a b : Nat} (le : a ≤ b) (done : trace turn a k es = some ls) : trace turn b k es = some ls := by
  induction le with
  | refl => exact done
  | step le ih => exact traceMore ih

/-- Runs are determined by what befalls them. -/
theorem Traces.unique {ls' : List Label} (traces : Traces turn k es ls) (also : Traces turn k es ls') : ls = ls' := by
  obtain ⟨i,left⟩ := traces
  obtain ⟨j,right⟩ := also
  exact Option.some.inj ((traceMono (Nat.le_max_left i j) left).symm.trans
    (traceMono (Nat.le_max_right i j) right))

end

namespace Graph

inductive Spot where
  | at (n : NodeId) (rest : List Stmt)
  | over

variable (g : Graph)

def runs (n : NodeId) : List Stmt := Stmt.run (g.node n).stmts

def start (n : NodeId) : Spot := .at n (g.runs n)

def catcher? (fits : String → Bool) (r : Option RegionId) : Option NodeId :=
  (r.bind fun r => (g.handlersOf r).find? (CatchEntry.Takes fits)).map (·.entry)

def handler? (fits : String → Bool) (n : NodeId) : Option NodeId := g.catcher? fits (g.node n).region

def turn : Spot → Next Spot
  | .over => .halt
  | .at n (t :: ss) => .act (t.label n) fun e =>
    if t.raises e then (g.handler? e.fits n).elim .over g.start else if t.returns then .over else .at n ss
  | .at n [] =>
    match (g.node n).kind with
    | .stmt => (g.node n).succs.head?.elim .stuck fun m => .silent (g.start m)
    | .cond | .switch => .act (.tests n) fun e => (g.after n e.toOutcome).elim .over g.start
    | .ret | .throw => .halt

end Graph

namespace Recovery

open RegCode.Tree

inductive Jump where
  | leave
  | breakTo (text : String)
  | continueTo (text : String)
  | goto (n : NodeId)
  | raise (fits : String → Bool)

/-- A layer of what is to be done. Protected code stands below what is done of it. -/
inductive Task where
  | piece (t : Piece)
  | beat (n : Int) (t : Stmt)
  | loop (key : Key) (kind : LoopKind) (node : Int) (cond : Option Test) (body : List Piece)
  | switch (key : Key) (later : List (List Piece))
  | guard (key : Key) (region : RegionId) (clauses : List (CatchHead × List Piece)) (cleanup : Option (List Piece))
  | again (n : Int)
  | jump (j : Jump)

abbrev Tasks := List Task

def push (ts : List Piece) (k : Tasks) : Tasks := ts.map .piece ++ k

theorem pushAppend (ts us : List Piece) (k : Tasks) : push (ts ++ us) k = push ts (push us k) := by
  simp [push]

mutual

/-- Where a jump to a label can lead: no label is in clean-up code. -/
def spots : Piece → List (Key × Tasks)
  | .block _ body => spotsAll body
  | .branch _ _ _ a none => spotsAll a
  | .branch _ _ _ a (some b) => spotsAll a ++ spotsAll b
  | .loop key kind n _ c body => (spotsAll body).map fun x => (x.1,x.2 ++ [.loop key kind n c body])
  | .switch key _ _ arms => spotsArms key arms
  | .guarded key r body cs z =>
    (spotsAll body).map (fun x => (x.1,x.2 ++ [.guard key r cs z])) ++ spotsCatches cs
  | .stmts _ _ _ | .goto _ _ | .breakTo _ _ | .continueTo _ _ => []

def spotsAll : List Piece → List (Key × Tasks)
  | [] => []
  | t :: ts => (t.label,push (t :: ts) []) :: (spots t).map (fun x => (x.1,x.2 ++ push ts [])) ++ spotsAll ts

def spotsArms (key : Key) : List (ArmHead × List Piece) → List (Key × Tasks)
  | [] => []
  | (_,body) :: rest =>
    (spotsAll body).map (fun x => (x.1,x.2 ++ [.switch key (rest.map (·.2))])) ++ spotsArms key rest

def spotsCatches : List (CatchHead × List Piece) → List (Key × Tasks)
  | [] => []
  | (_,body) :: rest => spotsAll body ++ spotsCatches rest

end

theorem spotsAppend (ts us : List Piece) :
    spotsAll (ts ++ us) = (spotsAll ts).map (fun x => (x.1,x.2 ++ push us [])) ++ spotsAll us := by
  induction ts with
  | nil => rfl
  | cons t ts ih => simp [spotsAll,ih,push]

def enter (key : Key) (k : Tasks) : List (ArmHead × List Piece) → Tasks
  | [] => k
  | a :: rest => push a.2 (.switch key (rest.map (·.2)) :: k)

def beats (n : Int) (ss : List Stmt) (k : Tasks) : Tasks := ss.map (.beat n) ++ k

/-- What takes an exception that leaves protected code. -/
def caught (fits : String → Bool) (clauses : List (CatchHead × List Piece)) (cleanup : Option (List Piece))
    (k : Tasks) : Tasks :=
  match clauses.find? fun c => c.1.types.any fits with
  | some c => push c.2 k
  | none => cleanup.elim (.jump (.raise fits) :: k) fun z => push z (.again ((beginsAll z).getD (-1)) :: k)

def unfolds (k : Tasks) : Piece → Next Tasks
  | .block _ body => .silent (push body k)
  | .stmts _ n ss => .silent (beats n (Stmt.run ss) k)
  | .branch _ n c a b => .act (.tests n) fun e => push (if e.holds c then a else b.getD []) k
  | .loop key .pretest n _ c body => .silent (.loop key .pretest n c body :: k)
  | .loop key kind n _ c body => .silent (push body (.loop key kind n c body :: k))
  | .switch key n v arms => .act (.tests n) fun e => enter key k (chosen (e.value v) arms)
  | .guarded key r body cs z => .silent (push body (.guard key r cs z :: k))
  | .goto (.aim n) _ => .silent (.jump (.goto n) :: k)
  | .goto _ _ => .stuck
  | .breakTo _ text => .silent (.jump (.breakTo text) :: k)
  | .continueTo _ text => .silent (.jump (.continueTo text) :: k)

namespace Draft

variable (w : Draft)

def aim? (n : NodeId) : Option Tasks :=
  (w.state.placed.get? n).bind fun key => (spotsAll w.body).lookup key

def calls (text : String) (key : Key) : Bool := text == "" || w.name key == text

/-- A jump to the node's label leads into the protected code. -/
def holds (key : Key) (n : NodeId) : Bool := (w.aim? n).any fun k => k.any fun
  | .guard own _ _ _ => own == key
  | _ => false

def leap (j : Jump) : Tasks → Next Tasks
  | [] =>
    match j with
    | .goto n => (w.aim? n).elim .stuck .silent
    | .leave | .raise _ => .halt
    | .breakTo _ | .continueTo _ => .stuck
  | .loop key kind n c body :: k => .silent <|
    match j with
    | .breakTo text => if w.calls text key then k else .jump j :: k
    | .continueTo text => if w.calls text key then .loop key kind n c body :: k else .jump j :: k
    | _ => .jump j :: k
  | .switch key _ :: k => .silent <|
    match j with
    | .breakTo text => if w.calls text key then k else .jump j :: k
    | _ => .jump j :: k
  | .guard key _ clauses cleanup :: k => .silent <|
    match j with
    | .raise fits => caught fits clauses cleanup k
    | .goto n => if w.holds key n then .jump j :: k else push (cleanup.getD []) (.jump j :: k)
    | _ => push (cleanup.getD []) (.jump j :: k)
  | _ :: k => .silent (.jump j :: k)

def turn : Tasks → Next Tasks
  | [] => .halt
  | .piece t :: k => unfolds k t
  | .beat n t :: k => .act (t.label n) fun e =>
    if t.raises e then .jump (.raise e.fits) :: k else if t.returns then .jump .leave :: k else k
  | .loop key .endless n c body :: k => .silent (push body (.loop key .endless n c body :: k))
  | .loop key kind n c body :: k => .act (.tests n) fun e =>
    if e.holds (c.getD default) then push body (.loop key kind n c body :: k) else k
  | .switch _ [] :: k => .silent k
  | .switch key (b :: later) :: k => .silent (push b (.switch key later :: k))
  | .guard _ _ _ cleanup :: k => .silent (push (cleanup.getD []) k)
  | .again n :: k => .act (.throws n) fun e => .jump (.raise e.fits) :: k
  | .jump j :: k => w.leap j k

end Draft

/-! ### Playing a graph -/

section
variable (w : Draft) (g : Graph)

/-- The rest of a node is done as the graph does it, and so is what the graph goes on with. -/
def PlaysOn (After : Tasks → NodeId → Prop) (n : NodeId) : List Stmt → Tasks → Prop
  | [], k =>
    match (g.node n).kind with
    | .stmt => ∃ m, (g.node n).succs.head? = some m ∧ After k m
    | .cond | .switch => ∃ k' after, Drifts w.turn k k' ∧ w.turn k' = .act (.tests n) after ∧
        ∀ e, (g.after n e.toOutcome).elim (Stops w.turn (after e)) (After (after e))
    | .ret | .throw => Stops w.turn k
  | t :: ss, k => ∃ k' after, Drifts w.turn k k' ∧ w.turn k' = .act (t.label n) after ∧ ∀ e,
      if t.raises e then (g.handler? e.fits n).elim (Stops w.turn (after e)) (After (after e))
      else if t.returns then Stops w.turn (after e) else PlaysOn After n ss (after e)

/-- The node from its statement of that number on, and all that follows it, for so many nodes. -/
def Plays : Nat → Nat → Tasks → NodeId → Prop
  | 0, _, _, _ => True
  | j + 1, d, k, n => PlaysOn w g (Plays j 0) n ((g.runs n).drop d) k

variable {w g} {After Later : Tasks → NodeId → Prop} {n : NodeId} {ss : List Stmt} {k k' : Tasks} {i j d : Nat}

theorem PlaysOn.imp (more : ∀ k m, After k m → Later k m) (plays : PlaysOn w g After n ss k) :
    PlaysOn w g Later n ss k := by
  have onward : ∀ {x : Option NodeId} {k}, x.elim (Stops w.turn k) (After k) → x.elim (Stops w.turn k) (Later k) := by
    intro x k here
    cases x with
    | none => exact here
    | some m => exact more k m here
  induction ss generalizing k with
  | nil =>
    rw [PlaysOn] at plays ⊢
    cases kind : (g.node n).kind with
    | stmt =>
      simp only [kind] at plays ⊢
      exact plays.imp fun m here => here.imp_right (more k m)
    | cond | switch =>
      simp only [kind] at plays ⊢
      obtain ⟨k',after,drifts,here,goes⟩ := plays
      exact ⟨k',after,drifts,here,fun e => onward (goes e)⟩
    | ret | throw =>
      simp only [kind] at plays ⊢
      exact plays
  | cons t ss ih =>
    obtain ⟨k',after,drifts,here,goes⟩ := plays
    refine ⟨k',after,drifts,here,fun e => ?_⟩
    have goes := goes e
    split at goes <;> rename_i raised
    · rw [if_pos raised]
      exact onward goes
    · rw [if_neg raised]
      split at goes <;> rename_i left
      · rw [if_pos left]
        exact goes
      · rw [if_neg left]
        exact ih goes

theorem PlaysOn.drift (before : ∀ k k' m, Drifts w.turn k k' → After k' m → After k m)
    (drifts : Drifts w.turn k k') (plays : PlaysOn w g After n ss k') : PlaysOn w g After n ss k := by
  cases ss with
  | nil =>
    rw [PlaysOn] at plays ⊢
    cases kind : (g.node n).kind with
    | stmt =>
      simp only [kind] at plays ⊢
      exact plays.imp fun m here => here.imp_right (before k k' m drifts)
    | cond | switch =>
      simp only [kind] at plays ⊢
      obtain ⟨k'',after,rest,here,goes⟩ := plays
      exact ⟨k'',after,drifts.trans rest,here,goes⟩
    | ret | throw =>
      simp only [kind] at plays ⊢
      exact plays.drift drifts
  | cons t ss =>
    obtain ⟨k'',after,rest,here,goes⟩ := plays
    exact ⟨k'',after,drifts.trans rest,here,goes⟩

namespace Plays

theorem drift (drifts : Drifts w.turn k k') (plays : Plays w g j d k' n) : Plays w g j d k n := by
  induction j generalizing d k k' n with
  | zero => trivial
  | succ j ih => exact PlaysOn.drift (fun _ _ _ => ih) drifts plays

theorem silent {l : Tasks} (step : w.turn k = .silent l) (plays : Plays w g j d l n) : Plays w g j d k n :=
  plays.drift (.single step)

theorem less (plays : Plays w g (j + 1) d k n) : Plays w g j d k n := by
  induction j generalizing d k n with
  | zero => trivial
  | succ j ih => exact PlaysOn.imp (fun _ _ => ih) plays

theorem mono (le : i ≤ j) (plays : Plays w g j d k n) : Plays w g i d k n := by
  induction le with
  | refl => exact plays
  | step _ ih => exact ih plays.less

end Plays

end

end Recovery

end RegCode

/-! What runs alike: a jump at the end of a list that leads where the end leads may be left out. -/
namespace RegCode.Recovery

inductive Skims : Tasks → Tasks → Prop where
  | same {k} : Skims k k
  | under {a k k'} (rest : Skims k k') : Skims (a :: k) (a :: k')
  | again {l key kind n c body k} :
      Skims (.piece (.continueTo l "") :: .loop key kind n c body :: k) (.loop key kind n c body :: k)
  | continues {key kind n c body k} :
      Skims (.jump (.continueTo "") :: .loop key kind n c body :: k) (.loop key kind n c body :: k)
  | out {l key k} : Skims (.piece (.breakTo l "") :: .switch key [] :: k) (.switch key [] :: k)
  | breaks {key k} : Skims (.jump (.breakTo "") :: .switch key [] :: k) (.switch key [] :: k)

theorem Skims.above (front : Tasks) {k k' : Tasks} (skims : Skims k k') : Skims (front ++ k) (front ++ k') := by
  induction front with
  | nil => exact skims
  | cons a front ih => exact .under ih

def Next.Skims : Next Tasks → Next Tasks → Prop
  | .halt,.halt | .stuck,.stuck => True
  | .silent k,.silent k' => Recovery.Skims k k'
  | .act l after,.act l' after' => l = l' ∧ ∀ e, Recovery.Skims (after e) (after' e)
  | _,_ => False

theorem Next.Skims.refl (m : Next Tasks) : Next.Skims m m := by
  cases m with
  | halt | stuck => trivial
  | silent k => exact Recovery.Skims.same
  | act l after => exact ⟨rfl,fun _ => .same⟩

namespace Draft

variable {w : Draft} {g : Graph} {i d : Nat} {k k' : Tasks} {n : NodeId} {ss : List Stmt}

theorem unfoldsSkims (skims : Skims k k') (t : Piece) : Next.Skims (unfolds k t) (unfolds k' t) := by
  cases t with
  | block l body => exact skims.above _
  | stmts l n ss => exact skims.above _
  | branch l n c a b => exact ⟨rfl,fun e => skims.above _⟩
  | loop l kind n h c body =>
    cases kind with
    | pretest => exact .under skims
    | posttest | endless => exact Skims.above _ (.under skims)
  | switch l n v arms =>
    refine ⟨rfl,fun e => ?_⟩
    dsimp only
    cases chosen (e.value v) arms with
    | nil => exact skims
    | cons a rest => exact Skims.above _ (.under skims)
  | guarded l r body cs z => exact Skims.above _ (.under skims)
  | goto l text =>
    cases l with
    | aim n => exact .under skims
    | none | part id own => trivial
  | breakTo l text | continueTo l text => exact .under skims

theorem leapSkims (j : Jump) (a : Task) (skims : Skims k k') :
    Next.Skims (w.leap j (a :: k)) (w.leap j (a :: k')) := by
  have jumps : Skims (.jump j :: k) (.jump j :: k') := .under skims
  cases a with
  | piece t | beat n t | again n | jump j' => exact jumps
  | loop key kind n c body =>
    cases j with
    | breakTo text =>
      show Skims (if w.calls text key then _ else _) (if w.calls text key then _ else _)
      split
      · exact skims
      · exact jumps
    | continueTo text =>
      show Skims (if w.calls text key then _ else _) (if w.calls text key then _ else _)
      split
      · exact .under skims
      · exact jumps
    | leave | goto n | raise fits => exact jumps
  | switch key later =>
    cases j with
    | breakTo text =>
      show Skims (if w.calls text key then _ else _) (if w.calls text key then _ else _)
      split
      · exact skims
      · exact jumps
    | leave | continueTo text | goto n | raise fits => exact jumps
  | guard key r cs z =>
    cases j with
    | raise fits =>
      show Skims (caught fits cs z k) (caught fits cs z k')
      unfold caught
      split
      · exact skims.above _
      · cases z with
        | none => exact jumps
        | some z => exact Skims.above _ (.under skims)
    | goto n =>
      show Skims (if w.holds key n then _ else _) (if w.holds key n then _ else _)
      split
      · exact jumps
      · exact jumps.above _
    | leave | breakTo text | continueTo text => exact jumps.above _

theorem turnSkims (skims : Skims k k') : (∃ r r', w.turn k = .silent r ∧ Drifts w.turn k' r' ∧ Skims r r') ∨
    Next.Skims (w.turn k) (w.turn k') := by
  cases skims with
  | same => exact .inr (.refl _)
  | again => exact .inl ⟨_,_,rfl,.refl,.continues⟩
  | out => exact .inl ⟨_,_,rfl,.refl,.breaks⟩
  | continues => exact .inl ⟨_,_,rfl,.refl,.same⟩
  | breaks => exact .inl ⟨_,_,rfl,.single rfl,.same⟩
  | @under a k k' rest =>
    cases a with
    | piece t => exact .inr (unfoldsSkims rest t)
    | beat n t =>
      refine .inr ⟨rfl,fun e => ?_⟩
      dsimp only
      split
      · exact .under rest
      · split
        · exact .under rest
        · exact rest
    | loop key kind n c body =>
      cases kind with
      | endless => exact .inr (Skims.above _ (.under rest))
      | pretest | posttest =>
        refine .inr ⟨rfl,fun e => ?_⟩
        dsimp only
        split
        · exact Skims.above _ (.under rest)
        · exact rest
    | switch key later =>
      cases later with
      | nil => exact .inr rest
      | cons b later => exact .inr (Skims.above _ (.under rest))
    | guard key r cs z => exact .inr (rest.above _)
    | again n => exact .inr ⟨rfl,fun e => .under rest⟩
    | jump j =>
      cases rest with
      | same => exact .inr (.refl _)
      | under rest => exact .inr (leapSkims j _ rest)
      | again | continues | out | breaks => exact .inl ⟨_,_,rfl,.refl,.same⟩

theorem driftsSkims (drifts : Drifts w.turn k k') :
    ∀ {r : Tasks}, Skims k r → ∃ r', Drifts w.turn r r' ∧ Skims k' r' := by
  induction drifts using Relation.ReflTransGen.head_induction_on with
  | refl => exact fun skims => ⟨_,.refl,skims⟩
  | head here _ ih =>
    intro r skims
    rcases turnSkims (w := w) skims with ⟨m,m',step,drifts,after⟩ | moves
    · cases here.symm.trans step
      obtain ⟨r',more,skims'⟩ := ih after
      exact ⟨r',drifts.trans more,skims'⟩
    · rw [here] at moves
      cases there : w.turn r with
      | silent m =>
        rw [there] at moves
        obtain ⟨r',more,skims'⟩ := ih moves
        exact ⟨r',.head there more,skims'⟩
      | halt | stuck | act l after =>
        rw [there] at moves
        exact moves.elim

theorem stopsSkims (stops : Stops w.turn k) (skims : Skims k k') : Stops w.turn k' := by
  obtain ⟨m,drifts,halts⟩ := stops
  obtain ⟨r',more,skims'⟩ := driftsSkims drifts skims
  rcases turnSkims (w := w) skims' with ⟨_,_,step,-⟩ | moves
  · rw [halts] at step
    contradiction
  · rw [halts] at moves
    refine ⟨r',more,?_⟩
    cases there : w.turn r' with
    | halt => rfl
    | stuck | silent m | act l after =>
      rw [there] at moves
      exact moves.elim

theorem actSkims {l : Label} {after : Turnout → Tasks} {r : Tasks} (drifts : Drifts w.turn k k')
    (here : w.turn k' = .act l after) (skims : Skims k r) :
    ∃ r' after', Drifts w.turn r r' ∧ w.turn r' = .act l after' ∧ ∀ e, Skims (after e) (after' e) := by
  obtain ⟨r',more,skims'⟩ := driftsSkims drifts skims
  rcases turnSkims (w := w) skims' with ⟨_,_,step,-⟩ | moves
  · rw [here] at step
    contradiction
  · rw [here] at moves
    cases there : w.turn r' with
    | act l' after' =>
      rw [there] at moves
      obtain ⟨rfl,all⟩ := moves
      exact ⟨r',after',more,there,all⟩
    | halt | stuck | silent m =>
      rw [there] at moves
      exact moves.elim

end Draft

variable {w : Draft} {g : Graph} {After : Tasks → NodeId → Prop} {j d : Nat} {k k' : Tasks} {n : NodeId}
  {ss : List Stmt}

theorem PlaysOn.skims (also : ∀ k k' m, Skims k k' → After k m → After k' m) (plays : PlaysOn w g After n ss k)
    (skims : Skims k k') : PlaysOn w g After n ss k' := by
  have onward : ∀ {x : Option NodeId} {k k'}, Skims k k' → x.elim (Stops w.turn k) (After k) →
      x.elim (Stops w.turn k') (After k') := by
    intro x k k' skims here
    cases x with
    | none => exact Draft.stopsSkims here skims
    | some m => exact also k k' m skims here
  induction ss generalizing k k' with
  | nil =>
    rw [PlaysOn] at plays ⊢
    cases kind : (g.node n).kind with
    | stmt =>
      simp only [kind] at plays ⊢
      exact plays.imp fun m here => here.imp_right (also k k' m skims)
    | cond | switch =>
      simp only [kind] at plays ⊢
      obtain ⟨_,after,drifts,here,goes⟩ := plays
      obtain ⟨r,after',more,there,all⟩ := Draft.actSkims drifts here skims
      exact ⟨r,after',more,there,fun e => onward (all e) (goes e)⟩
    | ret | throw =>
      simp only [kind] at plays ⊢
      exact Draft.stopsSkims plays skims
  | cons t ss ih =>
    obtain ⟨_,after,drifts,here,goes⟩ := plays
    obtain ⟨r,after',more,there,all⟩ := Draft.actSkims drifts here skims
    refine ⟨r,after',more,there,fun e => ?_⟩
    have goes := goes e
    split at goes <;> rename_i raised
    · rw [if_pos raised]
      exact onward (all e) goes
    · rw [if_neg raised]
      split at goes <;> rename_i left
      · rw [if_pos left]
        exact Draft.stopsSkims goes (all e)
      · rw [if_neg left]
        exact ih goes (all e)

theorem Plays.skims (plays : Plays w g j d k n) (skims : Skims k k') : Plays w g j d k' n := by
  induction j generalizing d k k' n with
  | zero => trivial
  | succ j ih => exact PlaysOn.skims (fun _ _ _ skims plays => ih plays skims) plays skims

end RegCode.Recovery
