import RegCode.Proofs.Recovery.Keeping
import RegCode.Proofs.Recovery.Running

/-! Where code is written and what is kept there. A job moves the state on, each frame sits in the state that
its code is written in, and what a draft keeps of its graph is what one node of it can leave to. -/
namespace RegCode.Recovery

open RegCode.Tree

variable {w : Draft} {p : Plan} {i j : Nat} {f : Frame} {ss : List Scope} {k : Tasks} {n t u x : NodeId}
  {s s₀ s₁ s' : State} {key : Key} {r : RegionId}

/-! ### States -/

structure Moves (p : Plan) (s s' : State) : Prop where
  seen : ∀ n, s.Seen n → s'.Seen n
  known : Known p s → Known p s'
  later : Later s s'

namespace Moves

theorem trans (first : Moves p s s₁) (second : Moves p s₁ s') : Moves p s s' :=
  ⟨fun n met => second.seen n (first.seen n met),second.known ∘ first.known,first.later.trans second.later⟩

theorem placed (s : State) (n : NodeId) (key : Key) : Moves p s (s.place n key) :=
  ⟨fun m => (State.seenPlace m).mpr,fun known => known.same (s.regionsPlace n key),laterPlace s n key⟩

theorem marked {m : Mark} (s : State) (n : NodeId) (met : m ≠ .unvisited) : Moves p s (s.setMark n m) :=
  ⟨fun k here => (State.seenSetMark met k).mpr (.inl here),fun known => known.same rfl,.quiet rfl rfl fun _ => id⟩

theorem quiet (marks : s'.marks = s.marks) (regions : s'.regions = s.regions) (placed : s'.placed = s.placed)
    (names : s'.names = s.names) (wanted : s'.wanted = s.wanted) : Moves p s s' :=
  ⟨fun n met => by rwa [State.Seen,State.mark,marks],fun known => known.same regions,
    .quiet placed names fun _ => wanted ▸ id⟩

theorem begun (s : State) (n : NodeId) (own : String) : Moves p s (s.bump.place n (s.key own)) :=
  (quiet rfl rfl rfl rfl rfl : Moves p s s.bump).trans (placed s.bump n (s.key own))

theorem statement (s : State) (n : NodeId) (ss : List Stmt) : Moves p s (s.statement n ss).2 :=
  (begun s n "").trans (marked _ n (by decide))

theorem enter (s : State) (n : NodeId) (own : String) (follow : Option NodeId) : Moves p s (s.enter n own follow) :=
  ((begun s n own).trans (marked _ n (by decide))).trans (quiet rfl rfl rfl rfl rfl)

theorem released (s : State) (follow : Option NodeId) : Moves p s (s.release follow) := quiet rfl rfl rfl rfl rfl

theorem leave (s : State) (n : NodeId) (follow : Option NodeId) : Moves p s (s.leave n follow) :=
  (released s follow).trans (marked _ n (by decide))

theorem openLoop (s : State) (n : NodeId) : Moves p s (s.openLoop n) := begun s n (loopName n)

theorem openGuard (s : State) (n : NodeId) (follow : Option NodeId) : Moves p s (s.openGuard n follow) :=
  (begun s n "").trans (quiet rfl rfl rfl rfl rfl)

theorem opened {c : Clauses} (s : State) (fits : c.Fits (ownGroups p r)) : Moves p s (s.openRegion r c) :=
  ⟨fun _ => id,fun known => known.opened fits,.quiet rfl rfl fun _ => id⟩

theorem cleaned {entry : NodeId} (copy : List Loc) (key : Key) (s : State)
    (fits : (Clauses.cleanup entry).Fits (ownGroups p r)) : Moves p s (s.cleaned r entry copy key) := by
  have skipped : Moves p s ((s.openRegion r (.cleanup entry)).skip copy) :=
    (opened s fits).trans (quiet rfl rfl rfl rfl rfl)
  exact (skipped.trans (placed _ entry key)).trans (marked _ entry (by decide))

theorem named (s : State) (scope : Option Key) : Moves p s (s.nameScope scope) :=
  ⟨fun n met => by rwa [State.Seen,State.mark,(s.nameScopeFields scope).1],
    fun known => known.same (s.regionsNameScope scope),laterNameScope s scope⟩

theorem jumped (s : State) (n : NodeId) : Moves p s (s.goto n).2 :=
  ⟨fun m met => by rwa [State.Seen,State.mark,(s.gotoFields n).1],fun known => known.same (s.regionsGoto n),
    laterGoto s n⟩

theorem clauses (g : Graph) (groups : List Group) (s : State) : Moves p s ((openClauses g groups).from s).2 :=
  ⟨fun n met => by rwa [State.Seen,State.mark,(openClausesFields g groups s).1],
    fun known => known.same (openClausesFits g groups s).2,strokesLater (strokesClauses [] g groups s)⟩

theorem repeated (g : Graph) (c : Clauses) (s : State) : Moves p s ((repeatClauses g c).from s).2 :=
  ⟨fun n met => by rwa [State.Seen,State.mark,repeatClausesMarks g c s],
    fun known => known.same (Still.again g c s).regions,strokesLater (strokesRepeatClauses [] g c s)⟩

end Moves

def Job.Inside (p : Plan) : Job → Prop
  | .emit f n _ => isOutside p.graph f.scopes n = false
  | _ => True

theorem Writes.moves {job : Job} (writes : Writes p job s s') (shaped : p.graph.Shaped) (tested : Tested p)
    (named : job.Named) (inside : job.Inside p) : Moves p s s' := by
  have wrote : ∀ m, s'.mark m = s.mark m ∨ s'.mark m = .finished := by
    cases job with
    | emit f n out => exact writes.covers.1.marks
    | go | goOn | each => exact writes.covers.marks
  refine ⟨fun n met => ?_,fun known => ?_,strokesLater (writes.strokes named [])⟩
  · rcases wrote n with same | done
    · rwa [State.Seen,same]
    · rw [State.Seen,done]
      decide
  · cases job with
    | emit f n out => exact (writes.places shaped tested inside known).2
    | go | goOn | each => exact (writes.places shaped tested known).2

/-! ### Places -/

/-- A frame within which a job writes: its scopes stand around the job as the regions of its nodes do. -/
structure Sits (p : Plan) (f : Frame) (s : State) : Prop where
  loops : ∀ a key, .loop a key ∈ f.scopes → key.own = loopName a.loop.header
  switches : ∀ n follow key, .switch n follow key ∈ f.scopes → s.Seen n ∧ key.own = switchName n
  names : (scopeNames f.scopes).Nodup
  around : guardedBy f.scopes = p.graph.regionsAround (activeRegion? f.scopes)
  stops : f.Listed p
  known : Known p s

namespace Sits

theorem later (sits : Sits p f s) (moves : Moves p s s') : Sits p f s' :=
  { sits with
    switches := fun n follow key member => (sits.switches n follow key member).imp_left (moves.seen n)
    known := moves.known sits.known }

theorem owned (sits : Sits p f s) : Scoped f.scopes := by
  refine ⟨sits.names,fun z member key here => ?_⟩
  match z with
  | .loop a key =>
    cases here
    exact ⟨_,.inl (sits.loops a key member)⟩
  | .switch m follow key =>
    cases here
    exact ⟨m,.inr (sits.switches m follow key member).2⟩
  | .guarded r => contradiction

theorem named (sits : Sits p f s) : f.Named := by
  intro z member key here own
  obtain ⟨n,name⟩ := sits.owned.owned z member key here
  rcases name with name | name
  · exact (namesApart n 0 0).2.2.2.1 (name.symm.trans own)
  · exact (namesApart 0 n 0).2.2.2.2 (name.symm.trans own)

theorem meets {stop fall : Option NodeId} (sits : Sits p f s) (stops : ∀ x, stop = some x → x ∈ p.graph.rpo) :
    Sits p { scopes := f.scopes, stop, fall } s := { sits with stops }

theorem side {follow : Option NodeId} (sits : Sits p f s) (meets : ∀ x, follow = some x → x ∈ p.graph.rpo) :
    Sits p (sideFrame f follow) s := by
  unfold sideFrame
  split
  · exact sits.meets meets
  · exact sits

theorem loop {a : LoopShape} {stop : Option NodeId} (sits : Sits p f s) (own : key.own = loopName a.loop.header)
    (fresh : isLoopOpen f.scopes a.loop.header = false) (stops : ∀ x, stop = some x → x ∈ p.graph.rpo) :
    Sits p { scopes := .loop a key :: f.scopes, stop } s where
  loops b other member := by
    rcases List.mem_cons.mp member with same | member
    · cases same
      exact own
    · exact sits.loops b other member
  switches m follow other member := sits.switches m follow other ((List.mem_cons.mp member).resolve_left nofun)
  names := by
    refine List.nodup_cons.mpr ⟨fun inside => ?_,sits.names⟩
    obtain ⟨z,member,here⟩ := List.mem_filterMap.mp inside
    obtain ⟨other,there,same⟩ := Option.map_eq_some_iff.mp here
    rw [own] at same
    match z with
    | .loop b _ =>
      cases there
      have header := loopNameInj (same.symm.trans (sits.loops b other member))
      rw [Bool.eq_false_iff] at fresh
      exact fresh (loopOpenIff.mpr ⟨b,other,member,header.symm⟩)
    | .switch m follow _ =>
      cases there
      exact (namesApart _ m 0).1 (same.symm.trans (sits.switches m follow other member).2)
    | .guarded r => contradiction
  around := sits.around
  stops := stops
  known := sits.known

theorem switch {follow fall : Option NodeId} (sits : Sits p f s) (moves : Moves p s s') (unmet : ¬s.Seen n)
    (met : s'.Seen n) (own : key.own = switchName n) :
    Sits p { scopes := .switch n follow key :: f.scopes, fall } s' where
  loops a other member := sits.loops a other ((List.mem_cons.mp member).resolve_left nofun)
  switches m follow other member := by
    rcases List.mem_cons.mp member with same | member
    · cases same
      exact ⟨met,own⟩
    · exact (sits.later moves).switches m follow other member
  names := by
    refine List.nodup_cons.mpr ⟨fun inside => ?_,sits.names⟩
    obtain ⟨z,member,here⟩ := List.mem_filterMap.mp inside
    obtain ⟨other,there,same⟩ := Option.map_eq_some_iff.mp here
    rw [own] at same
    match z with
    | .loop b _ =>
      cases there
      exact (namesApart _ n 0).1 ((sits.loops b other member).symm.trans same)
    | .switch m follow _ =>
      cases there
      obtain ⟨seen,name⟩ := sits.switches m follow other member
      exact unmet (switchNameInj (name.symm.trans same) ▸ seen)
    | .guarded r => contradiction
  around := sits.around
  stops := nofun
  known := (sits.later moves).known

theorem guard {stop : Option NodeId} (sits : Sits p f s) (nested : p.graph.Nested) (inside : r < p.graph.regions.size)
    (parent : activeRegion? f.scopes = p.graph.parentOf r) (stops : ∀ x, stop = some x → x ∈ p.graph.rpo) :
    Sits p (insideGuard f r stop) s where
  loops a other member := sits.loops a other ((List.mem_cons.mp member).resolve_left nofun)
  switches m follow other member := sits.switches m follow other ((List.mem_cons.mp member).resolve_left nofun)
  names := sits.names
  around := by
    show r :: guardedBy f.scopes = p.graph.regionsAround (some r)
    rw [Graph.aroundCons nested inside,sits.around,parent]
  stops := stops
  known := sits.known

theorem apart (sits : Sits p f s) (nested : p.graph.Nested) (inside : r < p.graph.regions.size)
    (parent : activeRegion? f.scopes = p.graph.parentOf r) :
    ∀ q ∈ guardedBy f.scopes, q ∈ p.graph.regionsAround (some r) ∧ q ≠ r := by
  have distinct : (p.graph.regionsAround (some r)).Nodup := Graph.chainNodup nested inside
  rw [Graph.aroundCons nested inside] at distinct ⊢
  rw [sits.around,parent]
  exact fun q around => ⟨List.mem_cons_of_mem _ around,fun same => (List.nodup_cons.mp distinct).1 (same ▸ around)⟩

end Sits

/-- What is known of a tree and of the graph that it is written for. -/
structure Kept (w : Draft) (p : Plan) : Prop where
  listed : Listed p
  shaped : p.graph.Shaped
  tested : Tested p
  fits : ∀ a ∈ p.shapes, a.Fits p.graph
  closed : ∀ n ∈ p.graph.rpo, (p.graph.node n).Closed
  ends : ∀ n ∈ p.graph.rpo, (p.graph.node n).Ends
  whole : w.Whole
  tidy : w.Tidy p
  right : ∀ c ∈ w.covers, Right p c
  used : ∀ c ∈ w.covers, InUse p.graph c.region
  own : ∀ n ∈ p.graph.rpo, ∀ ss, .code n ss ∈ deedsOf w.body →
    Stmt.run ss = (p.graph.runs n).drop (w.due p n)

namespace Kept

variable (kept : Kept w p)
include kept

theorem cleans {c : Cover} (own : c ∈ w.cleaners p x) :
    ∃ (e : NodeId) (code : List Stmt), c.cleanup = [((e : Int),code)] ∧ c.code = code ∧
      (∀ t ∈ code, t.act.closing? = none) ∧ Shares p c e x := by
  obtain ⟨member,filled,exits⟩ := Draft.cleanersMem.mp own
  rcases (kept.right c member).cleanup with none | ⟨e,out,code,only,cleans⟩
  · exact absurd (by rw [Cover.code,none]; rfl) filled
  · obtain rfl : out = x := List.singleton_inj.mp (cleans.exits.symm.trans exits)
    obtain ⟨a,group,rfl⟩ := cleans.own
    obtain ⟨h,own,entry⟩ := groupEntries group
    obtain ⟨n,here,around⟩ := kept.used c member
    have plain := cleans.plain (kept.closed _ (entry ▸ kept.listed.handlers n here c.region around h own))
    exact ⟨a.entry,code,only,codeOnly only,plain,kept.tidy.shares c member a.entry code out only exits⟩

theorem owedEdge (member : n ∈ p.graph.rpo) (around : guardedBy ss = p.graph.regionsAround (p.graph.node n).region)
    (out : x ∈ (p.graph.node n).succs) : w.owed p ss x = 0 := by
  by_cases none : w.cleaners p x = []
  · exact Draft.owedNone none
  · obtain ⟨c,own,inside⟩ := kept.tidy.sources n member x out none
    exact Draft.owedInside own (around ▸ inside)

/-- An exception never comes to a node that clean-up code stands for. -/
theorem owedHandler {q : RegionId} (member : n ∈ p.graph.rpo)
    (around : q ∈ p.graph.regionsAround (p.graph.node n).region)
    {h : CatchEntry} (own : h ∈ ownHandlers p.graph q) : w.owed p ss h.entry = 0 ∧ w.due p h.entry = 0 := by
  cases found : w.cleaners p h.entry with
  | nil => exact ⟨Draft.owedNone found,Draft.dueNone found⟩
  | cons c cs =>
    obtain ⟨e,code,-,-,-,shares⟩ := kept.cleans (found ▸ List.mem_cons_self .. : c ∈ w.cleaners p h.entry)
    cases region : (p.graph.node n).region with
    | none =>
      rw [region,Graph.aroundNone] at around
      exact absurd around List.not_mem_nil
    | some r =>
      refine absurd rfl (shares.caught n member r region h ?_)
      rw [Graph.handlersAround kept.shaped.nested (kept.shaped.inside n r region)]
      exact List.mem_flatMap.mpr ⟨q,region ▸ around,own⟩

theorem stmtsClosed (member : n ∈ p.graph.rpo) {t : Stmt} (inside : t ∈ (p.graph.node n).stmts)
    (closes : t.act.closing? ≠ none) : t.act.closing? = (p.graph.node n).kind.closing? := by
  have shape := (kept.closed n member).stmts
  cases kind : (p.graph.node n).kind.closing? with
  | none =>
    rw [kind] at shape
    exact absurd (shape t.act (List.mem_map_of_mem inside)) closes
  | some c =>
    rw [kind] at shape
    obtain ⟨front,a,acts,none,ends⟩ := shape
    have here : t.act ∈ front ++ [a] := acts ▸ List.mem_map_of_mem inside
    rcases List.mem_append.mp here with before | last
    · exact absurd (none t.act before) closes
    · rw [List.mem_singleton.mp last,ends]

/-- A node that ends the method does so with a statement of its own. -/
theorem leavesItself (member : n ∈ p.graph.rpo)
    (kind : (p.graph.node n).kind = .ret ∨ (p.graph.node n).kind = .throw) :
    ∃ t ∈ (p.graph.runs n).drop (w.due p n), t.act.closing? ≠ none := by
  have closing : (p.graph.node n).kind.closing? = some (p.graph.node n).kind := by
    rcases kind with kind | kind <;> rw [kind] <;> rfl
  have shape := (kept.closed n member).stmts
  rw [closing] at shape
  obtain ⟨front,a,acts,-,ends⟩ := shape
  obtain ⟨t,inside,rfl⟩ : ∃ t ∈ (p.graph.node n).stmts, t.act = a :=
    List.mem_map.mp (acts ▸ List.mem_append_right _ (List.mem_singleton_self a))
  have runs : t ∈ p.graph.runs n := by
    refine List.mem_filter.mpr ⟨inside,?_⟩
    unfold Stmt.receives Stmt.isTest
    rw [ends]
    rcases kind with kind | kind <;> rw [kind] at ends ⊢ <;> cases act : t.act <;>
      simp_all [Action.closing?]
  rw [← List.take_append_drop (w.due p n) (p.graph.runs n)] at runs
  refine (List.mem_append.mp runs).elim (fun early => ?_) fun late =>
    ⟨t,late,by rw [ends]; exact Option.some_ne_none _⟩
  -- What the node is without is inside of the handler, which only its last statement closes.
  cases found : w.cleaners p n with
  | nil =>
    rw [Draft.dueNone found] at early
    exact absurd early List.not_mem_nil
  | cons c cs =>
    have own : c ∈ w.cleaners p n := found ▸ List.mem_cons_self ..
    obtain ⟨e,code,only,coded,plain,shares⟩ := kept.cleans own
    rw [kept.tidy.due own] at early
    have copied := (List.mem_filter.mp (show t ∈ Stmt.run _ from shares.run.2 ▸ early)).1
    obtain ⟨u,original,same⟩ := List.mem_map.mp
      (shares.acts ▸ List.mem_map_of_mem copied : t.act ∈ c.code.map Stmt.act)
    rw [← same,plain u (coded ▸ original)] at ends
    contradiction

/-- The method is left from no node that clean-up code stands around. -/
theorem leavesFree (member : n ∈ p.graph.rpo) (kind : (p.graph.node n).kind = .ret)
    (around : guardedBy ss = p.graph.regionsAround (p.graph.node n).region) :
    ∀ c ∈ w.covers, c.code ≠ [] → c.region ∉ guardedBy ss := by
  intro c covered filled inside
  rcases (kept.right c covered).cleanup with none | ⟨e,out,code,only,cleans⟩
  · exact filled (by rw [Cover.code,none]; rfl)
  · exact (kept.tidy.shares c covered e code out only cleans.exits).stays n member (around ▸ inside) kind

theorem playsCode {ts : List Stmt} (key : Key) (member : n ∈ p.graph.rpo) (noted : .code n ts ∈ deedsOf w.body)
    (here : (p.graph.node n).region = activeRegion? ss)
    (around : guardedBy ss = p.graph.regionsAround (p.graph.node n).region) (bears : Bears w p j ss k)
    (noTest : (p.graph.node n).kind ≠ .cond ∧ (p.graph.node n).kind ≠ .switch)
    (onward : (p.graph.node n).kind = .stmt →
      ∃ m, (p.graph.node n).succs.head? = some m ∧ Plays w p.graph j 0 k m) :
    Plays w p.graph (j + 1) (w.due p n) (.piece (.stmts key n ts) :: k) n := by
  have own := kept.own n member ts noted
  refine Plays.silent (l := beats n (Stmt.run ts) k) rfl ?_
  rw [Plays,← List.append_nil ((p.graph.runs n).drop _),← own]
  refine playsBeats rfl (fun t inside => ?_) (.inl rfl) (fun _ fits throwable => ?_)
    ?_ fun quiet => ?_
  · simpa using (Bool.and_eq_true_iff.mp (List.mem_filter.mp inside).2).2
  · exact here ▸ bears.raise kept.shaped.nested throwable
  · rintro ⟨t,inside,returns⟩
    have among : t ∈ (p.graph.node n).stmts := by
      rw [own] at inside
      exact (List.mem_filter.mp (List.mem_of_mem_drop inside)).1
    have closes : t.act.closing? = some .ret := beq_iff_eq.mp returns
    have kind := kept.stmtsClosed member among (closes ▸ Option.some_ne_none _)
    refine bears.leave (kept.leavesFree member ?_ around)
    rw [closes] at kind
    cases form : (p.graph.node n).kind <;> rw [form] at kind <;> first | rfl | contradiction
  · rw [PlaysOn]
    cases kind : (p.graph.node n).kind with
    | stmt => exact onward kind
    | cond => exact absurd kind noTest.1
    | switch => exact absurd kind noTest.2
    | ret =>
      obtain ⟨t,inside,closes⟩ := kept.leavesItself member (.inl kind)
      exact absurd (quiet t (own ▸ inside)) closes
    | throw =>
      obtain ⟨t,inside,closes⟩ := kept.leavesItself member (.inr kind)
      exact absurd (quiet t (own ▸ inside)) closes

theorem runsTest (member : n ∈ p.graph.rpo)
    (kind : (p.graph.node n).kind = .cond ∨ (p.graph.node n).kind = .switch) : p.graph.runs n = [] := by
  have closing : (p.graph.node n).kind.closing? = some (p.graph.node n).kind := by
    rcases kind with kind | kind <;> rw [kind] <;> rfl
  have shape := (kept.closed n member).stmts
  rw [closing] at shape
  obtain ⟨front,a,acts,-,ends⟩ := shape
  have alone := kept.shaped.alone n kind
  refine List.filter_eq_nil_iff.mpr fun t inside => ?_
  have only : (p.graph.node n).stmts = [t] := by
    match stmts : (p.graph.node n).stmts with
    | [u] =>
      rw [stmts] at inside
      rw [List.mem_singleton.mp inside]
    | [] => simp [stmts] at inside
    | _ :: _ :: _ => simp [stmts] at alone
  have same : front = [] ∧ a = t.act := by
    rw [only] at acts
    cases front <;> simp_all
  rw [same.2] at ends
  rcases kind with kind | kind <;> rw [kind] at ends <;> simp [Stmt.isTest,ends]

theorem playsTest {k' : Tasks} {a : Turnout → Tasks} (d : Nat) (member : n ∈ p.graph.rpo)
    (kind : (p.graph.node n).kind = .cond ∨ (p.graph.node n).kind = .switch) (drifts : Drifts w.turn k k')
    (here : w.turn k' = .act (.tests n) a) (goes : ∀ e : Turnout, ∃ m, p.graph.after n e.toOutcome = some m ∧
      Plays w p.graph j 0 (a e) m) : Plays w p.graph (j + 1) d k n := by
  rw [Plays,kept.runsTest member kind,List.drop_nil,PlaysOn]
  have onward : ∀ e : Turnout, (p.graph.after n e.toOutcome).elim (Stops w.turn (a e))
      (Plays w p.graph j 0 (a e)) := fun e => by
    obtain ⟨m,to',plays⟩ := goes e
    rw [to']
    exact plays
  cases form : (p.graph.node n).kind with
  | cond | switch => exact ⟨k',a,drifts,here,onward⟩
  | stmt | ret | throw =>
    rw [form] at kind
    exact absurd kind (by decide)

end Kept

end RegCode.Recovery
