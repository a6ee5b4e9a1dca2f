import RegCode.Proofs.Dominance.Loops
import RegCode.Proofs.Recovery.Execution
import RegCode.Proofs.Recovery.Protection
import RegCode.Proofs.Recovery.Coverage

/-! Graphs without regions whose nodes end as their kind says, and what the plan of such a graph
knows: the form of its loops, and where its branches and switches meet again. -/
namespace RegCode

def Node.Ends (n : Node) : Prop :=
  match n.kind with
  | .stmt => (∃ t, n.succs = [t]) ∧ Tree.endsInExit n.stmts = false
  | .cond => n.stmts.length ≤ 1 ∧ ∃ t f, n.onTrue = some t ∧ n.onFalse = some f ∧
      ∀ m, m ∈ n.succs ↔ m = t ∨ m = f
  | .switch => n.stmts.length ≤ 1 ∧ (∃ t, n.default = some t) ∧
      (∀ m, m ∈ n.succs ↔ n.default = some m ∨ ∃ c ∈ n.cases, c.target = m) ∧
      ∀ c ∈ n.cases, ∀ c' ∈ n.cases, ∀ k ∈ c.keys, k ∈ c'.keys → c.target = c'.target
  | .ret | .throw => n.succs = [] ∧ Tree.endsInExit n.stmts = true

/-- A numbered graph without regions whose nodes end as their kind says. -/
structure Graph.Unprotected (g : Graph) : Prop extends g.Edged, g.Ranked where
  regions : g.regions = #[]
  catches : ∀ n ∈ g.rpo, (g.node n).catchSuccs = []
  ends : ∀ n ∈ g.rpo, (g.node n).Ends

/-- A loop is written as it is: its test decides between the next round and the way out, and what
follows lies outside of it. -/
structure LoopShape.Fits (g : Graph) (s : LoopShape) : Prop where
  natural : s.loop.Natural g
  follow : ∀ t, s.follow = some t → t ∉ s.loop.body ∧ ∃ w ∈ s.loop.body, t ∈ (g.node w).succs
  pretest : s.kind = .pretest → s.continueAt = s.loop.header ∧ (g.node s.loop.header).kind = .cond ∧
    s.start ∈ s.loop.body ∧ ∃ x, s.follow = some x ∧
      ((g.node s.loop.header).onTrue = some s.start ∧ (g.node s.loop.header).onFalse = some x ∨
        (g.node s.loop.header).onTrue = some x ∧ (g.node s.loop.header).onFalse = some s.start)
  posttest : s.kind = .posttest → ∃ latch x, s.test = some latch ∧ s.continueAt = latch ∧
    latch ∈ s.loop.body ∧ latch ≠ s.loop.header ∧ (g.node latch).kind = .cond ∧ s.follow = some x ∧
      ((g.node latch).onTrue = some s.loop.header ∧ (g.node latch).onFalse = some x ∨
        (g.node latch).onTrue = some x ∧ (g.node latch).onFalse = some s.loop.header)
  endless : s.kind = .endless → s.continueAt = s.loop.header

def Graph.Under (g : Graph) (x n : NodeId) : Prop :=
  x ∈ g.rpo ∧ ∀ d, d ≠ x → g.Dominates d x → g.Dominates d n

structure Plan.Sound (p : Plan) : Prop where
  graph : p.graph.Unprotected
  shapes : ∀ s ∈ p.shapes, s.Fits p.graph
  distinct : ∀ s ∈ p.shapes, ∀ s' ∈ p.shapes, s.loop.header = s'.loop.header → s = s'
  branches : ∀ n x, p.branchFollows.get? n = some x → p.graph.Under x n
  switches : ∀ n x, p.switchFollows.get? n = some x → p.graph.Under x n

theorem Node.endsCond {n : Node} (ends : n.Ends) (kind : n.kind = .cond) : n.stmts.length ≤ 1 ∧
    ∃ t f, n.onTrue = some t ∧ n.onFalse = some f ∧ ∀ m, m ∈ n.succs ↔ m = t ∨ m = f := by
  rwa [Node.Ends,kind] at ends

namespace LoopShape

variable {g : Graph} {l : Loop} {s : LoopShape} {t : NodeId}

theorem earliestMem {ns : List NodeId} (found : g.earliest ns = some t) : t ∈ ns := by
  induction ns generalizing t with
  | nil => contradiction
  | cons n ns ih =>
    rw [Graph.earliest] at found
    cases rest : g.earliest ns with
    | none =>
      rw [rest] at found
      exact Option.some.inj found ▸ List.mem_cons_self ..
    | some m =>
      rw [rest] at found
      dsimp only at found
      split at found <;> cases Option.some.inj found
      · exact List.mem_cons_of_mem _ (ih rest)
      · exact List.mem_cons_self ..

theorem exitsMem (member : t ∈ exits g l) : t ∉ l.body ∧ ∃ w ∈ l.body, t ∈ (g.node w).succs := by
  rw [exits,List.mem_eraseDups,List.mem_flatMap] at member
  obtain ⟨w,inside,out⟩ := member
  obtain ⟨out,outside⟩ := List.mem_filter.mp out
  refine ⟨by simpa [Loop.contains] using outside,w,?_,out⟩
  simpa [Loop.contains] using (List.mem_filter.mp inside).2

theorem fitsEndless (natural : l.Natural g) : (endless g l).Fits g := by
  refine ⟨natural,fun t out => exitsMem ?_,(fun pre => by cases pre),(fun post => by cases post),fun _ => rfl⟩
  rcases Option.or_eq_some_iff.mp out with meets | ⟨-,first⟩
  · exact (List.mem_filter.mp (earliestMem meets)).1
  · exact earliestMem first

theorem fitsPretest (ends : ∀ n ∈ g.rpo, (g.node n).Ends) (natural : l.Natural g) (found : pretest? g l = some s) :
    s.Fits g := by
  unfold pretest? at found
  dsimp only at found
  split at found
  · contradiction
  · rename_i cond
    have kind : (g.node l.header).kind = .cond := by simpa using cond
    obtain ⟨-,t,f,onTrue,onFalse,succs⟩ :=
      Node.endsCond (ends _ (natural.inside _ natural.header).1) kind
    simp only [onTrue,onFalse,Option.bind_eq_bind,Option.bind_some] at found
    split at found
    · contradiction
    · rename_i apart
      cases Option.some.inj found
      have apart : ¬(t ∈ l.body ↔ f ∈ l.body) := by simpa [Loop.contains] using apart
      by_cases inside : t ∈ l.body
      · have outside : f ∉ l.body := fun there => apart (iff_of_true inside there)
        have here : l.contains t = true := by simpa [Loop.contains] using inside
        simp only [here,if_true]
        refine ⟨natural,fun x out => ?_,fun _ => ⟨rfl,kind,inside,f,rfl,.inl ⟨onTrue,onFalse⟩⟩,
          (fun post => by cases post),(fun endless => by cases endless)⟩
        cases Option.some.inj out
        exact ⟨outside,l.header,natural.header,(succs f).mpr (.inr rfl)⟩
      · have there : f ∈ l.body := by
          by_contra outside
          exact apart (iff_of_false inside outside)
        have here : l.contains t = false := by simpa [Loop.contains] using inside
        simp only [here,Bool.false_eq_true,if_false]
        refine ⟨natural,fun x out => ?_,fun _ => ⟨rfl,kind,there,t,rfl,.inr ⟨onTrue,onFalse⟩⟩,
          (fun post => by cases post),(fun endless => by cases endless)⟩
        cases Option.some.inj out
        exact ⟨inside,l.header,natural.header,(succs t).mpr (.inl rfl)⟩

theorem fitsPosttest (ends : ∀ n ∈ g.rpo, (g.node n).Ends) (natural : l.Natural g) (found : posttest? g l = some s) :
    s.Fits g := by
  unfold posttest? at found
  split at found
  · rename_i latch latches
    dsimp only at found
    split at found
    · contradiction
    · rename_i proper
      obtain ⟨other,kind⟩ := not_or.mp proper
      have kind := not_not.mp kind
      have inside := (natural.latches latch (latches ▸ List.mem_singleton_self latch)).1
      obtain ⟨-,t,f,onTrue,onFalse,succs⟩ := Node.endsCond (ends _ (natural.inside _ inside).1) kind
      obtain ⟨x,way,leaves⟩ : ∃ x, ((g.node latch).onTrue = some l.header ∧ (g.node latch).onFalse = some x ∨
          (g.node latch).onTrue = some x ∧ (g.node latch).onFalse = some l.header) ∧
          l.contains x = false ∧ s =
            { loop := l, kind := .posttest, test := some latch, start := l.header, follow := some x
              continueAt := latch } := by
        rw [onTrue,onFalse] at found
        simp only [Option.bind_eq_bind,beq_iff_eq,Option.some.injEq] at found
        split at found
        case' isFalse => split at found
        case isFalse.isFalse => contradiction
        all_goals
          rw [Option.bind_some] at found
          split at found
          · contradiction
          · rename_i back outside
            subst back
            exact ⟨_,by simp [onTrue,onFalse],by simpa using outside,(Option.some.inj found).symm⟩
      obtain ⟨outside,rfl⟩ := leaves
      have outside : x ∉ l.body := by simpa [Loop.contains] using outside
      refine ⟨natural,fun y out => ?_,(fun pre => by cases pre),
        fun _ => ⟨latch,x,rfl,rfl,inside,other,kind,rfl,way⟩,(fun endless => by cases endless)⟩
      cases Option.some.inj out
      refine ⟨outside,latch,inside,(succs x).mpr ?_⟩
      rcases way with ⟨-,out⟩ | ⟨out,-⟩
      · exact .inr (Option.some.inj (out.symm.trans onFalse))
      · exact .inl (Option.some.inj (out.symm.trans onTrue))
  · contradiction

theorem fitsOfLoop (ends : ∀ n ∈ g.rpo, (g.node n).Ends) (natural : l.Natural g) (policy : LoopPolicy) :
    (ofLoop g policy l).Fits g := by
  rcases ofLoopForm g policy l with form | form | form
  · rw [form]
    exact fitsEndless natural
  · exact fitsPretest ends natural form
  · exact fitsPosttest ends natural form

end LoopShape

theorem Node.endsSwitch {n : Node} (ends : n.Ends) (kind : n.kind = .switch) : n.stmts.length ≤ 1 ∧
    (∃ t, n.default = some t) ∧
    (∀ m, m ∈ n.succs ↔ n.default = some m ∨ ∃ c ∈ n.cases, c.target = m) ∧
    ∀ c ∈ n.cases, ∀ c' ∈ n.cases, ∀ k ∈ c.keys, k ∈ c'.keys → c.target = c'.target := by
  rwa [Node.Ends,kind] at ends

namespace Graph

variable {g : Graph} {n x : NodeId}

theorem Edged.underEdge (edged : g.Edged) (member : n ∈ g.rpo) (out : x ∈ (g.node n).succs) :
    g.Under x n :=
  ⟨(edged.succs n member x out).1,fun _ other dom => dom.edge (Ne.symm other) (List.mem_append_left _ out)⟩

theorem latestMem {ns : List NodeId} (found : g.latest ns = some x) : x ∈ ns := by
  induction ns generalizing x with
  | nil => contradiction
  | cons n ns ih =>
    rw [latest] at found
    cases rest : g.latest ns with
    | none =>
      rw [rest] at found
      exact Option.some.inj found ▸ List.mem_cons_self ..
    | some m =>
      rw [rest] at found
      dsimp only at found
      split at found <;> cases Option.some.inj found
      · exact List.mem_cons_of_mem _ (ih rest)
      · exact List.mem_cons_self ..

end Graph

namespace Plan

open RegCode.Graph

variable {g : Graph} {n x : NodeId}

theorem underMeeting (ranked : g.Ranked) (edged : g.Edged) {loops : LoopForest}
    (meets : x ∈ meetings g (Dominators.ofGraph g) loops n) : g.Under x n := by
  obtain ⟨child,-⟩ := List.mem_filter.mp meets
  obtain ⟨member,idom⟩ := List.mem_filter.mp child
  obtain ⟨-,-,-,above⟩ := Dominators.idomDominates ranked edged member (by simpa using idom)
  exact ⟨member,fun a other dom => above a other dom⟩

structure Follows.Good (g : Graph) (s : Follows) : Prop where
  under : ∀ u f, s.found.get? u = some f → g.Under f u
  waiting : ∀ u ∈ s.waiting, u ∈ g.rpo

theorem goodAddBranch (ranked : g.Ranked) (edged : g.Edged) {loops : LoopForest} {s : Follows}
    (good : s.Good g) (member : n ∈ g.rpo) : (addBranch g (Dominators.ofGraph g) loops s n).Good g := by
  unfold addBranch
  split
  · exact ⟨good.under,List.forall_mem_append.mpr ⟨good.waiting,List.forall_mem_singleton.mpr member⟩⟩
  · rename_i f found
    have under := underMeeting ranked edged (latestMem found)
    refine ⟨?_,fun u waits => good.waiting u (List.mem_filter.mp waits).1⟩
    let Good (t : Table NodeId NodeId) : Prop := ∀ u f, t.get? u = some f → g.Under f u
    have insert : ∀ {t : Table NodeId NodeId} {m}, Good t → g.Under f m → Good (t.insert m f) := by
      intro t m good under u y here
      rw [Table.get?_insert] at here
      split at here
      · rename_i same
        cases Option.some.inj here
        exact beq_iff_eq.mp same ▸ under
      · exact good u y here
    refine List.foldlRecOn _ _ (motive := Good) (insert good.under under) fun t holds u joins => ?_
    obtain ⟨waits,joins⟩ := List.mem_filter.mp joins
    simp only [Bool.and_eq_true] at joins
    have dom := (Dominators.dominatesIff ranked edged (good.waiting u waits)).mp joins.1.1
    exact insert holds ⟨under.1,fun d other above => (under.2 d other above).trans dom⟩

theorem branchesUnder (ranked : g.Ranked) (edged : g.Edged) (loops : LoopForest) (tests : List NodeId)
    (found : (followsOfBranches g (Dominators.ofGraph g) loops tests).get? n = some x) :
    g.Under x n := by
  refine (List.foldlRecOn _ _ (motive := Follows.Good g) ⟨fun _ _ here => by simp at here,by simp⟩
    fun s good u branch => ?_ : Follows.Good g _).under n x found
  exact goodAddBranch ranked edged good (List.mem_reverse.mp (List.mem_filter.mp branch).1)

theorem underSwitch (graph : g.Unprotected) {loops : LoopForest} (member : n ∈ g.rpo)
    (kind : (g.node n).kind = .switch)
    (found : followOfSwitch g (Dominators.ofGraph g) loops n = some x) : g.Under x n := by
  rcases Option.or_eq_some_iff.mp found with meets | ⟨-,default⟩
  · exact underMeeting graph.toRanked graph.toEdged (List.mem_filter.mp (latestMem meets)).1
  · obtain ⟨-,-,succs,-⟩ := Node.endsSwitch (graph.ends n member) kind
    exact graph.toEdged.underEdge member ((succs x).mpr (.inl (Option.filter_eq_some_iff.mp default).1))

theorem switchesUnder (graph : g.Unprotected) (loops : LoopForest)
    (found : (followsOfSwitches g (Dominators.ofGraph g) loops).get? n = some x) : g.Under x n := by
  refine (List.foldlRecOn _ _ (motive := fun t : Table NodeId NodeId => ∀ u f, t.get? u = some f →
    g.Under f u) (fun _ _ here => by simp at here) fun t good u member => ?_) n x found
  obtain ⟨member,kind⟩ := List.mem_filter.mp member
  split
  · rename_i f follow
    intro v y here
    rw [Table.get?_insert] at here
    split at here
    · rename_i same
      cases Option.some.inj here
      exact beq_iff_eq.mp same ▸ underSwitch graph member (by simpa using kind) follow
    · exact good v y here
  · exact good

theorem loopOfShape (g : Graph) (policy : LoopPolicy) (l : Loop) :
    (LoopShape.ofLoop g policy l).loop = l := by
  rcases LoopShape.ofLoopForm g policy l with form | form | form
  · rw [form]
    rfl
  · exact (LoopShape.pretestHeader form).1
  · exact (LoopShape.posttestLatch form).1

theorem soundOfGraph (graph : g.Unprotected) (policy : Policy) :
    (ofGraph g (Dominators.ofGraph g) policy).Sound := by
  obtain ⟨natural,distinct⟩ := LoopForest.naturalOfGraph graph.toRanked graph.toEdged
  refine ⟨graph,fun s member => ?_,fun s member s' member' same => ?_,
    fun n x => branchesUnder graph.toRanked graph.toEdged _ _,fun n x => switchesUnder graph _⟩
  · obtain ⟨l,found,rfl⟩ := List.mem_map.mp member
    exact LoopShape.fitsOfLoop graph.ends (natural l found) policy.loop
  · obtain ⟨l,found,rfl⟩ := List.mem_map.mp member
    obtain ⟨l',found',rfl⟩ := List.mem_map.mp member'
    rw [loopOfShape,loopOfShape] at same
    rw [List.inj_on_of_nodup_map distinct found found' same]

end Plan

/-! The order in which nodes are met. A node is met after all that dominates it, a loop is left when
all of it has been met, and the edges of what is met lead to what has been met or to what the code
around comes to. So the last test of a loop is only ever gone to from inside of the loop. -/

namespace Plan.Sound

variable {p : Plan} {a b : LoopShape} {n t u x : NodeId}

theorem allSuccs (sound : p.Sound) (member : n ∈ p.graph.rpo) :
    (p.graph.node n).allSuccs = (p.graph.node n).succs := by
  rw [Node.allSuccs,sound.graph.catches n member,List.append_nil]

theorem testSuccs (sound : p.Sound) (member : a ∈ p.shapes) (kind : a.kind = .posttest)
    (test : a.test = some t) : t ∈ a.loop.body ∧ t ≠ a.loop.header ∧ a.continueAt = t ∧
      ∃ x, a.follow = some x ∧ ∀ v, v ∈ (p.graph.node t).succs ↔ v = a.loop.header ∨ v = x := by
  have fits := sound.shapes a member
  obtain ⟨latch,x,test',again,inside,other,cond,follow,way⟩ := fits.posttest kind
  cases Option.some.inj (test.symm.trans test')
  obtain ⟨-,y,z,onTrue,onFalse,succs⟩ :=
    Node.endsCond (sound.graph.ends t (fits.natural.inside t inside).1) cond
  refine ⟨inside,other,again,x,follow,fun v => ?_⟩
  simp only [onTrue,onFalse,Option.some.injEq] at way
  rcases way with ⟨rfl,rfl⟩ | ⟨rfl,rfl⟩
  · exact succs v
  · exact (succs v).trans or_comm

theorem dominator (sound : p.Sound) (member : a ∈ p.shapes) (inside : n ∈ a.loop.body)
    (dom : p.graph.Dominates x n) : x ∈ a.loop.body ∨ p.graph.Dominates x a.loop.header :=
  (sound.shapes a member).natural.dominator sound.graph.toRanked sound.graph.toEdged inside dom

theorem nested (sound : p.Sound) (inner : a ∈ p.shapes) (outer : b ∈ p.shapes)
    (inside : a.loop.header ∈ b.loop.body) (other : a.loop.header ≠ b.loop.header) :
    ∀ n ∈ a.loop.body, n ∈ b.loop.body :=
  (sound.shapes a inner).natural.nested (sound.shapes b outer).natural sound.graph.toRanked
    sound.graph.toEdged inside other

theorem headerDominates (sound : p.Sound) (member : a ∈ p.shapes) (inside : n ∈ a.loop.body) :
    n ∈ p.graph.rpo ∧ p.graph.Dominates a.loop.header n :=
  (sound.shapes a member).natural.inside n inside

theorem header (sound : p.Sound) (member : a ∈ p.shapes) : a.loop.header ∈ a.loop.body :=
  (sound.shapes a member).natural.header

theorem source (sound : p.Sound) (member : a ∈ p.shapes) (inside : n ∈ a.loop.body)
    (other : n ≠ a.loop.header) (source : u ∈ p.graph.rpo) (out : n ∈ (p.graph.node u).succs) :
    u ∈ a.loop.body :=
  (sound.shapes a member).natural.closed n inside other u
    (List.mem_append_left _ (sound.graph.toEdged.succs u source n out).2)

theorem share (sound : p.Sound) (left : a ∈ p.shapes) (right : b ∈ p.shapes) (inA : n ∈ a.loop.body)
    (inB : n ∈ b.loop.body) : p.graph.Dominates a.loop.header b.loop.header ∧ b.loop.header ∈ a.loop.body ∨
      p.graph.Dominates b.loop.header a.loop.header ∧ a.loop.header ∈ b.loop.body := by
  obtain ⟨member,domA⟩ := sound.headerDominates left inA
  obtain ⟨-,domB⟩ := sound.headerDominates right inB
  have ranked := sound.graph.toRanked
  rcases domA.total ranked member domB with dom | dom
  · refine .inl ⟨dom,(sound.dominator left inA domB).elim id fun back => ?_⟩
    have same := dom.antisymm ranked (sound.headerDominates right (sound.header right)).1 back
    exact same ▸ sound.header left
  · refine .inr ⟨dom,(sound.dominator right inB domA).elim id fun back => ?_⟩
    have same := dom.antisymm ranked (sound.headerDominates left (sound.header left)).1 back
    exact same ▸ sound.header right

theorem testInside (sound : p.Sound) (left : a ∈ p.shapes) (right : b ∈ p.shapes)
    (kind : b.kind = .posttest) (test : b.test = some t) (inside : t ∈ a.loop.body) :
    p.graph.Dominates a.loop.header b.loop.header := by
  obtain ⟨inB,-,-,x,follow,succs⟩ := sound.testSuccs right kind test
  rcases sound.share left right inside inB with ⟨dom,-⟩ | ⟨dom,there⟩
  · exact dom
  · by_cases same : a.loop.header = b.loop.header
    · exact same ▸ Graph.Dominates.refl p.graph a.loop.header
    · -- Then the test has no edge to stay in `a` by.
      exfalso
      have inner := sound.nested left right there same
      have ranked := sound.graph.toRanked
      obtain ⟨c,out,stays⟩ := (sound.shapes a left).natural.onward ranked sound.graph.toEdged inside
      rw [sound.allSuccs (sound.headerDominates left inside).1,succs] at out
      rcases out with rfl | rfl
      · exact same ((sound.headerDominates left stays).2.antisymm ranked
          (sound.headerDominates right (sound.header right)).1 dom)
      · exact ((sound.shapes b right).follow c follow).1 (inner c stays)

theorem testNoHeader (sound : p.Sound) (left : a ∈ p.shapes) (right : b ∈ p.shapes)
    (kind : b.kind = .posttest) (test : b.test = some t) : t ≠ a.loop.header := by
  rintro rfl
  obtain ⟨inB,other,-⟩ := sound.testSuccs right kind test
  have dom := sound.testInside left right kind test (sound.header left)
  exact other (dom.antisymm sound.graph.toRanked (sound.headerDominates right (sound.header right)).1
    (sound.headerDominates right inB).2)

end Plan.Sound

namespace Recovery

def State.Seen (s : State) (n : NodeId) : Prop := s.mark n ≠ .unvisited

def State.Ready (s : State) (g : Graph) (x : NodeId) : Prop := ∀ d, d ≠ x → g.Dominates d x → s.Seen d

def State.Sure (s : State) (g : Graph) (x : NodeId) : Prop := x ∈ g.rpo ∧ (s.Seen x ∨ s.Ready g x)

def Scope.Targets : Scope → NodeId → Prop
  | .loop shape _, v => v = shape.continueAt ∨ shape.follow = some v
  | .switch _ follow _, v => follow = some v
  | .guarded _, _ => False

def Scope.own : Scope → String
  | .loop _ key | .switch _ _ key => key.own
  | .guarded _ => ""

def Held (ss : List Scope) (s : State) (v : NodeId) : Prop := v ∈ s.reserved ∨ ∃ x ∈ ss, x.Targets v

def Awaited (f : Frame) (s : State) (v : NodeId) : Prop :=
  f.stop = some v ∨ f.fall = some v ∨ Held f.scopes s v

def Tests (ss : List Scope) (t : NodeId) : Prop :=
  ∃ shape key, .loop shape key ∈ ss ∧ shape.kind = .posttest ∧ shape.test = some t

structure Orderly (p : Plan) (ss : List Scope) (s : State) : Prop where
  loops : ∀ shape key, .loop shape key ∈ ss → shape ∈ p.shapes ∧ key.own = loopName shape.loop.header
  switches : ∀ n follow key, .switch n follow key ∈ ss → s.Seen n ∧ key.own = switchName n
  unguarded : ∀ r, .guarded r ∉ ss
  names : (ss.map Scope.own).Nodup
  tests : ∀ t, Tests ss t → s.Seen t
  above : ∀ m, s.Seen m → ¬Tests ss m → s.Ready p.graph m
  closed : ∀ a ∈ p.shapes, s.Seen a.loop.header → isLoopOpen ss a.loop.header = false →
    ∀ y ∈ a.loop.body, s.Seen y
  reserved : ∀ x ∈ s.reserved, s.Seen x ∨ s.Ready p.graph x
  meets : ∀ n x key, .switch n (some x) key ∈ ss → s.Seen x ∨ s.Ready p.graph x

def Opened (ss : List Scope) (s : State) : Prop :=
  ∀ shape key, .loop shape key ∈ ss → s.Seen shape.loop.header

def SafeIn (p : Plan) (ss : List Scope) (t : NodeId) : Prop :=
  ∀ a ∈ p.shapes, a.kind = .posttest → a.test = some t →
    ∃ shape key, .loop shape key ∈ ss ∧ shape.continueAt = t

variable {p : Plan} {f : Frame} {ss : List Scope} {a b : LoopShape} {n t u x y : NodeId} {s s₁ s' : State}

theorem loopOpenIff : isLoopOpen ss n = true ↔ ∃ shape key, .loop shape key ∈ ss ∧ shape.loop.header = n := by
  rw [isLoopOpen,List.any_eq_true]
  constructor
  · rintro ⟨x,member,here⟩
    cases x with
    | loop shape key => exact ⟨shape,key,member,by simpa using here⟩
    | _ => contradiction
  · rintro ⟨shape,key,member,rfl⟩
    exact ⟨_,member,by simp⟩

structure Fresh (p : Plan) (ss : List Scope) (s : State) (a : LoopShape) : Prop where
  orderly : Orderly p ss s
  opened : Opened ss s
  shape : a ∈ p.shapes
  header : ¬s.Seen a.loop.header
  outside : isLoopOpen ss a.loop.header = false

namespace Fresh

theorem apart (fresh : Fresh p ss s a) {key : Key} (member : .loop b key ∈ ss) :
    a.loop.header ≠ b.loop.header := fun same => by
  have isOpen := loopOpenIff.mpr ⟨b,key,member,same.symm⟩
  rw [fresh.outside] at isOpen
  contradiction

theorem notAbove (fresh : Fresh p ss s a) (sound : p.Sound) {key : Key} (member : .loop b key ∈ ss) :
    ¬p.graph.Dominates a.loop.header b.loop.header := by
  intro dom
  have shape := (fresh.orderly.loops b key member).1
  refine fresh.header (fresh.orderly.above _ (fresh.opened b key member) ?_ _ (fresh.apart member) dom)
  rintro ⟨c,key',inside,kind,test⟩
  exact sound.testNoHeader shape (fresh.orderly.loops c key' inside).1 kind test rfl

theorem untouched (fresh : Fresh p ss s a) (sound : p.Sound) (inside : u ∈ a.loop.body) : ¬s.Seen u := by
  intro met
  by_cases here : a.loop.header = u
  · exact fresh.header (here ▸ met)
  · have dom := (sound.headerDominates fresh.shape inside).2
    refine fresh.header (fresh.orderly.above u met ?_ _ here dom)
    rintro ⟨b,key,member,kind,test⟩
    exact fresh.notAbove sound member
      (sound.testInside fresh.shape (fresh.orderly.loops b key member).1 kind test inside)

theorem notReady (fresh : Fresh p ss s a) (sound : p.Sound) (inside : u ∈ a.loop.body)
    (other : u ≠ a.loop.header) : ¬(s.Seen u ∨ s.Ready p.graph u) := fun either =>
  either.elim (fresh.untouched sound inside) fun ready =>
    fresh.header (ready _ other.symm (sound.headerDominates fresh.shape inside).2)

theorem notHeld (fresh : Fresh p ss s a) (sound : p.Sound) (inside : y ∈ a.loop.body)
    (other : y ≠ a.loop.header) : ¬Held ss s y := by
  rintro (reserved | ⟨z,member,target⟩)
  · exact fresh.notReady sound inside other (fresh.orderly.reserved y reserved)
  · match z,target with
    | .switch n follow key,target =>
      exact fresh.notReady sound inside other (fresh.orderly.meets n y key (target ▸ member))
    | .loop b key,target =>
      have shape := (fresh.orderly.loops b key member).1
      have fits := sound.shapes b shape
      rcases target with rfl | target
      · -- The next round begins at a header or a test that has been met.
        refine fresh.untouched sound inside ?_
        cases kind : b.kind with
        | pretest => exact (fits.pretest kind).1 ▸ fresh.opened b key member
        | endless => exact fits.endless kind ▸ fresh.opened b key member
        | posttest =>
          obtain ⟨latch,-,test,again,-⟩ := fits.posttest kind
          exact again ▸ fresh.orderly.tests latch ⟨b,key,member,kind,test⟩
      · obtain ⟨outside,w,source,out⟩ := fits.follow y target
        have inside' := sound.source fresh.shape inside other (sound.headerDominates shape source).1 out
        rcases sound.share fresh.shape shape inside' source with ⟨dom,-⟩ | ⟨-,there⟩
        · exact fresh.notAbove sound member dom
        · exact outside (sound.nested fresh.shape shape there (fresh.apart member) y inside)

theorem allMet (fresh : Fresh p ss s a) (sound : p.Sound) (header : s₁.Seen a.loop.header)
    (onward : ∀ u ∈ a.loop.body, s₁.Seen u → ∀ v ∈ (p.graph.node u).succs, v ∈ a.loop.body →
      v ≠ a.loop.header → s₁.Seen v ∨ Held ss s v) : ∀ y ∈ a.loop.body, s₁.Seen y := by
  have ranked := sound.graph.toRanked
  have all : ∀ (k : Nat) y, (p.graph.node y).num = k → y ∈ a.loop.body → s₁.Seen y := by
    intro k
    induction k using Nat.strongRecOn with
    | _ k ih =>
      intro y num inside
      by_cases here : y = a.loop.header
      · exact here ▸ header
      · obtain ⟨member,dom⟩ := sound.headerDominates fresh.shape inside
        have notEntry : p.graph.entry ≠ some y := fun entry =>
          dom y entry (.stay here)
        obtain ⟨u,source,out,less⟩ := ranked.earlier y member notEntry
        obtain ⟨j,num',-⟩ := ranked.place source
        rw [sound.allSuccs source] at out
        have inside' := sound.source fresh.shape inside here source out
        have met := ih j (by omega) u num' inside'
        exact (onward u inside' met y out inside here).resolve_right (fresh.notHeld sound inside here)
  intro y inside
  obtain ⟨k,num,-⟩ := ranked.place (sound.headerDominates fresh.shape inside).1
  exact all k y num inside

theorem settles (fresh : Fresh p ss s a) (sound : p.Sound) : settleShape p s a = a := by
  unfold settleShape
  split
  · rename_i latch kind test
    obtain ⟨inside,other,-⟩ := sound.testSuccs fresh.shape kind test
    have unmet : s.mark latch = .unvisited := not_not.mp (fresh.untouched sound inside)
    have unreserved : latch ∉ s.reserved := fun member => fresh.notHeld sound inside other (.inl member)
    rw [if_pos (by simp [State.isFree,unmet,unreserved])]
  · rfl

theorem safeOpen (sound : p.Sound) (orderly : Orderly p ss s) (shape : b ∈ p.shapes)
    (kind : b.kind = .posttest) (test : b.test = some t) (isOpen : isLoopOpen ss b.loop.header = true) :
    ∃ shape key, .loop shape key ∈ ss ∧ shape.continueAt = t := by
  obtain ⟨c,key,member,same⟩ := loopOpenIff.mp isOpen
  obtain rfl := sound.distinct c (orderly.loops c key member).1 b shape same
  exact ⟨c,key,member,(sound.testSuccs shape kind test).2.2.1⟩

theorem safeFollow (fresh : Fresh p ss s a) (sound : p.Sound) (ready : s.Ready p.graph a.loop.header)
    (follow : a.follow = some t) : SafeIn p ss t := by
  intro b shape kind test
  cases isOpen : isLoopOpen ss b.loop.header with
  | true => exact safeOpen sound fresh.orderly shape kind test isOpen
  | false =>
    exfalso
    obtain ⟨outside,w,source,out⟩ := (sound.shapes a fresh.shape).follow t follow
    obtain ⟨inside,other,-⟩ := sound.testSuccs shape kind test
    have same : a.loop.header ≠ b.loop.header := fun same =>
      outside (sound.distinct a fresh.shape b shape same ▸ inside)
    have inside' := sound.source shape inside other (sound.headerDominates fresh.shape source).1 out
    rcases sound.share fresh.shape shape source inside' with ⟨-,there⟩ | ⟨dom,there⟩
    · exact outside (sound.nested shape fresh.shape there same.symm t inside)
    · exact fresh.header (fresh.orderly.closed b shape (ready _ same.symm dom) isOpen _ there)

end Fresh

theorem safeSucc (sound : p.Sound) (orderly : Orderly p ss s) (member : n ∈ p.graph.rpo)
    (unmet : ¬s.Seen n) (ready : s.Ready p.graph n)
    (starts : ∀ a ∈ p.shapes, a.loop.header = n → a.kind = .posttest → isLoopOpen ss n = true)
    (out : t ∈ (p.graph.node n).succs) : SafeIn p ss t := by
  intro b shape kind test
  cases isOpen : isLoopOpen ss b.loop.header with
  | true => exact Fresh.safeOpen sound orderly shape kind test isOpen
  | false =>
    exfalso
    obtain ⟨inside,other,-⟩ := sound.testSuccs shape kind test
    have inside' := sound.source shape inside other member out
    by_cases here : b.loop.header = n
    · rw [here,starts b shape here kind] at isOpen
      contradiction
    · exact unmet (orderly.closed b shape (ready _ here (sound.headerDominates shape inside').2) isOpen n
        inside')

end Recovery

end RegCode
