import RegCode.Proofs.Flow.Edits
import RegCode.Proofs.Flow.Ranges
import RegCode.Proofs.Flow.Lowering

/-! What building draws for one block. A node says nothing until its block is worked off; then its
kind, its statements and its edges come from the block and from the places of other blocks alone. -/
namespace RegCode

namespace Node

def reach (t : Option NodeId) (x : Node) : Node :=
  match t with
  | some t => { x with succs := Graph.insertOnce t x.succs }
  | none => x

def fallTo (t : Option NodeId) (x : Node) : Node :=
  match t with
  | some t => { x with default := some t, succs := Graph.insertOnce t x.succs }
  | none => x

end Node

namespace Flow

def casesAt (place : Int → Option NodeId) : List (Int × Int) → List SwitchCase → List SwitchCase
  | [], cases => cases
  | (key, offset) :: rest, cases =>
    match place offset with
    | none => casesAt place rest cases
    | some t => casesAt place rest (addKey key t cases)

def targetsAt (place : Int → Option NodeId) (keys : List (Int × Int)) : List NodeId :=
  keys.filterMap fun k => place k.2

def nextAt (place : Int → Option NodeId) (b : Block) : Option NodeId :=
  b.fall.bind fun offset => if 0 ≤ offset then place offset else none

def keysOf (last : Instruction) : List (Int × Int) :=
  let table := last.switch.getD ⟨[], []⟩
  table.keys.zip table.targets

def drawn (place : Int → Option NodeId) (b : Block) (last : Instruction) (x : Node) : Node :=
  let fall := place (b.fall.getD (-1))
  match last.family with
  | .return | .returnVoid => { x with kind := .ret }
  | .throw => { x with kind := .throw }
  | .goto => x.reach (place last.target)
  | .ifTest | .ifZero =>
    let target := place last.target
    if target = fall then Node.reach target { x with stmts := x.stmts.dropLast }
    else ({ x with kind := .cond, onTrue := target, onFalse := fall }.reach target).reach fall
  | .packedSwitch | .sparseSwitch =>
    let keys := keysOf last
    Node.fallTo fall
      { x with
        succs := Graph.insertAll (targetsAt place keys) x.succs
        kind := .switch, cases := (casesAt place keys []).map sortKeys }
  | _ => x.reach (nextAt place b)

structure Sites (blocks met : List Block) (place : Int → Option NodeId) : Prop where
  here : ∀ o i, Place met i o → place o = some i
  nowhere : ∀ o, (∀ k ∈ blocks, k.start ≠ o) → place o = none

structure Woven (g : Graph) : Prop where
  listed : g.nodes = List.range g.store.size
  normal : g.Paired (·.succs) (·.preds)
  raised : g.Paired (·.catchSuccs) (·.catchPreds)
  marked : ∀ r ∈ g.regions, ∀ c ∈ r.handlers, (g.node c.entry).handler = true

variable {m : Method} {blocks met more : List Block} {b b' : Builder} {n : NodeId} {f f' : Node → Node}

theorem Sites.before {place : Int → Option NodeId} (sites : Sites blocks (met ++ more) place) :
    Sites blocks met place :=
  ⟨fun o i there => sites.here o i (there.more more),sites.nowhere⟩

theorem Woven.mem {g : Graph} (woven : Woven g) {i : NodeId} : i ∈ g.nodes ↔ i < g.store.size := by
  rw [woven.listed,List.mem_range]

theorem Woven.redraw {g h : Graph} (woven : Woven g) (framed : g.Framed h)
    (same : ∀ i, (h.node i).succs = (g.node i).succs ∧ (h.node i).preds = (g.node i).preds ∧
      (h.node i).catchSuccs = (g.node i).catchSuccs ∧ (h.node i).catchPreds = (g.node i).catchPreds)
    (marks : ∀ i, (g.node i).handler = true → (h.node i).handler = true) : Woven h where
  listed := by rw [framed.size,← woven.listed,framed.rest]
  normal := woven.normal.congr (by rw [framed.rest]) fun i _ => ⟨(same i).1,(same i).2.1⟩
  raised := woven.raised.congr (by rw [framed.rest]) fun i _ => (same i).2.2
  marked r member c listed := by
    rw [framed.rest] at member
    exact marks _ (woven.marked r member c listed)

theorem Woven.addEdge {g : Graph} {a t : NodeId} (woven : Woven g) (left : a < g.store.size)
    (right : t < g.store.size) : Woven (g.addEdge a t) where
  listed := by
    rw [(g.framedAddEdge a t).size]
    exact woven.listed
  normal := by
    refine woven.normal.insert (woven.mem.mpr left) (woven.mem.mpr right) rfl (fun k _ => ?_) fun k _ => ?_
    all_goals rw [Graph.nodeAddEdge left right]
  raised := by
    refine woven.raised.congr rfl fun k _ => ?_
    rw [Graph.nodeAddEdge left right]
    exact ⟨rfl,rfl⟩
  marked r member c listed := by
    rw [Graph.nodeAddEdge left right]
    exact woven.marked r member c listed

theorem Woven.addCatchEdge {g : Graph} {a t : NodeId} (woven : Woven g) (left : a < g.store.size)
    (right : t < g.store.size) : Woven (g.addCatchEdge a t) where
  listed := by
    rw [(g.framedAddCatchEdge a t).size]
    exact woven.listed
  normal := by
    refine woven.normal.congr rfl fun k _ => ?_
    rw [Graph.nodeAddCatchEdge left right]
    exact ⟨rfl,rfl⟩
  raised := by
    refine woven.raised.insert (woven.mem.mpr left) (woven.mem.mpr right) rfl (fun k _ => ?_) fun k _ => ?_
    all_goals rw [Graph.nodeAddCatchEdge left right]
  marked r member c listed := by
    rw [Graph.nodeAddCatchEdge left right]
    exact woven.marked r member c listed

theorem Woven.addNode {g : Graph} (woven : Woven g) (o : Int) : Woven (g.addNode { start := o }).1 := by
  have fresh : g.store.size ∉ g.nodes := fun member => Nat.lt_irrefl _ (woven.mem.mp member)
  refine ⟨?_,woven.normal.addNode fresh rfl rfl,woven.raised.addNode fresh rfl rfl,
    fun r member c listed => ?_⟩
  · simp [Graph.addNode,woven.listed,List.range_succ]
  · have marked := woven.marked r member c listed
    rw [Graph.nodeAddNode]
    split
    · rename_i last
      rw [Graph.nodeOutside (Nat.le_of_eq last.symm)] at marked
      contradiction
    · exact marked

structure Standing (m : Method) (blocks met : List Block) (b : Builder) : Prop where
  known : Met blocks met b
  tabled : Tabled m met b
  woven : Woven b.graph

structure Stretch (m : Method) (blocks met more : List Block) (n : NodeId) (f : Node → Node)
    (b b' : Builder) : Prop where
  onward : Onward m blocks met more n b b'
  woven : Woven b'.graph
  vars : b.graph.vars.Within b'.graph.vars
  size : b.graph.store.size ≤ b'.graph.store.size
  others : ∀ i < b.graph.store.size, i ≠ n → (b'.graph.node i).own = (b.graph.node i).own
  fresh : ∀ i, b.graph.store.size ≤ i → i ≠ n →
    (b'.graph.node i).own = Node.own { start := (b'.graph.node i).start }
  here : (b'.graph.node n).own = f (b.graph.node n).own
  marks : ∀ i, (b.graph.node i).handler = true → (b'.graph.node i).handler = true

namespace Stretch

theorem trans {b₁ : Builder} {more' : List Block} (first : Stretch m blocks met more n f b b₁)
    (second : Stretch m blocks (met ++ more) more' n f' b₁ b') :
    Stretch m blocks met (more ++ more') n (f' ∘ f) b b' where
  onward := first.onward.trans second.onward
  woven := second.woven
  vars := first.vars.trans second.vars
  size := first.size.trans second.size
  others i inside other :=
    (second.others i (Nat.lt_of_lt_of_le inside first.size) other).trans (first.others i inside other)
  fresh i beyond other := by
    by_cases inside : i < b₁.graph.store.size
    · have same := second.others i inside other
      have start : (b'.graph.node i).start = (b₁.graph.node i).start :=
        show (b'.graph.node i).own.start = (b₁.graph.node i).own.start from congrArg Node.start same
      rw [same,first.fresh i beyond other,start]
    · exact second.fresh i (Nat.le_of_not_lt inside) other
  here := by rw [second.here,first.here,Function.comp_apply]
  marks i marked := second.marks i (first.marks i marked)

theorem standing (stretch : Stretch m blocks met more n f b b') : Standing m blocks (met ++ more) b' :=
  ⟨stretch.onward.known,stretch.onward.tabled,stretch.woven⟩

end Stretch

/-- The node is linked as its block ends, for whatever places the offsets that were met. -/
def Linked (m : Method) (blocks met : List Block) (n : NodeId) (block : Block) (last : Instruction)
    (b b' : Builder) : Prop :=
  ∃ more f, Stretch m blocks met more n f b b' ∧ ∀ place, Sites blocks (met ++ more) place →
    f = drawn place block last ∧ (Lower.IsTest last →
      place last.target = place (block.fall.getD (-1)) ∨
        (place last.target).isSome ∧ (place (block.fall.getD (-1))).isSome)

namespace Standing

variable (standing : Standing m blocks met b)
include standing

theorem spread {h : Graph} (framed : b.graph.Framed h) (woven : Woven h)
    (starts : ∀ i, (h.node i).start = (b.graph.node i).start)
    (region : ∀ i, (h.node i).region = (b.graph.node i).region)
    (others : ∀ i ≠ n, (h.node i).own = (b.graph.node i).own)
    (here : (h.node n).own = f (b.graph.node n).own)
    (marks : ∀ i, (b.graph.node i).handler = true → (h.node i).handler = true) :
    Stretch m blocks met [] n f b { b with graph := h } where
  onward := (standing.known.redraw framed.size (by rw [framed.rest]) starts region).onward
    standing.tabled n
  woven := woven
  vars := by
    rw [framed.rest]
    exact .refl _
  size := Nat.le_of_eq framed.size.symm
  others i _ other := others i other
  fresh i beyond other := by
    rw [others i other,starts,Graph.nodeOutside beyond]
  here := here
  marks := marks

theorem refl (n : NodeId) : Stretch m blocks met [] n id b b :=
  standing.spread (.refl _) standing.woven (fun _ => rfl) (fun _ => rfl) (fun _ _ => rfl) rfl
    fun _ => id

theorem modify (inside : n < b.graph.store.size) (own : ∀ x, (f x).own = f x.own)
    (keeps : ∀ x, (f x).succs = x.succs ∧ (f x).preds = x.preds ∧ (f x).catchSuccs = x.catchSuccs ∧
      (f x).catchPreds = x.catchPreds ∧ (f x).handler = x.handler ∧ (f x).start = x.start ∧
      (f x).region = x.region) :
    Stretch m blocks met [] n f b { b with graph := b.graph.modify n f } := by
  have nodes : ∀ i, (b.graph.modify n f).node i = if i = n then f (b.graph.node i) else b.graph.node i :=
    fun i => Graph.nodeModified n i inside
  have framed := b.graph.framedModify n f
  have marks : ∀ i, (b.graph.node i).handler = true →
      ((b.graph.modify n f).node i).handler = true := by
    intro i
    rw [nodes]
    split
    · rw [(keeps _).2.2.2.2.1]
      exact id
    · exact id
  refine standing.spread framed (standing.woven.redraw framed (fun i => ?_) marks) (fun i => ?_)
    (fun i => ?_) (fun i other => ?_) ?_ marks
  all_goals rw [nodes]
  · split
    · obtain ⟨succs,preds,catchSuccs,catchPreds,-⟩ := keeps (b.graph.node i)
      exact ⟨succs,preds,catchSuccs,catchPreds⟩
    · exact ⟨rfl,rfl,rfl,rfl⟩
  · split
    · exact (keeps _).2.2.2.2.2.1
    · rfl
  · split
    · exact (keeps _).2.2.2.2.2.2
    · rfl
  · rw [if_neg other]
  · rw [if_pos rfl]
    exact own _

theorem addEdge {t : NodeId} (inside : n < b.graph.store.size) (target : t < b.graph.store.size) :
    Stretch m blocks met [] n (fun x => { x with succs := Graph.insertOnce t x.succs }) b
      { b with graph := b.graph.addEdge n t } := by
  have nodes := Graph.nodeAddEdge inside target
  refine standing.spread (b.graph.framedAddEdge n t) (standing.woven.addEdge inside target) (fun i => ?_)
    (fun i => ?_) (fun i other => ?_) ?_ fun i marked => ?_
  all_goals rw [nodes]
  · rw [if_neg other]
    rfl
  · rw [if_pos rfl]
    rfl
  · exact marked

theorem addCatchEdge {t : NodeId} (inside : n < b.graph.store.size) (target : t < b.graph.store.size) :
    Stretch m blocks met [] n (fun x => { x with catchSuccs := Graph.insertOnce t x.catchSuccs }) b
      { b with graph := b.graph.addCatchEdge n t } := by
  have nodes := Graph.nodeAddCatchEdge inside target
  refine standing.spread (b.graph.framedAddCatchEdge n t) (standing.woven.addCatchEdge inside target)
    (fun i => ?_) (fun i => ?_) (fun i other => ?_) ?_ fun i marked => ?_
  all_goals rw [nodes]
  · rw [if_neg other]
    rfl
  · rw [if_pos rfl]
    rfl
  · exact marked

theorem visitPlaced {offset : Int} {t : Option NodeId} (inside : n < b.graph.store.size)
    (did : Does (visit blocks offset) b t b') :
    ∃ more, Stretch m blocks met more n id b b' ∧
      (∀ place, Sites blocks (met ++ more) place → place offset = t) ∧
      ∀ i ∈ t, Place (met ++ more) i offset := by
  simp only [Flow.visit,doesBind,doesGet] at did
  obtain ⟨_,_,⟨got,left⟩,did⟩ := did
  rw [got,left] at did
  split at did
  · rename_i i found
    obtain ⟨rfl,rfl⟩ := doesPure.mp did
    have place := (standing.known.known offset i).mp found
    refine ⟨[],standing.refl n,fun place' sites => sites.before.here offset i place,fun j same => ?_⟩
    cases Option.some.inj same
    exact place.more []
  · rename_i fresh
    split at did
    · rename_i absent
      obtain ⟨rfl,rfl⟩ := doesPure.mp did
      refine ⟨[],standing.refl n,fun place sites => sites.nowhere offset fun k member => ?_,
        fun i member => absurd member (Option.not_mem_none i)⟩
      simpa using List.find?_eq_none.mp absent k member
    · rename_i block found
      simp only [doesBind,doesSet,doesPure] at did
      obtain ⟨_,_,rfl,rfl,rfl⟩ := did
      have start : block.start = offset := by simpa using List.find?_some found
      subst start
      have met_ := standing.known.meet fresh (List.mem_of_find?_eq_some found)
      have nodes := Graph.nodeAddNode b.graph { start := block.start }
      have size : (b.graph.addNode { start := block.start }).1.store.size = b.graph.store.size + 1 := by
        simp [Graph.addNode]
      refine ⟨[block],{
        onward := met_.onward standing.tabled n
        woven := standing.woven.addNode block.start
        vars := .refl _
        size := size ▸ Nat.le_succ _
        others := fun i old _ => by rw [nodes,if_neg (Nat.ne_of_lt old)]
        fresh := fun i beyond _ => ?_
        here := by rw [nodes,if_neg (Nat.ne_of_lt inside)]; rfl
        marks := fun i marked => by
          rw [nodes]
          split
          · rename_i last
            rw [Graph.nodeOutside (Nat.le_of_eq last.symm)] at marked
            contradiction
          · exact marked },fun place sites => ?_,fun i same => ?_⟩
      · rw [nodes]
        split
        · rfl
        · rw [Graph.nodeOutside beyond]
      · refine sites.here _ _ ⟨block,?_,rfl⟩
        simp [Graph.addNode,standing.known.size]
      · cases Option.some.inj same
        exact ⟨block,by simp [Graph.addNode,standing.known.size],rfl⟩

theorem visit {offset : Int} {t : Option NodeId} (inside : n < b.graph.store.size)
    (did : Does (visit blocks offset) b t b') :
    ∃ more, Stretch m blocks met more n id b b' ∧
      (∀ place, Sites blocks (met ++ more) place → place offset = t) ∧
      ∀ i ∈ t, i < b'.graph.store.size := by
  obtain ⟨more,stretch,found,placed⟩ := standing.visitPlaced inside did
  refine ⟨more,stretch,found,fun i same => ?_⟩
  obtain ⟨k,here,-⟩ := placed i same
  exact stretch.onward.known.size ▸ (List.getElem?_eq_some_iff.mp here).1

theorem link {t : Option NodeId} {u : Unit} (inside : n < b.graph.store.size)
    (target : ∀ i ∈ t, i < b.graph.store.size) (did : Does (link n t) b u b') :
    Stretch m blocks met [] n (Node.reach t) b b' := by
  cases t with
  | none =>
    obtain ⟨-,rfl⟩ := doesPure.mp did
    exact standing.refl n
  | some t =>
    simp only [Flow.link,doesModifyGraph] at did
    subst did
    exact standing.addEdge inside (target t rfl)

theorem linkCases {keys : List (Int × Int)} {cases cases' : List SwitchCase}
    (inside : n < b.graph.store.size) (did : Does (linkCases blocks n keys cases) b cases' b') :
    ∃ more ts, Stretch m blocks met more n (fun x => { x with succs := Graph.insertAll ts x.succs }) b b' ∧
      ∀ place, Sites blocks (met ++ more) place →
        ts = targetsAt place keys ∧ cases' = casesAt place keys cases := by
  induction keys generalizing b cases met with
  | nil =>
    obtain ⟨rfl,rfl⟩ := doesPure.mp did
    exact ⟨[],[],standing.refl n,fun place _ => ⟨rfl,rfl⟩⟩
  | cons key keys ih =>
    obtain ⟨key,offset⟩ := key
    simp only [Flow.linkCases,doesBind] at did
    obtain ⟨t,b₁,visited,did⟩ := did
    obtain ⟨more,first,found,target⟩ := standing.visit inside visited
    have inside₁ := Nat.lt_of_lt_of_le inside first.size
    split at did
    · obtain ⟨more',ts,rest,finds⟩ := ih first.standing inside₁ did
      refine ⟨_,ts,first.trans rest,fun place sites => ?_⟩
      rw [← List.append_assoc] at sites
      have here := found place sites.before
      obtain ⟨targets,cases⟩ := finds place sites
      exact ⟨by rw [targets,targetsAt,targetsAt,List.filterMap_cons,here],by rw [cases,casesAt,here]⟩
    · rename_i t
      simp only [doesBind,doesModifyGraph] at did
      obtain ⟨_,_,rfl,did⟩ := did
      have second := first.standing.addEdge inside₁ (target t rfl)
      have inside₂ := Nat.lt_of_lt_of_le inside₁ second.size
      obtain ⟨more',ts,rest,finds⟩ := ih second.standing inside₂ did
      have whole := first.trans (second.trans rest)
      refine ⟨_,t :: ts,whole,fun place sites => ?_⟩
      rw [List.nil_append,← List.append_assoc] at sites
      have here := found place sites.before
      obtain ⟨targets,cases⟩ := finds place (by rwa [List.append_nil])
      exact ⟨by rw [targets,targetsAt,targetsAt,List.filterMap_cons,here],by rw [cases,casesAt,here]⟩

theorem visitNext {block : Block} {t : Option NodeId} (inside : n < b.graph.store.size)
    (did : Does (visitNext blocks block) b t b') :
    ∃ more, Stretch m blocks met more n id b b' ∧
      (∀ place, Sites blocks (met ++ more) place → nextAt place block = t) ∧
      ∀ i ∈ t, i < b'.graph.store.size := by
  unfold Flow.visitNext at did
  unfold nextAt
  split at did
  · rename_i offset falls
    rw [falls]
    split at did
    · rename_i positive
      simpa [positive] using standing.visit inside did
    · rename_i negative
      obtain ⟨rfl,rfl⟩ := doesPure.mp did
      exact ⟨[],standing.refl n,fun place _ => by simp [negative],nofun⟩
  · rename_i none
    rw [none]
    obtain ⟨rfl,rfl⟩ := doesPure.mp did
    exact ⟨[],standing.refl n,fun place _ => rfl,nofun⟩

theorem linkTest {last : Instruction} {block : Block} {u : Unit} (inside : n < b.graph.store.size)
    (test : Lower.IsTest last) (did : Does (Flow.linkNode blocks n block last) b u b') :
    Linked m blocks met n block last b b' := by
  have did : Does (do
      let t ← Flow.visit blocks last.target
      let e ← visitFall blocks block
      if t = e then
        modifyGraph (·.modify n fun x => { x with stmts := x.stmts.dropLast })
        Flow.link n t
      else
        let i ← require last.target t
        let j ← require (block.fall.getD (-1)) e
        modifyGraph (·.modify n fun x => { x with kind := .cond, onTrue := some i, onFalse := some j })
        modifyGraph (·.addEdge n i)
        modifyGraph (·.addEdge n j)) b u b' := by
    rcases test with family | family <;> simpa only [Flow.linkNode,family] using did
  simp only [doesBind] at did
  obtain ⟨t,b₁,visited,e,b₂,visited',did⟩ := did
  obtain ⟨more,first,found,target⟩ := standing.visit inside visited
  have inside₁ := Nat.lt_of_lt_of_le inside first.size
  obtain ⟨more',second,found',target'⟩ := first.standing.visit inside₁ visited'
  have inside₂ := Nat.lt_of_lt_of_le inside₁ second.size
  have within := fun i (same : i ∈ t) => Nat.lt_of_lt_of_le (target i same) second.size
  have places : ∀ place, Sites blocks (met ++ (more ++ more')) place →
      place last.target = t ∧ place (block.fall.getD (-1)) = e := fun place sites => by
    rw [← List.append_assoc] at sites
    exact ⟨found place sites.before,found' place sites⟩
  split at did
  · rename_i same
    simp only [doesBind,doesModifyGraph] at did
    obtain ⟨_,_,rfl,linked⟩ := did
    have third := second.standing.modify inside₂ (f := fun x => { x with stmts := x.stmts.dropLast })
      (fun _ => rfl) fun _ => ⟨rfl,rfl,rfl,rfl,rfl,rfl,rfl⟩
    have fourth := third.standing.link (Nat.lt_of_lt_of_le inside₂ third.size)
      (fun i member => Nat.lt_of_lt_of_le (within i member) third.size) linked
    have whole := first.trans (second.trans (third.trans fourth))
    refine ⟨_,_,whole,fun place sites => ?_⟩
    obtain ⟨here,there⟩ := places place (by simpa using sites)
    refine ⟨?_,fun _ => .inl (here.trans (same.trans there.symm))⟩
    funext x
    rcases test with family | family <;> simp only [drawn,family,here,there,same,if_true] <;> rfl
  · rename_i differ
    simp only [doesBind,doesModifyGraph,doesRequire] at did
    obtain ⟨i,_,⟨rfl,rfl⟩,j,_,⟨rfl,rfl⟩,_,_,rfl,_,_,rfl,rfl⟩ := did
    have third := second.standing.modify inside₂
      (f := fun x => { x with kind := .cond, onTrue := some i, onFalse := some j })
      (fun _ => rfl) fun _ => ⟨rfl,rfl,rfl,rfl,rfl,rfl,rfl⟩
    have fourth := third.standing.addEdge (Nat.lt_of_lt_of_le inside₂ third.size)
      (Nat.lt_of_lt_of_le (within i rfl) third.size)
    have size₄ := Nat.le_trans third.size fourth.size
    have fifth := fourth.standing.addEdge (Nat.lt_of_lt_of_le inside₂ size₄)
      (Nat.lt_of_lt_of_le (target' j rfl) size₄)
    have whole := first.trans (second.trans (third.trans (fourth.trans fifth)))
    refine ⟨_,_,whole,fun place sites => ?_⟩
    obtain ⟨here,there⟩ := places place (by simpa using sites)
    refine ⟨?_,fun _ => .inr ⟨by rw [here]; rfl,by rw [there]; rfl⟩⟩
    funext x
    rcases test with family | family <;> simp only [drawn,family,here,there,if_neg differ] <;> rfl

theorem linkSwitch {last : Instruction} {block : Block} {u : Unit} (inside : n < b.graph.store.size)
    (family : last.family = .packedSwitch ∨ last.family = .sparseSwitch)
    (did : Does (Flow.linkNode blocks n block last) b u b') : Linked m blocks met n block last b b' := by
  have untested : ¬Lower.IsTest last := fun test => by
    rcases family with family | family <;> simp [Lower.IsTest,family] at test
  have did : Does (do
      let cases ← Flow.linkCases blocks n (keysOf last) []
      modifyGraph (·.modify n fun x => { x with kind := .switch, cases := cases.map sortKeys })
      match ← visitFall blocks block with
      | some e =>
        modifyGraph (·.modify n fun x => { x with default := some e })
        modifyGraph (·.addEdge n e)
      | none => pure ()) b u b' := by
    rcases family with family | family <;>
    · simp only [Flow.linkNode,family] at did
      exact did
  simp only [doesBind,doesModifyGraph] at did
  obtain ⟨cases,b₁,linked,_,_,rfl,e,b₃,visited,did⟩ := did
  obtain ⟨more,ts,first,found⟩ := standing.linkCases inside linked
  have inside₁ := Nat.lt_of_lt_of_le inside first.size
  have second := first.standing.modify inside₁
    (f := fun x => { x with kind := .switch, cases := cases.map sortKeys }) (fun _ => rfl)
    fun _ => ⟨rfl,rfl,rfl,rfl,rfl,rfl,rfl⟩
  have inside₂ := Nat.lt_of_lt_of_le inside₁ second.size
  obtain ⟨more',third,found',target⟩ := second.standing.visit inside₂ visited
  have inside₃ := Nat.lt_of_lt_of_le inside₂ third.size
  have places : ∀ place, Sites blocks (met ++ (more ++ ([] ++ more'))) place →
      ts = targetsAt place (keysOf last) ∧ cases = casesAt place (keysOf last) [] ∧
        place (block.fall.getD (-1)) = e := fun place sites => by
    rw [List.nil_append,← List.append_assoc] at sites
    obtain ⟨targets,cases⟩ := found place sites.before
    exact ⟨targets,cases,found' place (by simpa using sites)⟩
  split at did
  · rename_i e
    simp only [doesBind,doesModifyGraph] at did
    obtain ⟨_,_,rfl,rfl⟩ := did
    have fourth := third.standing.modify inside₃ (f := fun x => { x with default := some e })
      (fun _ => rfl) fun _ => ⟨rfl,rfl,rfl,rfl,rfl,rfl,rfl⟩
    have fifth := fourth.standing.addEdge (Nat.lt_of_lt_of_le inside₃ fourth.size)
      (Nat.lt_of_lt_of_le (target e rfl) fourth.size)
    have whole := first.trans (second.trans (third.trans (fourth.trans fifth)))
    refine ⟨_,_,whole,fun place sites => ⟨?_,fun test => absurd test untested⟩⟩
    obtain ⟨targets,cases,there⟩ := places place (by simpa using sites)
    funext x
    rcases family with family | family <;> simp only [drawn,family,there,targets,cases] <;> rfl
  · obtain ⟨-,rfl⟩ := doesPure.mp did
    refine ⟨_,_,first.trans (second.trans third),fun place sites => ⟨?_,fun test => absurd test untested⟩⟩
    obtain ⟨targets,cases,there⟩ := places place (by simpa using sites)
    funext x
    rcases family with family | family <;> simp only [drawn,family,there,targets,cases] <;> rfl

theorem linkNode {last : Instruction} {block : Block} {u : Unit} (inside : n < b.graph.store.size)
    (did : Does (linkNode blocks n block last) b u b') : Linked m blocks met n block last b b' := by
  have whole := did
  unfold Flow.linkNode at did
  split at did
  case h_1 family | h_2 family | h_3 family =>
    simp only [doesModifyGraph] at did
    subst did
    refine ⟨[],_,standing.modify inside (fun _ => rfl) fun _ => ⟨rfl,rfl,rfl,rfl,rfl,rfl,rfl⟩,
      fun place _ => ⟨?_,fun test => ?_⟩⟩
    · funext x
      simp only [drawn,family]
    · simp [Lower.IsTest,family] at test
  case h_4 family =>
    simp only [doesBind] at did
    obtain ⟨t,b₁,visited,linked⟩ := did
    obtain ⟨more,first,found,target⟩ := standing.visit inside visited
    have second := first.standing.link (Nat.lt_of_lt_of_le inside first.size) target linked
    refine ⟨_,_,first.trans second,fun place sites => ⟨?_,fun test => ?_⟩⟩
    · have here := found place (by simpa using sites)
      funext x
      simp only [drawn,family,here]
      rfl
    · simp [Lower.IsTest,family] at test
  case h_5 family => exact standing.linkTest inside (.inl family) whole
  case h_6 family => exact standing.linkTest inside (.inr family) whole
  case h_7 family => exact standing.linkSwitch inside (.inl family) whole
  case h_8 family => exact standing.linkSwitch inside (.inr family) whole
  case h_9 others =>
    simp only [doesBind] at did
    obtain ⟨t,b₁,visited,linked⟩ := did
    obtain ⟨more,first,found,target⟩ := standing.visitNext inside visited
    have second := first.standing.link (Nat.lt_of_lt_of_le inside first.size) target linked
    refine ⟨_,_,first.trans second,fun place sites => ⟨?_,fun test => ?_⟩⟩
    · have here := found place (by simpa using sites)
      funext x
      unfold drawn
      split
      case h_9 =>
        rw [here]
        rfl
      all_goals contradiction
    · rcases test with family | family <;> contradiction

theorem mark (n : NodeId) {i : NodeId} (inside : i < b.graph.store.size) :
    Stretch m blocks met [] n id b
      { b with graph := b.graph.modify i fun x => { x with handler := true } } := by
  have nodes : ∀ k, (b.graph.modify i fun x => { x with handler := true }).node k =
      if k = i then { b.graph.node k with handler := true } else b.graph.node k :=
    fun k => Graph.nodeModified i k inside
  have framed := b.graph.framedModify i fun x => { x with handler := true }
  have marks : ∀ k, (b.graph.node k).handler = true →
      ((b.graph.modify i fun x => { x with handler := true }).node k).handler = true := by
    intro k marked
    rw [nodes]
    split
    · rfl
    · exact marked
  refine standing.spread framed (standing.woven.redraw framed (fun k => ?_) marks) (fun k => ?_)
    (fun k => ?_) (fun k _ => ?_) ?_ marks
  all_goals
    rw [nodes]
    split
  all_goals first | exact ⟨rfl,rfl,rfl,rfl⟩ | rfl

theorem enterHandlers {hs : List Handler} {cs : List CatchEntry} (inside : n < b.graph.store.size)
    (did : Does (enterHandlers blocks hs) b cs b') :
    ∃ more, Stretch m blocks met more n id b b' ∧
      List.Forall₂ (fun c h => c.type = h.type ∧ Place (met ++ more) c.entry h.target) cs hs ∧
      ∀ c ∈ cs, (b'.graph.node c.entry).handler = true := by
  induction hs generalizing b cs met with
  | nil =>
    obtain ⟨rfl,rfl⟩ := doesPure.mp did
    exact ⟨[],standing.refl n,.nil,fun _ member => absurd member List.not_mem_nil⟩
  | cons h hs ih =>
    simp only [Flow.enterHandlers,doesBind,doesRequire,doesModifyGraph,doesPure] at did
    obtain ⟨t,_,visited,i,b₁,⟨rfl,rfl⟩,u,_,rfl,cs,_,rest,rfl,rfl⟩ := did
    obtain ⟨more,first,-,placed⟩ := standing.visitPlaced inside visited
    have place := placed i rfl
    have target : i < b₁.graph.store.size := by
      obtain ⟨k,here,-⟩ := place
      exact first.onward.known.size ▸ (List.getElem?_eq_some_iff.mp here).1
    have second := first.standing.mark n target
    obtain ⟨more',third,lists,marks⟩ := ih second.standing
      (Nat.lt_of_lt_of_le inside (Nat.le_trans first.size second.size)) rest
    refine ⟨_,first.trans (second.trans third),.cons ⟨rfl,?_⟩ ?_,List.forall_mem_cons.mpr ⟨?_,marks⟩⟩
    · rw [List.nil_append,← List.append_assoc]
      exact place.more more'
    · simpa using lists
    · refine third.marks i ?_
      rw [Graph.nodeModified i i target,if_pos rfl]

theorem regionOf {t : TryRange} {r : RegionId} (inside : n < b.graph.store.size) (member : t ∈ m.tries)
    (did : Does (regionOf blocks t) b r b') :
    ∃ more, Stretch m blocks met more n id b b' ∧
      ∃ u ∈ m.tries, handlersKey u.handlers = handlersKey t.handlers ∧
        b'.graph.Handles (Place (met ++ more)) r u.handlers := by
  simp only [Flow.regionOf,doesBind,doesGet] at did
  obtain ⟨_,_,⟨got,left⟩,did⟩ := did
  rw [got,left] at did
  split at did
  · rename_i q found
    obtain ⟨rfl,rfl⟩ := doesPure.mp did
    obtain ⟨u,among,same,handles⟩ := standing.tabled.keyed _ _ found
    exact ⟨[],standing.refl n,u,among,same,handles.mono (fun _ => id) fun _ _ place => place.more []⟩
  · rename_i fresh
    simp only [doesBind,doesSet,doesPure,doesGet] at did
    obtain ⟨cs,_,entered,_,b₁,⟨rfl,rfl⟩,_,_,rfl,rfl,rfl⟩ := did
    obtain ⟨more,stretch,lists,marks⟩ := standing.enterHandlers inside entered
    obtain ⟨more',spread,-⟩ := didEnterHandlersMet entered standing.known
    have table : b₁.regions = b.regions := spread.table
    have regions : b₁.graph.regions = b.graph.regions := spread.regions
    have woven := stretch.woven
    refine ⟨more,{
      onward := {
        known := ⟨stretch.onward.known.known,stretch.onward.known.size,stretch.onward.known.starts,
          stretch.onward.known.inside⟩
        queue := stretch.onward.queue
        tabled := stretch.onward.tabled.addRegion member (table ▸ fresh) lists
        regions := fun r q found => by
          rw [Array.getElem?_push,regions,
            if_neg (Nat.ne_of_lt (Array.getElem?_eq_some_iff.mp found).1)]
          exact found
        others := stretch.onward.others }
      woven := ⟨woven.listed,woven.normal.congr rfl fun _ _ => ⟨rfl,rfl⟩,
        woven.raised.congr rfl fun _ _ => ⟨rfl,rfl⟩,fun r member => ?_⟩
      vars := stretch.vars
      size := stretch.size
      others := stretch.others
      fresh := stretch.fresh
      here := stretch.here
      marks := stretch.marks },t,member,rfl,⟨cs,none⟩,by simp,lists⟩
    rcases Array.mem_push.mp member with old | rfl
    · exact woven.marked r old
    · exact marks

end Standing

def Sheltered (m : Method) (met : List Block) (g : Graph) (o : Int) (region : Option RegionId)
    (entries : List NodeId) : Prop :=
  match m.tries.find? (·.covers o) with
  | none => region = none ∧ entries = []
  | some t => ∃ r q, region = some r ∧ g.regions[r]? = some q ∧
      entries = Graph.insertAll (q.handlers.map (·.entry)) [] ∧
      ∃ u ∈ m.tries, handlersKey u.handlers = handlersKey t.handlers ∧
        List.Forall₂ (fun c h => c.type = h.type ∧ Place met c.entry h.target) q.handlers u.handlers

namespace Standing

variable (standing : Standing m blocks met b)
include standing

theorem enter {r : RegionId} (inside : n < b.graph.store.size) :
    Stretch m blocks met [] n (fun x => { x with region := some r }) b
      { b with graph := b.graph.modify n fun x => { x with region := some r } } := by
  have nodes : ∀ k, (b.graph.modify n fun x => { x with region := some r }).node k =
      if k = n then { b.graph.node k with region := some r } else b.graph.node k :=
    fun k => Graph.nodeModified n k inside
  have framed := b.graph.framedModify n fun x => { x with region := some r }
  have starts : ∀ k, ((b.graph.modify n fun x => { x with region := some r }).node k).start =
      (b.graph.node k).start := fun k => by
    rw [nodes]
    split <;> rfl
  have marks : ∀ k, (b.graph.node k).handler = true →
      ((b.graph.modify n fun x => { x with region := some r }).node k).handler = true := fun k marked => by
    rw [nodes]
    split <;> exact marked
  have others : ∀ k ≠ n, (b.graph.modify n fun x => { x with region := some r }).node k = b.graph.node k :=
    fun k other => by rw [nodes,if_neg other]
  exact {
    onward := {
      known := (List.append_nil met).symm ▸ standing.known.withGraph framed.size starts
      queue := (List.append_nil _).symm
      tabled := (List.append_nil met).symm ▸ standing.tabled.withGraph rfl
      regions := fun _ _ => id
      others := fun i other => congrArg Node.region (others i other) }
    woven := standing.woven.redraw framed (fun k => by
      rw [nodes]
      split <;> exact ⟨rfl,rfl,rfl,rfl⟩) marks
    vars := .refl _
    size := Nat.le_of_eq framed.size.symm
    others := fun i _ other => congrArg Node.own (others i other)
    fresh := fun i beyond other => by
      rw [others i other,Graph.nodeOutside beyond]
    here := by
      rw [nodes,if_pos rfl]
      rfl
    marks := marks }

theorem catchAll {cs : List CatchEntry} (inside : n < b.graph.store.size)
    (entries : ∀ c ∈ cs, c.entry < b.graph.store.size) :
    Stretch m blocks met [] n
      (fun x => { x with catchSuccs := Graph.insertAll (cs.map (·.entry)) x.catchSuccs }) b
      { b with graph := cs.foldl (fun g h => g.addCatchEdge n h.entry) b.graph } := by
  induction cs generalizing b with
  | nil => exact standing.refl n
  | cons c cs ih =>
    have first := standing.addCatchEdge inside (entries c (List.mem_cons_self ..))
    have rest := ih (by simpa using first.standing) (Nat.lt_of_lt_of_le inside first.size)
      fun k member => Nat.lt_of_lt_of_le (entries k (List.mem_cons_of_mem c member)) first.size
    exact first.trans (by simpa using rest)

theorem protect {block : Block} {u : Unit} (inside : n < b.graph.store.size)
    (did : Does (protect m blocks n block) b u b') :
    ∃ more f region entries, Stretch m blocks met more n f b b' ∧
      Sheltered m (met ++ more) b'.graph block.start region entries ∧
      ∀ x, x.region = none → x.catchSuccs = [] →
        f x = { x with region := region, catchSuccs := entries } := by
  unfold Flow.protect at did
  rcases found : m.tries.find? (·.covers block.start) with _ | t
  · rw [found] at did
    obtain ⟨-,rfl⟩ := doesPure.mp did
    unfold Sheltered
    rw [found]
    exact ⟨[],id,none,[],standing.refl n,⟨rfl,rfl⟩,fun x region catchSuccs => by
      rw [id_eq,← region,← catchSuccs]⟩
  · rw [found] at did
    simp only [doesBind,doesModifyGraph] at did
    obtain ⟨r,b₁,region,_,_,rfl,drew⟩ := did
    obtain ⟨more,first,u,among,same,q,here,lists⟩ :=
      standing.regionOf inside (List.mem_of_find?_eq_some found) region
    have inside₁ := Nat.lt_of_lt_of_le inside first.size
    have second := first.standing.enter (r := r) inside₁
    have entries : ∀ c ∈ q.handlers, c.entry < b₁.graph.store.size := by
      intro c member
      by_contra outside
      have marked := first.woven.marked q (Array.mem_of_getElem? here) c member
      rw [Graph.nodeOutside (Nat.le_of_not_lt outside)] at marked
      contradiction
    have third := second.standing.catchAll (Nat.lt_of_lt_of_le inside₁ second.size)
      fun c member => Nat.lt_of_lt_of_le (entries c member) second.size
    have whole := first.trans (second.trans third)
    have handlers : ((b₁.graph.modify n fun x => { x with region := some r }).regions[r]?.map
        (·.handlers)).getD [] = q.handlers := by
      rw [show (b₁.graph.modify n fun x => { x with region := some r }).regions = b₁.graph.regions from rfl,
        here]
      rfl
    rw [handlers] at drew
    subst drew
    unfold Sheltered
    rw [found]
    refine ⟨_,_,some r,_,whole,⟨r,q,rfl,?_,rfl,u,among,same,?_⟩,?_⟩
    · exact third.onward.regions r q (second.onward.regions r q here)
    · simpa using lists
    · intro x none nil
      simp only [Function.comp_apply,id_eq,nil]

end Standing

end Flow

end RegCode
