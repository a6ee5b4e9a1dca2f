import RegCode.Proofs.Flow.Cutting
import RegCode.Proofs.Flow.Lines
import RegCode.Proofs.Flow.Mirroring
import RegCode.Proofs.Flow.Spacing
import RegCode.Proofs.Recovery.Order

/-! How nodes end. The last statement of a node decides where it goes on, none in front of it does, and what
it decides is the kind of the node: for the graph of a method, and however tests are parted and the graph is
simplified. Without regions that is all that structuring asks of a graph. -/
namespace RegCode

def Family.closing? : Family → Option NodeKind
  | .ifTest | .ifZero => some .cond
  | .packedSwitch | .sparseSwitch => some .switch
  | .return | .returnVoid => some .ret
  | .throw => some .throw
  | _ => none

def Action.closing? : Action → Option NodeKind
  | .branch _ => some .cond
  | .switch _ => some .switch
  | .ret _ => some .ret
  | .throw _ => some .throw
  | _ => none

/-- Actions of which the last one closes as told, and no other. -/
def Closes (as : List Action) : Option NodeKind → Prop
  | none => ∀ a ∈ as, a.closing? = none
  | some k => ∃ front a, as = front ++ [a] ∧ (∀ a ∈ front, a.closing? = none) ∧ a.closing? = some k

variable {as bs : List Action} {k : Option NodeKind}

theorem Closes.behind (closes : Closes bs k) (front : ∀ a ∈ as, a.closing? = none) : Closes (as ++ bs) k := by
  cases k with
  | none => exact List.forall_mem_append.mpr ⟨front,closes⟩
  | some k =>
    obtain ⟨before,a,rfl,open_,ends⟩ := closes
    exact ⟨as ++ before,a,by rw [List.append_assoc],List.forall_mem_append.mpr ⟨front,open_⟩,ends⟩

theorem closesOne (a : Action) : Closes [a] a.closing? := by
  cases closing : a.closing? with
  | none => exact List.forall_mem_singleton.mpr closing
  | some k => exact ⟨[],a,rfl,fun _ none => absurd none List.not_mem_nil,closing⟩

theorem Closes.dropLast (closes : Closes as k) : Closes as.dropLast none := by
  cases k with
  | none => exact fun a member => closes a (List.dropLast_subset _ member)
  | some k =>
    obtain ⟨front,a,rfl,open_,-⟩ := closes
    rw [List.dropLast_concat]
    exact open_

namespace Stmt

variable {ss : List Stmt} {s t : Stmt}

theorem foldConstructorsConcat (other : t.constructorCall? = none) :
    foldConstructors (ss ++ [t]) = foldConstructors ss ++ [t] := by
  have last : ∀ (ss : List Stmt) (done : List (Option Stmt)),
      foldConstructorsFrom done (ss ++ [t]) = some t :: foldConstructorsFrom done ss := by
    intro ss
    induction ss with
    | nil => exact fun done => by simp only [List.nil_append,foldConstructorsFrom,other]
    | cons s ss ih =>
      intro done
      rw [List.cons_append,foldConstructorsFrom,foldConstructorsFrom]
      split
      · exact ih _
      · split <;> exact ih _
  simp [foldConstructors,last]

theorem closesFold (closes : Closes (ss.map Stmt.act) k) : Closes ((foldConstructors ss).map Stmt.act) k := by
  have open_ : ∀ {ss : List Stmt}, Closes (ss.map Stmt.act) none →
      Closes ((foldConstructors ss).map Stmt.act) none := fun {ss} closes => by
    refine List.forall_mem_map.mpr fun s member => ?_
    rcases foldConstructorsMem member with old | ⟨_,_,v,owner,args,_,rfl⟩
    · exact closes _ (List.mem_map_of_mem old)
    · rfl
  cases k with
  | none => exact open_ closes
  | some k =>
    obtain ⟨front,a,parts,before,ends⟩ := closes
    obtain ⟨front,last,rfl,rfl,single⟩ := List.map_eq_append_iff.mp parts
    obtain ⟨t,rfl,rfl⟩ := List.map_eq_singleton_iff.mp single
    have other : t.constructorCall? = none := by
      unfold constructorCall?
      split
      · rename_i act
        rw [act] at ends
        contradiction
      · rfl
    rw [foldConstructorsConcat other,List.map_append]
    exact (show Closes [t.act] (some k) from ends ▸ closesOne t.act).behind (open_ before)

end Stmt

namespace Lower.Yields

variable {m : Method} {i : Instruction}

theorem assignOpen (r : Int) (value : Lowering Expr) :
    Yields (fun a => a.closing? = none) (Lower.assign r value) := after fun _ => after fun _ => pure rfl

theorem operateCloses (m : Method) (i : Instruction) (a b c : Int) :
    Yields (fun act => act.closing? = i.family.closing?) (Lower.operate m i a b c) := by
  unfold Lower.operate
  split <;> rename_i family <;> try rw [family]
  case h_3 | h_8 | h_9 | h_15 | h_16 | h_17 | h_18 | h_21 => exact after fun _ => pure rfl
  case h_20 => exact after fun _ => after fun _ => pure rfl
  case h_23 => exact after fun _ => after fun _ => after fun _ => pure rfl
  case h_24 | h_26 => exact after fun _ => assignOpen _ _
  case h_25 => exact after fun _ => after fun _ => after fun _ => pure rfl
  case h_27 => exact after fun _ => after fun _ => pure rfl
  case h_32 => exact reject i _
  all_goals exact assignOpen _ _

theorem singleCloses (m : Method) (i : Instruction) :
    Yields (fun a => Closes a.toList i.family.closing?) (Lower.single m i) := by
  unfold Lower.single
  split
  case h_1 family | h_2 family =>
    rw [family]
    exact pure fun _ none => absurd none List.not_mem_nil
  case h_3 family =>
    rw [family]
    exact pure (closesOne (.ret none))
  · split
    · exact reject i _
    · exact bind (operateCloses m i _ _ _) fun a same => pure (same ▸ closesOne a)

/-- Lowered code closes as its last instruction does, when none in front of it closes. -/
theorem actionsClose (m : Method) {is : List Instruction} (front : ∀ i ∈ is.dropLast, i.family.closing? = none) :
    Yields (fun as => Closes as (is.getLast?.bind fun i => i.family.closing?)) (Lower.actions m is) := by
  induction is using Lower.actions.induct with
  | case1 => exact pure fun _ none => absurd none List.not_mem_nil
  | case2 i rest family ih | case3 i rest family ih =>
    unfold Lower.actions
    simp only [family]
    refine after fun e => ?_
    cases rest with
    | nil =>
      simp only [List.getLast?_singleton,Option.bind_some,family]
      exact pure (closesOne (.invoke e))
    | cons next rest =>
      dsimp only at ih ⊢
      rw [List.dropLast_cons_cons] at front
      obtain ⟨-,later⟩ := List.forall_mem_cons.mp front
      rw [List.getLast?_cons_cons]
      split
      · rename_i result
        split
        · exact reject next _
        · refine after fun v => ?_
          cases rest with
          | nil =>
            simp only [List.getLast?_singleton,Option.bind_some,result,Lower.actions]
            exact bind (pure rfl) fun more none => pure (none ▸ closesOne (.assign v e false))
          | cons other rest =>
            rw [List.dropLast_cons_cons] at later
            rw [List.getLast?_cons_cons]
            exact bind (ih.1 (List.forall_mem_cons.mp later).2) fun more closes =>
              pure (closes.behind (List.forall_mem_singleton.mpr rfl))
      · exact bind (ih.2 later) fun more closes => pure (closes.behind (List.forall_mem_singleton.mpr rfl))
  | case4 i rest family =>
    unfold Lower.actions
    simp only [family]
    exact reject i _
  | case5 i rest notCall notArray notResult ih =>
    unfold Lower.actions
    split
    · exact absurd ‹_› notCall
    · exact absurd ‹_› notArray
    · exact absurd ‹_› notResult
    · refine bind (singleCloses m i) fun a own => ?_
      cases rest with
      | nil =>
        simp only [List.getLast?_singleton,Option.bind_some,Lower.actions]
        exact bind (pure rfl) fun more none => pure (none ▸ (List.append_nil a.toList).symm ▸ own)
      | cons next rest =>
        rw [List.dropLast_cons_cons] at front
        obtain ⟨first,later⟩ := List.forall_mem_cons.mp front
        rw [List.getLast?_cons_cons]
        rw [first] at own
        exact bind (ih later) fun more closes => pure (closes.behind own)

theorem blockCloses (m : Method) {is : List Instruction} (front : ∀ i ∈ is.dropLast, i.family.closing? = none) :
    Yields (fun ss => Closes (ss.map Stmt.act) (is.getLast?.bind fun i => i.family.closing?)) (Lower.block m is) := by
  refine bind (actionsClose m front) fun acts closes => pure (Stmt.closesFold ?_)
  rw [List.map_map,show Stmt.act ∘ (fun a => (⟨0,a⟩ : Stmt)) = id from rfl,List.map_id]
  exact closes

end Lower.Yields

def NodeKind.closing? : NodeKind → Option NodeKind
  | .stmt => none
  | k => some k

/-- The last statement of a node is of its kind, and the node leads on unless it ends the method. -/
structure Node.Closed (n : Node) : Prop where
  stmts : Closes (n.stmts.map Stmt.act) n.kind.closing?
  leads : n.kind = .stmt → n.succs ≠ []
  default : n.kind = .switch → n.default ≠ none

/-- A key stands for one way only. -/
def Node.Told (n : Node) : Prop :=
  n.kind = .switch → ∀ c ∈ n.cases, ∀ d ∈ n.cases, ∀ k ∈ c.keys, k ∈ d.keys → c.target = d.target

theorem closesLast {as : List Action} {k : Option NodeKind} (closes : Closes as k) :
    (as.getLast?.bind Action.closing?) = k := by
  cases k with
  | none =>
    cases last : as.getLast? with
    | none => rfl
    | some a => exact closes a (List.mem_of_getLast? last)
  | some k =>
    obtain ⟨front,a,rfl,-,ends⟩ := closes
    rw [List.getLast?_concat]
    exact ends

namespace Node

variable {n x : Node}

/-- A property of nodes that parting their tests and simplifying leave true. -/
structure Lasts (P : Node → Prop) : Prop where
  congr : ∀ {n x : Node}, P n → x.kind = n.kind → x.stmts = n.stmts → x.succs = n.succs →
    x.cases = n.cases → x.default = n.default → P x
  retarget : ∀ {n : Node} i j, P n → P (n.retarget i j)
  front : ∀ {n x : Node} {i : NodeId}, P n → x.kind = .stmt → x.stmts = n.stmts.dropLast → x.succs = [i] → P x
  last : ∀ {n : Node} {s : Stmt}, P n → n.stmts.getLast? = some s → P { n with stmts := [s] }
  join : ∀ {n x : Node}, P n → P x → n.kind = .stmt → x.kind ≠ .switch →
    P { n with stmts := n.stmts ++ x.stmts, kind := x.kind, succs := x.succs }

theorem Closed.congr (closed : n.Closed) (kind : x.kind = n.kind) (stmts : x.stmts = n.stmts)
    (succs : x.succs = [] → n.succs = []) (default : x.default = none → n.default = none) : x.Closed :=
  ⟨by rw [stmts,kind]; exact closed.stmts,fun here none => closed.leads (kind ▸ here) (succs none),
    fun here none => closed.default (kind ▸ here) (default none)⟩

theorem closedLasts : Lasts Closed where
  congr closed kind stmts succs _ default := closed.congr kind stmts (succs ▸ id) (default ▸ id)
  retarget {n} i j closed := by
    refine closed.congr rfl rfl (fun none => ?_) fun none => Option.map_eq_none_iff.mp none
    cases succs : n.succs with
    | nil => rfl
    | cons t ts => simp [Node.retarget,succs,List.eraseDups_cons] at none
  front {n x i} closed kind stmts succs := by
    refine ⟨?_,fun _ none => absurd (succs ▸ none) (List.cons_ne_nil _ _),fun here => absurd (kind.symm.trans here) (by decide)⟩
    rw [kind,stmts,List.map_dropLast]
    exact closed.stmts.dropLast
  last {n s} closed ends := by
    have same : s.act.closing? = n.kind.closing? := by
      have last := closesLast closed.stmts
      rwa [List.getLast?_map,ends] at last
    exact ⟨same ▸ closesOne s.act,closed.leads,closed.default⟩
  join {n x} closed other kind plain := by
    refine ⟨?_,other.leads,fun here => absurd here plain⟩
    have open_ := closed.stmts
    rw [kind] at open_
    rw [List.map_append]
    exact other.stmts.behind open_

theorem toldLasts : Lasts Told where
  congr told kind _ _ cases _ := by
    unfold Told
    rw [kind,cases]
    exact told
  retarget i j told kind := by
    intro c left d right k inLeft inRight
    obtain ⟨c,there,rfl⟩ := List.mem_map.mp left
    obtain ⟨d,there',rfl⟩ := List.mem_map.mp right
    exact congrArg (fun t => if t = i then j else t) (told kind c there d there' k inLeft inRight)
  front _ kind _ _ here := absurd (kind.symm.trans here) (by decide)
  last told _ := told
  join _ _ _ plain here := absurd here plain

/-- A node that closes as its kind says ends as the kind says. -/
theorem Closed.ends (closed : n.Closed) (formed : n.Formed) (told : n.Told)
    (alone : n.kind = .cond ∨ n.kind = .switch → n.stmts.length ≤ 1) : n.Ends := by
  have exits : Tree.endsInExit n.stmts = true ↔ n.kind.closing? = some .ret ∨ n.kind.closing? = some .throw := by
    have last := closesLast closed.stmts
    rw [List.getLast?_map] at last
    rw [← last]
    unfold Tree.endsInExit
    rcases n.stmts.getLast? with _ | ⟨_,act⟩
    · simp
    · cases act <;> simp [Action.closing?]
  unfold Ends
  cases kind : n.kind with
  | stmt =>
    rw [kind] at exits
    obtain ⟨t,single⟩ := List.length_eq_one_iff.mp
      (Nat.le_antisymm (formed.stmt kind) (List.length_pos_iff.mpr (closed.leads kind)))
    exact ⟨⟨t,single⟩,by simpa [NodeKind.closing?] using exits⟩
  | cond =>
    obtain ⟨t,f,-,onTrue,onFalse,succs⟩ := formed.cond kind
    exact ⟨alone (.inl kind),t,f,onTrue,onFalse,succs⟩
  | switch =>
    obtain ⟨t,default⟩ := Option.ne_none_iff_exists'.mp (closed.default kind)
    refine ⟨alone (.inr kind),⟨t,default⟩,fun m => ?_,told kind⟩
    rw [(formed.switch kind).2,or_comm,List.mem_map]
  | ret => exact ⟨formed.exits (by rw [kind]; rfl),exits.mpr (.inl (by rw [kind]; rfl))⟩
  | throw => exact ⟨formed.exits (by rw [kind]; rfl),exits.mpr (.inr (by rw [kind]; rfl))⟩

end Node

theorem Block.closingNodeKind (b : Block) (last : Instruction) :
    (b.nodeKind last).closing? = if b.joins last then none else last.family.closing? := by
  unfold Block.nodeKind Block.joins
  by_cases joins : b.fall = some last.target <;> cases last.family <;>
    simp [NodeKind.closing?,Family.closing?,joins]

namespace Graph

variable {m : Method} {g h : Graph} {i j k : NodeId} {P : Node → Prop}

/-- Whatever is said of all nodes. -/
def All (P : Node → Prop) (g : Graph) : Prop := ∀ k ∈ g.nodes, P (g.node k)

section
variable (lasts : Node.Lasts P) (coherent : g.Coherent) (all : g.All P) (member : i ∈ g.nodes)
include lasts coherent all member

omit coherent all member in
theorem detourLasts {x : Node} (before : P x) : P (g.detour i k x) := by
  have first : P (if k ∈ (g.node i).preds then x.retarget i g.store.size else x) := by
    split
    · exact lasts.retarget _ _ before
    · exact before
  unfold detour
  dsimp only
  split
  · exact lasts.congr first rfl rfl rfl rfl rfl
  · exact first

theorem allSplit {last : Stmt} (parts : g.Parts i last) : (g.split i last).All P := by
  intro k listed
  rw [nodesSplit,List.mem_append,List.mem_singleton] at listed
  rw [nodeSplit coherent member]
  split
  · exact lasts.front (all i member) rfl rfl rfl
  · rename_i other
    split
    · have bare : P { g.node i with stmts := [last], handler := false } :=
        lasts.congr (lasts.last (all i member) parts.ends) rfl rfl rfl rfl rfl
      exact lasts.congr (detourLasts lasts bare) rfl rfl rfl rfl rfl
    · exact lasts.congr (detourLasts lasts (all k (listed.resolve_right other))) rfl rfl rfl rfl rfl

theorem allMerge (fits : g.Merges i j) : (g.merge i j).All P := by
  intro k listed
  obtain ⟨old,other⟩ := nodesMerge.mp listed
  rw [fits.node coherent member other]
  by_cases here : k = i
  · subst here
    simp only [if_true]
    exact lasts.congr (lasts.join (all k member) (all j (fits.inside coherent member)) fits.kind fits.switch) rfl rfl rfl rfl rfl
  · simp only [here,if_false]
    exact lasts.congr (all k old) rfl rfl rfl rfl rfl

theorem allBypass (fits : g.Bypasses i j) : (g.bypass i j).All P := by
  intro k listed
  obtain ⟨old,other⟩ := nodesBypass.mp listed
  rw [fits.node coherent member other]
  have moved : P (if k ∈ (g.node i).preds then (g.node k).retarget i j else g.node k) := by
    split
    · exact lasts.retarget _ _ (all k old)
    · exact all k old
  exact lasts.congr moved rfl rfl rfl rfl rfl

omit member in
theorem allRenumber : g.renumber.All P := by
  cases entry : g.entry with
  | none =>
    rw [renumber,if_pos (by simp [isEmpty,entry])]
    exact all
  | some e =>
    have numbered := coherent.numbered entry
    intro k listed
    obtain ⟨num,node⟩ := numbered.node k listed
    rw [node]
    exact lasts.congr (all k (numbered.old k listed)) rfl rfl rfl rfl rfl

omit member in
theorem allSplitTests : g.splitTests.All P :=
  (keptSplitTests (P := fun g => g.Coherent ∧ g.All P) (fun _ _ _ before member parts =>
    ⟨coherentSplit before.1 member,allSplit lasts before.1 before.2 member parts⟩) ⟨coherent,all⟩).2

omit member in
theorem allSimplify : g.simplify.All P :=
  (keptSimplify (P := fun g => g.Coherent ∧ g.All P)
    (fun _ _ _ before member fits =>
      ⟨coherentMerge before.1 member fits,allMerge lasts before.1 before.2 member fits⟩)
    (fun _ _ _ before member fits =>
      ⟨coherentBypass before.1 member fits,allBypass lasts before.1 before.2 member fits⟩)
    (fun _ before => ⟨coherentRenumber before.1,allRenumber lasts before.1 before.2⟩)
    ⟨coherent,all⟩).2

end

theorem Mirrors.closed {b : Block} {last : Instruction} (mirrors : g.Mirrors m i b last)
    (valid : m.verify = .ok ()) (fits : m.Fits) (member : b ∈ Block.split m) (ends : b.last? = some last) :
    (g.node i).Closed := by
  have straight : ∀ x ∈ b.insts.dropLast, x.family.closing? = none := by
    intro x inner
    obtain ⟨branch,terminator⟩ := Block.splitStraight valid fits member inner
    cases family : x.family <;> rw [family] at branch terminator <;> first | rfl | contradiction
  have final : b.insts.getLast? = some last := ends
  have falls : last.family.isTerminator = false → ∃ o, b.fall = some o := by
    intro goes
    refine Option.ne_none_iff_exists'.mp fun none => ?_
    have stops := (Block.splitStops valid fits member).mp none last ends
    rw [goes] at stops
    contradiction
  have leads : ∀ o, b.fall = some o → o ∈ b.leads := fun o fall => List.mem_append_right _ (by simp [fall])
  obtain ⟨ss,lowered,acts⟩ := mirrors.stmts
  have closes := Lower.Yields.blockCloses m straight _ _ _ lowered
  rw [final,Option.bind_some] at closes
  refine ⟨?_,fun kind none => ?_,fun kind none => ?_⟩
  · rw [acts,mirrors.kind,Block.closingNodeKind]
    split
    · rw [List.map_dropLast]
      exact closes.dropLast
    · exact closes
  · rw [mirrors.kind] at kind
    obtain ⟨o,out⟩ : ∃ o, o ∈ b.leads := by
      cases terminal : last.family.isTerminator with
      | false => exact (falls terminal).imp leads
      | true =>
        have jump : last.family = .goto := by
          unfold Block.nodeKind at kind
          cases family : last.family <;> simp_all [Family.isTerminator]
        refine ⟨last.target,List.mem_append_left _ ?_⟩
        rw [(Block.splitEnds member ends).1,Instruction.targets,jump]
        exact List.mem_singleton_self _
    obtain ⟨j,-,there⟩ := mirrors.leads o out
    have onward := (mirrors.succs j).mpr ⟨o,out,there⟩
    rw [none] at onward
    exact absurd onward List.not_mem_nil
  · have goes : last.family.isTerminator = false := by
      have own := mirrors.kind ▸ kind
      unfold Block.nodeKind at own
      cases family : last.family <;> simp_all [Family.isTerminator]
    obtain ⟨o,fall⟩ := falls goes
    obtain ⟨j,-,there⟩ := mirrors.leads o (leads o fall)
    have default := (mirrors.default kind j).mpr ⟨o,fall,there⟩
    rw [none] at default
    contradiction

/-- A switch whose keys differ leads one way for each of them. -/
theorem Mirrors.told {b : Block} {last : Instruction} (mirrors : g.Mirrors m i b last)
    (distinct : ((Flow.keysOf last).map Prod.fst).Nodup)
    (once : ∀ i j o, g.At i o → g.At j o → i = j) : (g.node i).Told := by
  intro kind c left d right k inLeft inRight
  obtain ⟨o,here,there⟩ := ((mirrors.cases kind).2 k c.target).mp ⟨c,left,rfl,inLeft⟩
  obtain ⟨p,here',there'⟩ := ((mirrors.cases kind).2 k d.target).mp ⟨d,right,rfl,inRight⟩
  have same := List.inj_on_of_nodup_map distinct here here' rfl
  exact once _ _ o there ((Prod.mk.inj same).2 ▸ there')

open RegCode.Flow in
theorem allOfMethod {P : Node → Prop} (valid : m.verify = .ok ()) (fits : m.Fits) (clear : m.Clear)
    (made : ofMethod m = .ok g)
    (front : ∀ {x : Node}, x.kind = .stmt → x.stmts = [] → x.succs = [0] → P x)
    (block : ∀ {i : NodeId} {b : Block} {last : Instruction}, b ∈ Block.split m → b.last? = some last →
      last ∈ m.code → g.Mirrors m i b last → (∀ i j o, g.At i o → g.At j o → i = j) → P (g.node i)) :
    g.All P := by
  have listed := (builtOfMethod made).listed
  rcases finishedOfMethod made with ⟨none,same⟩ | ⟨first,rest,more,b,blocks,drawn,-,finished⟩
  · rw [same]
    exact fun k member => absurd member List.not_mem_nil
  · have known := drawn.standing.known
    have placed : ∀ {j o}, g.At j o ↔ Place (first :: more) j o := finished.placed known (Nat.succ_pos _)
    have once : ∀ i j o, g.At i o → g.At j o → i = j := fun i j o left right =>
      Option.some.inj (((known.known o i).mpr (placed.mp left)).symm.trans
        ((known.known o j).mpr (placed.mp right)))
    intro k member
    by_cases ahead : g.Front k
    · rcases finished.front with ⟨here,-⟩ | ⟨here,-,own,-⟩
      · exact absurd (Option.some.inj (ahead.1.symm.trans here)) ahead.2
      · obtain rfl := Option.some.inj (ahead.1.symm.trans here)
        exact front (congrArg Node.kind own) (congrArg Node.stmts own) (congrArg Node.succs own)
    · have here : g.At k (g.node k).start := ⟨finished.coherent.inStore k member,ahead,rfl⟩
      obtain ⟨c,found,same⟩ := placed.mp here
      have among := known.inside c (List.mem_of_getElem? found)
      obtain ⟨last,ends,there⟩ := Block.lastOf valid fits among
      exact block among ends there
        (drawn.mirrors valid fits clear finished listed among ends (same ▸ here) (Nat.succ_pos _)) once

/-- Each block of the code closes as its last instruction does. -/
theorem closedOfMethod (valid : m.verify = .ok ()) (fits : m.Fits) (clear : m.Clear) (made : ofMethod m = .ok g) :
    g.All Node.Closed := by
  refine allOfMethod valid fits clear made (fun kind stmts succs => ?_) fun member ends _ mirrors _ =>
    mirrors.closed valid fits member ends
  refine ⟨?_,fun _ none => absurd (succs ▸ none) (List.cons_ne_nil _ _),fun here => absurd (kind.symm.trans here) (by decide)⟩
  rw [kind,stmts]
  exact fun a none => absurd none List.not_mem_nil

end Graph

/-- No switch has a key twice. -/
def Method.KeysDistinct (m : Method) : Prop := ∀ i ∈ m.code, ((Flow.keysOf i).map Prod.fst).Nodup

namespace Graph

variable {m : Method} {g : Graph}

theorem toldOfMethod (valid : m.verify = .ok ()) (fits : m.Fits) (clear : m.Clear) (distinct : m.KeysDistinct)
    (made : ofMethod m = .ok g) : g.All Node.Told :=
  allOfMethod valid fits clear made (fun kind _ _ here => absurd (kind.symm.trans here) (by decide))
    fun _ _ there mirrors once => mirrors.told (distinct _ there) once

open RegCode.Flow in
theorem regionsOfMethod (bare : m.tries = []) (made : ofMethod m = .ok g) : g.regions = #[] := by
  rcases finishedOfMethod made with ⟨-,same⟩ | ⟨first,rest,more,b,-,drawn,-,finished⟩
  · rw [same]
  · refine Array.eq_empty_of_size_eq_zero (finished.regions.trans (Nat.eq_zero_of_not_pos fun some => ?_))
    obtain ⟨key,known⟩ := drawn.standing.tabled.all 0 some
    obtain ⟨t,member,-⟩ := drawn.standing.tabled.keyed key 0 known
    rw [bare] at member
    exact absurd member List.not_mem_nil

theorem regionsSplitTests (bare : g.regions = #[]) : g.splitTests.regions = #[] :=
  keptSplitTests (P := fun g => g.regions = #[]) (fun g i last before _ _ => by
    rw [regionsSplit,before,Array.map_empty]) bare

theorem regionsSimplify (coherent : g.Coherent) (bare : g.regions = #[]) : g.simplify.regions = #[] :=
  (keptSimplify (P := fun g => g.Coherent ∧ g.regions = #[])
    (fun g i j before member fits =>
      ⟨coherentMerge before.1 member fits,by rw [(g.framedMerge i j).rest]; exact before.2⟩)
    (fun g i j before member fits =>
      ⟨coherentBypass before.1 member fits,by rw [(g.framedBypass i j).rest]; exact before.2⟩)
    (fun g before => by
      refine ⟨coherentRenumber before.1,?_⟩
      cases entry : g.entry with
      | none =>
        rw [renumber,if_pos (by simp [isEmpty,entry])]
        exact before.2
      | some e =>
        rw [(before.1.numbered entry).rest]
        exact before.2) ⟨coherent,bare⟩).2

/-- What is structured for verified code ends as its kinds say. -/
theorem endsOfMethod (valid : m.verify = .ok ()) (fits : m.Fits) (clear : m.Clear) (distinct : m.KeysDistinct)
    (made : ofMethod m = .ok g) (readied : g.splitTests.simplify.Readied) : ∀ n ∈ g.splitTests.simplify.rpo,
      (g.splitTests.simplify.node n).Closed ∧ (g.splitTests.simplify.node n).Ends := by
  have coherent := (shieldedOfMethod made).toCoherent
  have parted := (shieldedSplitTests (shieldedOfMethod made)).toCoherent
  have closed : g.splitTests.simplify.All Node.Closed := allSimplify Node.closedLasts parted
    (allSplitTests Node.closedLasts coherent (closedOfMethod valid fits clear made))
  have told : g.splitTests.simplify.All Node.Told := allSimplify Node.toldLasts parted
    (allSplitTests Node.toldLasts coherent (toldOfMethod valid fits clear distinct made))
  intro n listed
  have member := readied.rpo ▸ listed
  exact ⟨closed n member,
    (closed n member).ends (readied.shielded.formed n member) (told n member) (readied.shaped.alone n)⟩

/-- Without protected ranges there are no regions either. -/
theorem unprotectedOfMethod (valid : m.verify = .ok ()) (fits : m.Fits) (clear : m.Clear)
    (distinct : m.KeysDistinct) (bare : m.tries = []) (made : ofMethod m = .ok g) :
    g.splitTests.simplify.entry = none ∨ g.splitTests.simplify.Unprotected := by
  refine (readiedOfMethod made).imp_right fun readied => ?_
  have parted := (shieldedSplitTests (shieldedOfMethod made)).toCoherent
  have regions := regionsSimplify parted (regionsSplitTests (regionsOfMethod bare made))
  refine ⟨readied.edged,readied.ranked,regions,fun n listed => ?_,
    fun n listed => (endsOfMethod valid fits clear distinct made readied n listed).2⟩
  rcases readied.shielded.shields n (readied.rpo ▸ listed) with full | ⟨p,stripped⟩
  · refine List.eq_nil_iff_forall_not_mem.mpr fun j leads => ?_
    obtain ⟨r,-,c,held,-⟩ := (full j).mp leads
    simp [handlersOf,region?,regions] at held
  · exact stripped.catchSuccs

end Graph

end RegCode
