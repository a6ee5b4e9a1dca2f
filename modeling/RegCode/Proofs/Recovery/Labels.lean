import RegCode.Proofs.Recovery.Execution
import RegCode.Proofs.Recovery.Scopes

/-! Labels of structured code. No two parts have the same label. A jump to a label leads to the part
that stands for its node, unless a jump out of that part has given it the name of a scope, or it was
called after another node that it stands for. -/
namespace RegCode

namespace Tree

variable {α : Type}

def labels (t : Tree α) : List α := t.parts.map label

def exit? : Tree α → Option String
  | breakTo _ t | continueTo _ t => some t
  | _ => none

def exits (t : Tree α) : List String := t.parts.filterMap exit?

end Tree

namespace Recovery

open RegCode.Tree

def Key.isPart : Key → Bool
  | .part _ _ => true
  | _ => false

def Formed : Piece → Prop
  | .stmts l _ _ => l = .none ∨ ∃ id, l = .part id ""
  | .branch l _ _ _ _ | .guarded l _ _ _ _ => ∃ id, l = .part id ""
  | .loop l _ _ h _ _ => ∃ id, ∃ n : NodeId, l = .part id (loopName n) ∧ h = n
  | .switch l m _ _ => ∃ id, ∃ n : NodeId, l = .part id (switchName n) ∧ m = n
  | .goto l _ => ∃ n, l = .aim n
  | .breakTo l _ | .continueTo l _ => l = .none
  | .block _ _ => False

def CalledBy (s : State) (key : Key) (x : String) : Prop :=
  x = key.own ∧ key.own ≠ "" ∨ ∃ m, s.placed.get? m = some key ∧ x = nodeName m

def Aimed (s : State) (n : NodeId) (text : String) : Prop :=
  s.placed.get? n = none ∧ n ∈ s.wanted ∧ text = nodeName n ∨
    ∃ key x, s.placed.get? n = some key ∧ s.names.get? key = some x ∧ CalledBy s key text ∧
      (text = nodeName n ∨ x = text ∨ x = key.own)

theorem Aimed.named {s : State} {n : NodeId} {text : String} (aimed : Aimed s n text) : text ≠ "" := by
  obtain ⟨-,-,rfl⟩ | ⟨key,x,-,-,⟨rfl,own⟩ | ⟨m,-,rfl⟩,-⟩ := aimed
  · exact nodeNamed n
  · exact own
  · exact nodeNamed m

structure Labelled (ps : List Piece) (s : State) : Prop where
  formed : ∀ t ∈ ps, Formed t
  distinct : ((ps.map label).filter Key.isPart).Nodup
  below : ∀ t ∈ ps, ∀ id own, t.label = .part id own → id < s.nextKey
  placed : ∀ n key, s.placed.get? n = some key → key.isPart = true ∧ ∃ t ∈ ps, t.label = key
  names : ∀ key x, s.names.get? key = some x →
    x = key.own ∧ key.own ≠ "" ∧ (∃ t ∈ ps, t.exit? = some x) ∨
      ∃ m, s.placed.get? m = some key ∧ x = nodeName m
  jumps : ∀ l text, .goto l text ∈ ps → ∃ n, l = .aim n ∧ Aimed s n text
  marked : ∀ n, s.mark n ≠ .unvisited → (s.placed.get? n).isSome

namespace Labelled

variable {p : Plan} {n : NodeId} {s s' : State} {ps qs : List Piece}

theorem calledLater {key : Key} {x : String} (later : Later s s') (called : CalledBy s key x) :
    CalledBy s' key x := called.imp id fun ⟨m,there,same⟩ => ⟨m,later.placed m key there,same⟩

theorem aimedKeeps {text : String} {key : Key} {x : String} (later : Later s s')
    (here : s.placed.get? n = some key) (named : s.names.get? key = some x)
    (called : CalledBy s key text) (either : text = nodeName n ∨ x = text ∨ x = key.own) :
    Aimed s' n text := by
  have called' := calledLater later called
  have here' := later.placed n key here
  rcases later.named key x named with same | own
  · exact .inr ⟨key,x,here',same,called',either⟩
  · exact .inr ⟨key,key.own,here',own,called',.inr (.inr rfl)⟩

theorem aimedSame {text : String} (later : Later s s') (placed : s'.placed = s.placed)
    (aimed : Aimed s n text) : Aimed s' n text := by
  rcases aimed with ⟨none,waits,same⟩ | ⟨key,x,here,named,called,either⟩
  · exact .inl ⟨by rwa [placed],later.wanted n waits,same⟩
  · exact aimedKeeps later here named called either

theorem aimedPlace {text : String} (m : NodeId) (key : Key) (aimed : Aimed s n text) :
    Aimed (s.place m key) n text := by
  have later := laterPlace s m key
  rcases aimed with ⟨none,waits,same⟩ | ⟨k,x,here,named,called,either⟩
  · have stands := s.placeGet m key n
    by_cases here : n = m
    · subst here
      rw [if_pos ⟨rfl,none⟩] at stands
      obtain ⟨x,named⟩ : ∃ x, (s.place n key).names.get? key = some x := by
        rw [State.placeNames]
        split
        · exact ⟨_,rfl⟩
        · rename_i other
          exact Option.ne_none_iff_exists'.mp fun unnamed => other ⟨rfl,none,waits,unnamed⟩
      exact .inr ⟨key,x,stands,named,.inr ⟨n,stands,same⟩,.inl same⟩
    · rw [if_neg fun both => here both.1] at stands
      exact .inl ⟨stands.trans none,later.wanted n waits,same⟩
  · exact aimedKeeps later here named called either

theorem blank : Labelled [] {} where
  formed := nofun
  distinct := List.nodup_nil
  below := nofun
  placed n key here := by simp at here
  names key x here := by simp at here
  jumps := nofun
  marked n here := absurd rfl here

theorem fewer (labelled : Labelled ps s) (formed : ∀ t ∈ qs, t ∈ ps)
    (distinct : ((qs.map label).filter Key.isPart).Nodup)
    (kept : ∀ t ∈ ps, t ∈ qs ∨ t.label = .none ∧ t.exit? = some "") : Labelled qs s where
  formed t member := labelled.formed t (formed t member)
  distinct := distinct
  below t member := labelled.below t (formed t member)
  placed n key here := by
    obtain ⟨part,t,member,rfl⟩ := labelled.placed n key here
    refine ⟨part,t,(kept t member).resolve_right fun dropped => ?_,rfl⟩
    rw [dropped.1] at part
    contradiction
  names key x here := by
    refine (labelled.names key x here).imp ?_ id
    rintro ⟨same,own,t,member,exit⟩
    refine ⟨same,own,t,(kept t member).resolve_right fun dropped => ?_,exit⟩
    exact own (same ▸ Option.some.inj (exit.symm.trans dropped.2))
  jumps l text member := labelled.jumps l text (formed _ member)
  marked := labelled.marked

theorem more {t : Piece} (labelled : Labelled ps s) (formed : Formed t) (plain : t.label.isPart = false)
    (jump : ∀ l text, t = .goto l text → ∃ n, l = .aim n ∧ Aimed s n text) :
    Labelled (ps ++ [t]) s where
  formed := List.forall_mem_append.mpr ⟨labelled.formed,List.forall_mem_singleton.mpr formed⟩
  distinct := by simpa [plain] using labelled.distinct
  below := by
    refine List.forall_mem_append.mpr ⟨labelled.below,List.forall_mem_singleton.mpr ?_⟩
    intro id own same
    rw [same] at plain
    contradiction
  placed n key here := by
    obtain ⟨part,t,member,same⟩ := labelled.placed n key here
    exact ⟨part,t,List.mem_append_left _ member,same⟩
  names key x here := by
    refine (labelled.names key x here).imp ?_ id
    rintro ⟨same,own,t,member,exit⟩
    exact ⟨same,own,t,List.mem_append_left _ member,exit⟩
  jumps l text member := (List.mem_append.mp member).elim (labelled.jumps l text)
    fun last => jump l text (List.mem_singleton.mp last).symm
  marked := labelled.marked

theorem renamed (labelled : Labelled ps s) (later : Later s s') (marks : s'.marks = s.marks)
    (placed : s'.placed = s.placed) (next : s'.nextKey = s.nextKey)
    (names : ∀ key x, s'.names.get? key = some x → s.names.get? key = some x ∨
      x = key.own ∧ key.own ≠ "" ∧ (∃ t ∈ ps, t.exit? = some x) ∨
        ∃ m, s.placed.get? m = some key ∧ x = nodeName m) : Labelled ps s' where
  formed := labelled.formed
  distinct := labelled.distinct
  below := next ▸ labelled.below
  placed := placed ▸ labelled.placed
  names key x here := by
    rw [placed]
    exact (names key x here).elim (labelled.names key x) id
  jumps l text member := by
    obtain ⟨n,same,aimed⟩ := labelled.jumps l text member
    exact ⟨n,same,aimedSame later placed aimed⟩
  marked n here := by
    rw [State.mark,marks] at here
    exact placed ▸ labelled.marked n here

theorem exit {t : Piece} {scope : Option Key} (labelled : Labelled ps s) (named : Named scope)
    (formed : Formed t) (label : t.label = .none) (exit : t.exit? = some (scopeText scope)) :
    Labelled (ps ++ [t]) (s.nameScope scope) := by
  have written := labelled.more formed (by rw [label]; rfl) fun l text same => by
    subst same
    contradiction
  cases scope with
  | none => exact written
  | some k =>
    refine written.renamed (laterNameScope ..) rfl rfl rfl fun key x here => ?_
    rw [State.namesNameScope] at here
    split at here
    · rename_i same
      subst same
      cases Option.some.inj here
      exact .inr (.inl ⟨rfl,named key rfl,t,by simp,exit⟩)
    · exact .inl here

theorem goto (labelled : Labelled ps s) (n : NodeId) :
    Labelled (ps ++ [(s.goto n).1]) (s.goto n).2 := by
  obtain ⟨placed,marks,next,cases⟩ := s.gotoLabel n
  have renamed : Labelled ps (s.goto n).2 := by
    refine labelled.renamed (laterGoto s n) marks placed next fun key x here => ?_
    obtain ⟨-,-,names,-⟩ | ⟨-,k,stands,⟨_,-,-,names⟩ | ⟨-,-,names⟩⟩ := cases
    · exact .inl (by rwa [names] at here)
    · exact .inl (by rwa [names] at here)
    · rw [names,Table.get?_insert] at here
      split at here
      · rename_i same
        cases Option.some.inj here
        exact .inr (.inr ⟨n,(beq_iff_eq.mp same) ▸ stands,rfl⟩)
      · exact .inl here
  obtain ⟨text,jump,aimed⟩ : ∃ text, (s.goto n).1 = .goto (.aim n) text ∧ Aimed (s.goto n).2 n text := by
    simp only [Aimed,placed]
    obtain ⟨none,jump,-,wanted⟩ | ⟨-,key,here,⟨name,named,jump,names⟩ | ⟨-,jump,names⟩⟩ := cases
    · exact ⟨_,jump,.inl ⟨none,wanted ▸ Graph.insertOnceMem.mpr (.inr rfl),rfl⟩⟩
    · refine ⟨name,jump,.inr ⟨key,name,here,by rw [names,named],?_,.inr (.inl rfl)⟩⟩
      rw [CalledBy,placed]
      exact (labelled.names key name named).imp (fun own => ⟨own.1,own.2.1⟩) id
    · refine ⟨_,jump,.inr ⟨key,nodeName n,here,by rw [names]; simp,.inr ⟨n,?_,rfl⟩,.inl rfl⟩⟩
      rwa [placed]
  rw [jump]
  refine renamed.more ⟨n,rfl⟩ rfl fun l text' same => ?_
  cases same
  exact ⟨n,rfl,aimed⟩

theorem place {t : Piece} (labelled : Labelled ps s) (n : NodeId) (member : t ∈ ps)
    (part : t.label.isPart = true) : Labelled ps (s.place n t.label) where
  formed := labelled.formed
  distinct := labelled.distinct
  below := (s.placeRest n t.label).1 ▸ labelled.below
  placed m key here := by
    rw [State.placeGet] at here
    split at here
    · cases Option.some.inj here
      exact ⟨part,t,member,rfl⟩
    · exact labelled.placed m key here
  names key x here := by
    rw [State.placeNames] at here
    split at here
    · rename_i all
      obtain ⟨rfl,none,-⟩ := all
      refine .inr ⟨n,?_,(Option.some.inj here).symm⟩
      rw [State.placeGet,if_pos ⟨rfl,none⟩]
    · refine (labelled.names key x here).imp id ?_
      rintro ⟨m,there,same⟩
      exact ⟨m,(laterPlace s n t.label).placed m key there,same⟩
  jumps l text inside := by
    obtain ⟨m,same,aimed⟩ := labelled.jumps l text inside
    exact ⟨m,same,aimedPlace n t.label aimed⟩
  marked m here := by
    rw [State.mark,(State.placeFields ..).1] at here
    exact (laterPlace s n t.label).some (labelled.marked m here)

theorem beginsFormed {t : Piece} (begins : Begins s n t) :
    Formed t ∧ ∃ own, t.label = .part s.nextKey own := by
  cases t with
  | stmts l m ss => exact ⟨.inr ⟨_,begins⟩,_,begins⟩
  | branch l m c a b => exact ⟨⟨_,begins⟩,_,begins⟩
  | guarded l r body cs z => exact ⟨⟨_,begins⟩,_,begins⟩
  | loop l k m h c body => exact ⟨⟨_,n,begins⟩,_,begins.1⟩
  | switch l m v arms => exact ⟨⟨_,n,begins⟩,_,begins.1⟩
  | _ => exact begins.elim

theorem begin {t : Piece} (labelled : Labelled ps s) (begins : Begins s n t) :
    Labelled (ps ++ [t]) s.bump := by
  obtain ⟨formed,own,label⟩ := beginsFormed begins
  have new : ∀ u ∈ ps, u.label ≠ t.label := by
    intro u member same
    exact Nat.lt_irrefl _ (labelled.below u member _ _ (same.trans label))
  refine ⟨List.forall_mem_append.mpr ⟨labelled.formed,List.forall_mem_singleton.mpr formed⟩,?_,
    List.forall_mem_append.mpr ⟨fun u member id own same => ?_,List.forall_mem_singleton.mpr ?_⟩,
    fun m key here => ?_,fun key x here => ?_,fun l text member => ?_,labelled.marked⟩
  · have last : [t.label].filter Key.isPart = [t.label] := by simp [label,Key.isPart]
    rw [List.map_append,List.map_singleton,List.filter_append,last]
    refine labelled.distinct.append (List.nodup_singleton _) ?_
    rw [List.disjoint_singleton]
    intro inside
    obtain ⟨u,member,same⟩ := List.mem_map.mp (List.mem_filter.mp inside).1
    exact new u member same
  · exact Nat.lt_succ_of_lt (labelled.below u member id own same)
  · intro id own' same
    cases same.symm.trans label
    exact Nat.lt_succ_self _
  · obtain ⟨part,u,member,same⟩ := labelled.placed m key here
    exact ⟨part,u,List.mem_append_left _ member,same⟩
  · refine (labelled.names key x here).imp ?_ id
    rintro ⟨same,own,u,member,exit⟩
    exact ⟨same,own,u,List.mem_append_left _ member,exit⟩
  · rcases List.mem_append.mp member with member | last
    · exact labelled.jumps l text member
    · cases List.mem_singleton.mp last
      exact begins.elim

theorem stroke {a b : Sheet} (labelled : Labelled a.parts a.state) (stroke : Stroke a b) :
    Labelled b.parts b.state := by
  cases stroke with
  | breaks named => exact labelled.exit named rfl rfl rfl
  | continues named => exact labelled.exit named rfl rfl rfl
  | jumps t => exact labelled.goto t
  | opens begins =>
    obtain ⟨-,own,label⟩ := beginsFormed begins
    exact (labelled.begin begins).place _ (List.mem_append_right _ (List.mem_singleton_self _))
      (by rw [label]; rfl)
  | stands m part named => exact labelled.place m part (by rw [named]; rfl)
  | @marks ps s n m placed =>
    refine { labelled with marked := fun k here => ?_ }
    rw [State.markSetMark] at here
    split at here
    · rename_i same
      exact same ▸ placed
    · exact labelled.marked k here
  | quiet marks placed names next wanted =>
    exact labelled.renamed (.quiet placed names wanted) marks placed next
      fun key x here => .inl (by rwa [names] at here)
  | copies n ss => exact labelled.more (.inl rfl) rfl fun l text same => nomatch same
  | @drops ps s j l jump =>
    have last := labelled.formed j (List.mem_append_right _ (List.mem_singleton_self _))
    have label : j.label = .none := by rcases jump with rfl | rfl <;> exact last
    refine labelled.fewer (fun t => List.mem_append_left _) ?_ fun t member => ?_
    · simpa [label,Key.isPart] using labelled.distinct
    · refine (List.mem_append.mp member).imp id fun last => ?_
      obtain rfl := List.mem_singleton.mp last
      exact ⟨label,by rcases jump with rfl | rfl <;> rfl⟩
  | sorts perm =>
    refine labelled.fewer (fun t => perm.mem_iff.mpr) ?_ fun t member => .inl (perm.mem_iff.mp member)
    exact ((perm.map label).filter _).nodup_iff.mp labelled.distinct

theorem strokes {a b : Sheet} (labelled : Labelled a.parts a.state) (strokes : Strokes a b) :
    Labelled b.parts b.state := by
  induction strokes with
  | refl => exact labelled
  | tail strokes stroke ih => exact ih.stroke stroke

end Labelled

variable {p : Plan} {s s' : State}

theorem remainsStrokes {ns : List NodeId} {out : List Piece} (remains : Remains p ns out s s') :
    ∀ ps, Strokes ⟨ps,s⟩ ⟨ps ++ partsAll out,s'⟩ := by
  induction remains with
  | none =>
    intro ps
    rw [partsAll,List.append_nil]
  | met met rest ih => exact ih
  | @more n ns out outs s s₁ s₂ free here rest ih =>
    intro ps
    have wanted : Stroke ⟨ps,s⟩ ⟨ps,s.want n⟩ :=
      .quiet rfl rfl rfl rfl fun m here => Graph.insertOnceMem.mpr (.inl here)
    rw [partsAppend,← List.append_assoc]
    exact ((Relation.ReflTransGen.single wanted).trans (here.strokes nofun ps)).trans (ih _)

theorem draftLabelled {entry : NodeId} {w : Draft} (drafted : Drafted p entry w) :
    Labelled (partsAll w.body) w.state := by
  obtain ⟨out,rest,s,here,remains,body⟩ := drafted
  rw [body,partsAppend]
  exact Labelled.blank.strokes ((here.strokes nofun []).trans (remainsStrokes remains _))

/-! ### Labels in the end -/

theorem filterMapInj {α β : Type} {f : α → Option β} {xs : List α} (distinct : (xs.filterMap f).Nodup)
    {x y : α} {b : β} (left : x ∈ xs) (right : y ∈ xs) (hereX : f x = some b) (hereY : f y = some b) :
    x = y := by
  induction xs with
  | nil => contradiction
  | cons a xs ih =>
    have among : ∀ z ∈ xs, f z = some b → b ∈ xs.filterMap f :=
      fun z member here => List.mem_filterMap.mpr ⟨z,member,here⟩
    rcases List.mem_cons.mp left with rfl | inX <;> rcases List.mem_cons.mp right with rfl | inY
    · rfl
    · rw [List.filterMap_cons_some hereX] at distinct
      exact absurd (among y inY hereY) (List.nodup_cons.mp distinct).1
    · rw [List.filterMap_cons_some hereY] at distinct
      exact absurd (among x inX hereX) (List.nodup_cons.mp distinct).1
    · refine ih ?_ inX inY
      cases here : f a with
      | none => rwa [List.filterMap_cons_none here] at distinct
      | some c => exact (List.nodup_cons.mp (List.filterMap_cons_some here ▸ distinct)).2

section
variable {w : Draft} {t u : Piece} {x : String}

structure Draft.Whole (w : Draft) : Prop where
  labelled : Labelled (partsAll w.body) w.state
  heads : ∀ loops, ((partsAll w.body).filterMap (head? loops)).Nodup

namespace Draft.Whole

variable (whole : w.Whole)
include whole

theorem own (member : t ∈ partsAll w.body) (own : t.label.own ≠ "") :
    (∃ n : NodeId, t.label.own = loopName n ∧ head? true t = some (n : Int)) ∨
      ∃ n : NodeId, t.label.own = switchName n ∧ head? false t = some (n : Int) := by
  have form := whole.labelled.formed t member
  cases t with
  | loop l k n h c body =>
    obtain ⟨id,n,rfl,rfl⟩ := form
    exact .inl ⟨n,rfl,rfl⟩
  | switch l n v arms =>
    obtain ⟨id,n,rfl,rfl⟩ := form
    exact .inr ⟨n,rfl,rfl⟩
  | stmts l n ss => obtain rfl | ⟨id,rfl⟩ := form <;> exact absurd rfl own
  | branch l n c a b | guarded l r body cs z | goto l text =>
    obtain ⟨id,rfl⟩ := form
    exact absurd rfl own
  | breakTo l text | continueTo l text =>
    obtain rfl := form
    exact absurd rfl own
  | block l body => exact form.elim

theorem ownApart (member : t ∈ partsAll w.body) (n : NodeId) : t.label.own ≠ nodeName n := by
  intro same
  have some : t.label.own ≠ "" := by
    rw [same]
    exact nodeNamed n
  rcases whole.own member some with ⟨m,name,-⟩ | ⟨m,name,-⟩
  · exact (namesApart m 0 n).2.1 (name.symm.trans same)
  · exact (namesApart 0 m n).2.2.1 (name.symm.trans same)

theorem ownInj (left : t ∈ partsAll w.body) (right : u ∈ partsAll w.body)
    (same : t.label.own = u.label.own) (own : t.label.own ≠ "") : t = u := by
  rcases whole.own left own with ⟨n,name,head⟩ | ⟨n,name,head⟩ <;>
    rcases whole.own right (same ▸ own) with ⟨m,name',head'⟩ | ⟨m,name',head'⟩
  · cases loopNameInj (name.symm.trans (same.trans name'))
    exact filterMapInj (whole.heads true) left right head head'
  · exact absurd (name.symm.trans (same.trans name')) (namesApart n m 0).1
  · exact absurd (name'.symm.trans (same.symm.trans name)) (namesApart m n 0).1
  · cases switchNameInj (name.symm.trans (same.trans name'))
    exact filterMapInj (whole.heads false) left right head head'

theorem called {key : Key} (named : w.name key ≠ "") : CalledBy w.state key (w.name key) := by
  obtain ⟨x,here⟩ : ∃ x, w.state.names.get? key = some x := by
    refine Option.ne_none_iff_exists'.mp fun none => named ?_
    rw [Draft.name,Table.getD,none,Option.getD_none]
  have same : w.name key = x := by rw [Draft.name,Table.getD,here,Option.getD_some]
  rw [same]
  exact (whole.labelled.names key x here).imp (fun own => ⟨own.1,own.2.1⟩) id

theorem isPart {key : Key} (named : w.name key ≠ "") : key.isPart = true := by
  rcases whole.called named with ⟨-,own⟩ | ⟨m,stands,-⟩
  · cases key with
    | part id name => rfl
    | none | aim n => exact absurd rfl own
  · exact (whole.labelled.placed m key stands).1

theorem calledInj (left : t ∈ partsAll w.body) (right : u ∈ partsAll w.body)
    (first : CalledBy w.state t.label x) (second : CalledBy w.state u.label x) : t.label = u.label := by
  rcases first with ⟨own,some⟩ | ⟨m,stands,name⟩ <;> rcases second with ⟨own',some'⟩ | ⟨m',stands',name'⟩
  · rw [whole.ownInj left right (own.symm.trans own') some]
  · exact absurd (own.symm.trans name') (whole.ownApart left m')
  · exact absurd (own'.symm.trans name) (whole.ownApart right m)
  · cases nodeNameInj (name.symm.trans name')
    exact Option.some.inj (stands.symm.trans stands')

theorem single (member : t ∈ partsAll w.body) (named : w.name t.label ≠ "") :
    ((partsAll w.body).map label).filter (fun key => w.name key = w.name t.label) = [t.label] := by
  have parts : ((partsAll w.body).map label).filter (fun key => w.name key = w.name t.label) =
      (((partsAll w.body).map label).filter Key.isPart).filter
        fun key => w.name key = w.name t.label := by
    rw [List.filter_filter]
    refine List.filter_congr fun key _ => ?_
    by_cases same : w.name key = w.name t.label
    · simp [same,whole.isPart (same ▸ named : w.name key ≠ "")]
    · simp [same]
  rw [← List.perm_singleton,List.perm_ext_iff_of_nodup _ (List.nodup_singleton _)]
  · intro key
    rw [List.mem_filter,List.mem_singleton,List.mem_map,decide_eq_true_eq]
    constructor
    · rintro ⟨⟨u,inside,rfl⟩,same⟩
      exact whole.calledInj inside member (whole.called (same ▸ named)) (same ▸ whole.called named)
    · rintro rfl
      exact ⟨⟨t,member,rfl⟩,rfl⟩
  · rw [parts]
    exact whole.labelled.distinct.filter _

theorem distinctNames : ((((partsAll w.body).map label).map w.name).filter (· ≠ "")).Nodup := by
  have parts : ((partsAll w.body).map label).filter ((fun x => decide (x ≠ "")) ∘ w.name) =
      (((partsAll w.body).map label).filter Key.isPart).filter
        ((fun x => decide (x ≠ "")) ∘ w.name) := by
    rw [List.filter_filter]
    refine List.filter_congr fun key _ => ?_
    by_cases blank : w.name key = ""
    · simp [blank]
    · simp [blank,whole.isPart blank]
  rw [List.filter_map]
  refine List.Nodup.map_on (fun k first k' second same => ?_)
    (parts ▸ whole.labelled.distinct.filter _)
  obtain ⟨inside,some⟩ := List.mem_filter.mp first
  obtain ⟨inside',-⟩ := List.mem_filter.mp second
  obtain ⟨t,left,rfl⟩ := List.mem_map.mp inside
  obtain ⟨u,right,rfl⟩ := List.mem_map.mp inside'
  have named : w.name t.label ≠ "" := by simpa using some
  exact whole.calledInj left right (whole.called named) (same ▸ whole.called (same ▸ named))

theorem rootBlank : w.name .none = "" := by
  by_contra named
  exact nomatch whole.isPart named

theorem jump {l : Key} {text : String} (member : .goto l text ∈ partsAll w.body) :
    ∃ n, l = .aim n ∧ Aimed w.state n text := whole.labelled.jumps l text member

end Draft.Whole

/-- A jump to a label leads to the first part that stands for its node: this part has the label, and
no other has. -/
def Draft.Resolves (w : Draft) (n : NodeId) (text : String) : Prop :=
  ∃ key, w.state.placed.get? n = some key ∧
    ((partsAll w.body).map label).filter (fun key => w.name key = text) = [key]

/-- The part that stands for a node is called otherwise than a jump to the node says: by its own name,
which a jump out of it says, or after another node that it stands for. -/
def Draft.Renamed (w : Draft) (n : NodeId) (text : String) : Prop :=
  ∃ key, w.state.placed.get? n = some key ∧ w.name key ≠ text ∧
    (w.name key = key.own ∧ (∃ t ∈ partsAll w.body, t.exit? = some key.own) ∨
      ∃ m, m ≠ n ∧ w.state.placed.get? m = some key ∧ w.name key = nodeName m)

namespace Draft.Whole

variable (whole : w.Whole) {n : NodeId} {text : String}
include whole

theorem aimedInj {key : Key} (aimed : Aimed w.state n text) (member : t ∈ partsAll w.body)
    (label : w.name t.label = text) (stands : w.state.placed.get? n = some key) : t.label = key := by
  have named' := aimed.named
  obtain ⟨none,-⟩ | ⟨k,x,here,named,called,-⟩ := aimed
  · exact absurd (stands.symm.trans none) nofun
  cases Option.some.inj (stands.symm.trans here)
  obtain ⟨-,u,inside,rfl⟩ := whole.labelled.placed n key stands
  exact whole.calledInj member inside (label ▸ whole.called (label ▸ named')) called

theorem aimedNone (aimed : Aimed w.state n text) (member : t ∈ partsAll w.body)
    (stands : w.state.placed.get? n = none) : w.name t.label ≠ text := by
  intro label
  obtain ⟨-,-,rfl⟩ | ⟨k,x,here,-⟩ := aimed
  · rcases whole.called (label ▸ nodeNamed n) with ⟨own,-⟩ | ⟨m,there,name⟩
    · exact whole.ownApart member n (own.symm.trans label)
    · cases nodeNameInj (label.symm.trans name)
      exact nomatch there.symm.trans stands
  · exact nomatch here.symm.trans stands

theorem resolvesIff {key : Key} (aimed : Aimed w.state n text)
    (stands : w.state.placed.get? n = some key) : w.Resolves n text ↔ w.name key = text := by
  constructor
  · rintro ⟨k,there,only⟩
    cases Option.some.inj (stands.symm.trans there)
    have found : key ∈ ((partsAll w.body).map label).filter (fun key => w.name key = text) := by
      rw [only]
      exact List.mem_singleton_self _
    simpa using (List.mem_filter.mp found).2
  · intro same
    obtain ⟨-,t,member,rfl⟩ := whole.labelled.placed n key stands
    refine ⟨_,stands,?_⟩
    rw [← same]
    exact whole.single member (same ▸ aimed.named)

theorem renamedIff {key : Key} (aimed : Aimed w.state n text)
    (stands : w.state.placed.get? n = some key) : w.Renamed n text ↔ w.name key ≠ text := by
  refine ⟨fun ⟨k,there,other,_⟩ => Option.some.inj (stands.symm.trans there) ▸ other,fun other => ?_⟩
  obtain ⟨none,-⟩ | ⟨k,x,here,named,-,either⟩ := aimed
  · exact absurd (stands.symm.trans none) nofun
  cases Option.some.inj (stands.symm.trans here)
  obtain ⟨-,t,member,rfl⟩ := whole.labelled.placed n key stands
  have name : w.name t.label = x := by rw [Draft.name,Table.getD,named,Option.getD_some]
  refine ⟨_,stands,other,?_⟩
  rcases whole.labelled.names t.label x named with ⟨own,-,exit⟩ | ⟨m,there,same⟩
  · exact .inl ⟨name.trans own,own ▸ exit⟩
  · refine .inr ⟨m,?_,there,name.trans same⟩
    rintro rfl
    rcases either with rfl | rfl | own
    · exact other (name.trans same)
    · exact other name
    · exact whole.ownApart member m (own.symm.trans same)

end Draft.Whole

end

end Recovery

namespace Graph

open RegCode.Tree Recovery

variable (g : Graph) (d : Dominators) (policy : Policy)

theorem wholeWritten : (g.written d policy).Whole := by
  obtain ⟨-,-,-,blank | ⟨⟨entry,drafted⟩,-⟩⟩ := g.recoverWritten d policy
  · rw [blank]
    exact ⟨.blank,fun _ => List.nodup_nil⟩
  · exact ⟨draftLabelled drafted,draftHeads drafted⟩

/-- No two parts of a tree have one label. A jump to a label leads to the first part that stands for
its node, unless that part is called otherwise in the end, by its own name, which a jump out of it
says, or after another node; then no part has the label. -/
theorem recoverLabels : ∃ r, g.recover d policy = .ok r ∧
    r.root = (Tree.block Key.none (g.written d policy).body).relabel (g.written d policy).name ∧
    (r.root.labels.filter (· ≠ "")).Nodup ∧
    ∀ l text, .goto l text ∈ partsAll (g.written d policy).body → ∃ n, l = .aim n ∧
      (n ∈ g.rpo → ∃ key, (g.written d policy).state.placed.get? n = some key) ∧
      ((g.written d policy).Resolves n text ↔
        (∃ key, (g.written d policy).state.placed.get? n = some key) ∧
          ¬(g.written d policy).Renamed n text) ∧
      ((g.written d policy).Resolves n text ↔ text ∈ r.root.labels) := by
  obtain ⟨r,code,root,made⟩ := g.recoverWritten d policy
  have whole := g.wholeWritten d policy
  have labels : r.root.labels = "" ::
      ((partsAll (g.written d policy).body).map label).map (g.written d policy).name := by
    have first : (g.written d policy).state.names.getD Key.none "" = "" := whole.rootBlank
    simp only [root,Tree.labels,partsRelabel,parts,List.map_cons,List.map_map]
    refine congrArg₂ List.cons first (List.map_congr_left fun t _ => labelRelabel _ t)
  refine ⟨r,code,root,?_,fun l text member => ?_⟩
  · rw [labels,List.filter_cons_of_neg (by simp)]
    exact whole.distinctNames
  · obtain ⟨n,rfl,aimed⟩ := whole.jump member
    refine ⟨n,rfl,fun reached => ?_,?_,?_⟩
    · rcases made with blank | ⟨-,done⟩
      · rw [blank] at member
        contradiction
      · exact Option.isSome_iff_exists.mp (whole.labelled.marked n (by rw [done n reached]; decide))
    · cases stands : (g.written d policy).state.placed.get? n with
      | none =>
        exact ⟨fun ⟨key,here,_⟩ => (nomatch stands.symm.trans here),fun ⟨⟨_,here⟩,_⟩ => (nomatch here)⟩
      | some key =>
        rw [whole.resolvesIff aimed stands,whole.renamedIff aimed stands,not_not]
        exact ⟨fun same => ⟨⟨key,rfl⟩,same⟩,And.right⟩
    · rw [labels,List.map_map]
      constructor
      · rintro ⟨key,-,only⟩
        have found : key ∈ _ := only ▸ List.mem_singleton_self key
        obtain ⟨inside,same⟩ := List.mem_filter.mp found
        obtain ⟨t,member,rfl⟩ := List.mem_map.mp inside
        exact List.mem_cons_of_mem _ (List.mem_map.mpr ⟨t,member,of_decide_eq_true same⟩)
      · intro listed
        obtain blank | ⟨t,inside,same⟩ := (List.mem_cons.mp listed).imp id List.mem_map.mp
        · exact absurd blank aimed.named
        · cases stands : (g.written d policy).state.placed.get? n with
          | none => exact absurd same (whole.aimedNone aimed inside stands)
          | some key =>
            have here := whole.aimedInj aimed inside same stands
            exact (whole.resolvesIff aimed stands).mpr (here ▸ same)

end Graph

/-! ### A label that a jump out of a loop overwrites -/

def Instruction.ifZero (offset : Int) (mnemonic : String) (cond : Cond) (reg target : Int) :
    Instruction :=
  { family := .ifZero, width := 2, cond, mnemonic, offset, regs := [reg], target }

def Instruction.load (offset value : Int) : Instruction :=
  { family := .const, type := "I", mnemonic := "const/4", offset, regs := [0], literal := value }

def Instruction.goTo (offset target : Int) : Instruction :=
  { family := .goto, mnemonic := "goto", offset, target }

def Instruction.answer (offset reg : Int) : Instruction :=
  { family := .return, mnemonic := "return", offset, regs := [reg] }

def Method.overwritten : Method where
  owner := "LTest;"
  name := "f"
  descriptor := "(II)I"
  access := ⟨9⟩
  registers := 3
  index := 0
  line := 0
  code := [.ifZero 0 "if-eqz" .eq 1 8,.ifZero 2 "if-eqz" .eq 2 7,.ifZero 4 "if-eqz" .eq 1 8,.load 6 1,
    .load 7 2,.ifZero 8 "if-eqz" .eq 1 17,.load 10 3,.ifZero 11 "if-eqz" .eq 2 8,
    .ifZero 13 "if-nez" .ne 1 10,.load 15 4,.goTo 16 8,.answer 17 1]
  tries := []
  overlaps := []

namespace Graph

open RegCode.Tree Recovery

def dangles (t : Tree String) : Bool := t.parts.any fun
  | .goto _ text => !t.labels.contains text
  | _ => false

set_option maxRecDepth 100000 in
theorem overwrittenDangles :
    (Method.overwritten.recovered? {}).any (fun x => dangles x.2.root) = true := by
  simp only [Method.recovered?,ofMethod,Block.split,Block.starts,TryTable.ascending,simplify,renumber,
    reversePostorder,recover,Plan.ofGraph,LoopForest.ofGraph,Flow.exploreNested,sortByHalves]
  decide +kernel

/-- The jump to the loop of `overwritten` says a label that the loop has lost. -/
theorem recoverLabelsOverwritten : ∃ g r n text, ofMethod .overwritten = .ok g ∧
    g.splitTests.simplify.recover (Dominators.ofGraph g.splitTests.simplify) {} = .ok r ∧
    .goto (.aim n) text ∈
      partsAll (g.splitTests.simplify.written (Dominators.ofGraph g.splitTests.simplify) {}).body ∧
    text ∉ r.root.labels ∧
    ¬(g.splitTests.simplify.written (Dominators.ofGraph g.splitTests.simplify) {}).Resolves n text := by
  obtain ⟨g,r,made,code,dangling⟩ := recoveredAny overwrittenDangles
  obtain ⟨r',code',root,-,jumps⟩ :=
    recoverLabels g.splitTests.simplify (Dominators.ofGraph g.splitTests.simplify) {}
  obtain rfl := Except.ok.inj (code.symm.trans code')
  obtain ⟨t,member,stray⟩ := List.any_eq_true.mp dangling
  rw [root,partsRelabel] at member
  obtain ⟨u,inside,rfl⟩ := List.mem_map.mp member
  cases u with
  | goto l text =>
    have lost : text ∉ r.root.labels := by simpa [relabel] using stray
    have inside := (List.mem_cons.mp inside).resolve_left nofun
    obtain ⟨n,rfl,-,-,resolves⟩ := jumps l text inside
    exact ⟨g,r,n,text,made,code,inside,lost,mt resolves.mp lost⟩
  | branch l n c a b => cases b <;> contradiction
  | guarded l q body cs z => cases z <;> contradiction
  | _ => contradiction

end Graph

end RegCode
