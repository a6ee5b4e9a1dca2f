import RegCode.Service.Document
import RegCode.Proofs.Workspace.Nesting

/-! What is shown of loaded classes. Source text, documents and symbols of the top-level classes hold
every class once, with all of its methods. -/
namespace RegCode

namespace ClassSource

mutual

def parts (depth : Nat) : ClassSource → List (Nat × Class × List MethodSource)
  | .mk c methods nested => (depth,c,methods) :: partsAll (depth + 1) nested

def partsAll (depth : Nat) : List ClassSource → List (Nat × Class × List MethodSource)
  | [] => []
  | s :: ss => s.parts depth ++ partsAll depth ss

end

def entry (p : Nat × Class × List MethodSource) : Class × Nat := (p.2.1,p.2.2.length)

def entries (s : ClassSource) : List (Class × Nat) := (s.parts 0).map entry

mutual

theorem entriesParts (depth : Nat) : (s : ClassSource) → (s.parts depth).map entry = s.entries
  | .mk c methods nested => by
    rw [entries,parts,parts,List.map_cons,List.map_cons,entriesPartsAll,entriesPartsAll]
    rfl

theorem entriesPartsAll (depth : Nat) : (ss : List ClassSource) →
    (partsAll depth ss).map entry = ss.flatMap entries
  | [] => rfl
  | s :: ss => by
    rw [partsAll,List.map_append,entriesParts depth s,entriesPartsAll depth ss,List.flatMap_cons]

end

theorem entriesMk (c : Class) (ms : List MethodSource) (ns : List ClassSource) :
    (ClassSource.mk c ms ns).entries = (c,ms.length) :: ns.flatMap entries :=
  congrArg (_ :: ·) (entriesPartsAll 1 ns)

end ClassSource

namespace Layout

def frontLines (depth : Nat) (c : Class) : List Line := if depth = 0 then packageLines c else [.blank]

def ownLines (o : Options) : Nat × Class × List MethodSource → List Line
  | (depth,c,methods) =>
    frontLines depth c ++ opening o depth (classHead c) ++
      ((sortFields c.fields).map fun f => ⟨depth + 1,fieldText f⟩) ++
      methods.flatMap (fun m => .blank :: methodLines o (depth + 1) m) ++ closing depth ""

mutual

theorem classLinesParts (o : Options) (depth : Nat) (c : Class) (methods : List MethodSource) :
    (nested : List ClassSource) →
    (frontLines depth c ++ classBodyLines o depth (.mk c methods nested)).Perm
      (((ClassSource.mk c methods nested).parts depth).flatMap (ownLines o))
  | nested => by
    have inner := nestedLinesParts o depth nested
    rw [ClassSource.parts,List.flatMap_cons,classBodyLines]
    refine List.Perm.trans ?_ (inner.append_left _)
    simp only [ownLines,List.append_assoc]
    refine ((List.Perm.append_left _ ?_).append_left _).append_left _
    exact List.perm_append_comm.trans (.of_eq (List.append_assoc ..))

theorem nestedLinesParts (o : Options) (depth : Nat) : (nested : List ClassSource) →
    (nestedLines o (depth + 1) nested).Perm
      ((ClassSource.partsAll (depth + 1) nested).flatMap (ownLines o))
  | [] => List.Perm.nil
  | .mk c methods inner :: rest => by
    rw [nestedLines,ClassSource.partsAll,List.flatMap_append]
    exact (classLinesParts o (depth + 1) c methods inner).append (nestedLinesParts o depth rest)

end

theorem classTextParts (o : Options) : (s : ClassSource) →
    ∃ ls, classText o s = render o ls ∧ ls.Perm ((s.parts 0).flatMap (ownLines o))
  | .mk c methods nested => by
    refine ⟨frontLines 0 c ++ classBodyLines o 0 (.mk c methods nested),?_,
      classLinesParts o 0 c methods nested⟩
    rw [classText,frontLines,if_pos rfl]

end Layout

namespace Json.Value

variable {α : Type} {key : String} {own : Value → List α}

mutual

def entries (key : String) (own : Value → List α) : Value → List α
  | .arr vs => itemEntries key own vs
  | .obj ms => own (.obj ms) ++ memberEntries key own ms
  | _ => []

def itemEntries (key : String) (own : Value → List α) : List Value → List α
  | [] => []
  | v :: vs => v.entries key own ++ itemEntries key own vs

def memberEntries (key : String) (own : Value → List α) : List (String × Value) → List α
  | [] => []
  | (k,v) :: ms => (if k = key then v.entries key own else []) ++ memberEntries key own ms

end

theorem itemEntriesFlat (vs : List Value) : itemEntries key own vs = vs.flatMap (entries key own) := by
  induction vs with
  | nil => rfl
  | cons v vs ih => rw [itemEntries,ih,List.flatMap_cons]

theorem memberEntriesAppend (ms ns : List (String × Value)) :
    memberEntries key own (ms ++ ns) = memberEntries key own ms ++ memberEntries key own ns := by
  induction ms with
  | nil => rfl
  | cons m ms ih => rw [List.cons_append,memberEntries,memberEntries,ih,List.append_assoc]

theorem memberEntriesOther {ms : List (String × Value)} (other : ∀ m ∈ ms, m.1 ≠ key) :
    memberEntries key own ms = [] := by
  induction ms with
  | nil => rfl
  | cons m ms ih =>
    obtain ⟨first,later⟩ := List.forall_mem_cons.mp other
    rw [memberEntries,if_neg first,ih later]
    rfl

theorem memberEntriesList (vs : List Value) :
    memberEntries key own (listMember key vs) = vs.flatMap (entries key own) := by
  cases vs with
  | nil => rfl
  | cons v vs =>
    rw [← itemEntriesFlat]
    simp [listMember,memberEntries,entries]

end Json.Value

namespace Workspace

def Gives {α : Type} (img : Image) (work : Working α) (p : α → Prop) : Prop :=
  ∀ w, w.image = img → (work.run w).2.image = img ∧ p (work.run w).1

namespace Gives

variable {α β γ : Type} {img : Image} {p : α → Prop} {q : β → Prop}

theorem pure {a : α} (holds : p a) : Gives img (Pure.pure a) p := fun _ same => ⟨same,holds⟩

theorem bind {work : Working α} {next : α → Working β} (first : Gives img work p)
    (later : ∀ a, p a → Gives img (next a) q) : Gives img (work >>= next) q := by
  intro w same
  obtain ⟨kept,holds⟩ := first w same
  exact later _ holds _ kept

theorem get {next : Workspace → Working β} (later : ∀ w, w.image = img → Gives img (next w) q) :
    Gives img (MonadState.get >>= next) q := fun w same => later w same w same

theorem mono {work : Working α} {p' : α → Prop} (given : Gives img work p) (weaker : ∀ a, p a → p' a) :
    Gives img work p' := fun w same => ⟨(given w same).1,weaker _ (given w same).2⟩

theorem forM {f : α → Working PUnit} (each : ∀ a, Gives img (f a) fun _ => True) (as : List α) :
    Gives img (as.forM f) fun _ => True := by
  induction as with
  | nil => exact .pure trivial
  | cons a as ih => exact (each a).bind fun _ _ => ih

theorem mapM {f : α → Working β} {g : β → List γ} {h : α → List γ} {as : List α}
    (each : ∀ a ∈ as, Gives img (f a) fun b => g b = h a) :
    Gives img (as.mapM f) fun bs => bs.length = as.length ∧ bs.flatMap g = as.flatMap h := by
  induction as with
  | nil => exact .pure ⟨rfl,rfl⟩
  | cons a as ih =>
    obtain ⟨first,later⟩ := List.forall_mem_cons.mp each
    rw [List.mapM_cons]
    refine first.bind fun b here => (ih later).bind fun bs there => .pure ⟨?_,?_⟩
    · exact congrArg (· + 1) there.1
    · rw [List.flatMap_cons,List.flatMap_cons,here,there.2]

theorem inspect (m : Method) : Gives img (Workspace.inspect m) fun _ => True := by
  have warn : ∀ code clues args, Gives img (Workspace.warn m code clues args) fun _ => True :=
    fun _ _ _ _ same => ⟨same,trivial⟩
  refine (forM (fun _ => warn _ _ _) m.overlaps).bind fun _ _ => ?_
  exact get fun w _ => forM (fun _ => warn _ _ _) _

theorem lookUp (key : Text.Bytes) : Gives img (Workspace.lookUp key) fun _ => True := by
  refine get fun w same => ?_
  cases w.cache with
  | none => exact .pure trivial
  | some c => exact fun _ _ => ⟨same,trivial⟩

theorem ofEntry (m : Method) (e : CacheEntry) : Gives img (Workspace.ofEntry m e) fun _ => True := by
  intro w same
  unfold Workspace.ofEntry
  split <;> exact ⟨same,trivial⟩

theorem ofFault (m : Method) (f : DecompileFault) : Gives img (Workspace.ofFault m f) fun _ => True :=
  fun _ same => ⟨same,trivial⟩

theorem ofDecompiled (m : Method) (d : Decompiled) :
    Gives img (Workspace.ofDecompiled m d) fun _ => True := by
  intro w same
  unfold Workspace.ofDecompiled
  dsimp only
  split <;> exact ⟨same,trivial⟩

theorem workOn (m : Method) : Gives img (Workspace.workOn m) fun _ => True := by
  have count : Gives img (countStats fun s => { s with methods := s.methods + 1 }) fun _ => True :=
    fun _ same => ⟨same,trivial⟩
  refine count.bind fun _ _ => (inspect m).bind fun _ _ => get fun w _ => ?_
  extract_lets key serve
  have served : ∀ e, Gives img (serve e) fun _ => True := by
    intro e
    cases e with
    | some e => exact ofEntry m e
    | none =>
      refine get fun w _ => ?_
      dsimp only
      generalize m.decompile w.config = out
      obtain ⟨result,dumps⟩ := out
      have dumped : Gives img (modify fun w : Workspace => { w with dumps := w.dumps ++ dumps })
          fun _ => True := fun _ same => ⟨same,trivial⟩
      refine dumped.bind fun _ _ => ?_
      cases result with
      | error f => exact ofFault m f
      | ok d =>
        refine (ofDecompiled m d).bind fun r _ => ?_
        cases key <;> exact fun _ same => ⟨same,trivial⟩
  cases key with
  | none => exact served none
  | some k => exact (lookUp k).bind fun e _ => served e

theorem resultOf (owner : String) (index : Nat) (m : Method) :
    Gives img (Workspace.resultOf owner index m) fun _ => True := by
  refine get fun w _ => ?_
  cases w.results.get? (owner,index) with
  | some r => exact .pure trivial
  | none => exact (workOn m).bind fun r _ _ same => ⟨same,trivial⟩

theorem resultsOf (c : Class) : Gives img (Workspace.resultsOf c) fun rs => rs.length = c.methods.length := by
  refine (mapM (g := fun _ => ([] : List Unit)) (h := fun _ => []) fun (m,i) _ =>
    (resultOf c.name i m).mono fun _ _ => rfl).mono ?_
  rintro rs ⟨count,-⟩
  rw [count,List.length_zipIdx]

end Gives

def documentEntry (v : Json.Value) : List (String × Nat) :=
  match v.get? "class",v.get? "methods" with
  | some (.str name),some (.arr methods) => [(name,methods.length)]
  | _,_ => []

def documentEntries : Json.Value → List (String × Nat) := Json.Value.entries "nested" documentEntry

section Showing

variable {img : Image} {w : Workspace} {c : Class} {around : List Class}

theorem nestedSame {w' : Workspace} (same : w'.image = w.image) (c : Class) : w'.nested c = w.nested c := by
  unfold nested classes
  rw [same]

theorem sourceEntries {n : Nat} (stands : w.Stands (c :: around))
    (enough : w.image.classes.length ≤ n + around.length) :
    Gives w.image (sourceOf n c) fun s =>
      s.entries = (w.outline n c).map fun c => (c,c.methods.length) := by
  induction n generalizing c around with
  | zero =>
    have := stands.length
    rw [List.length_cons] at this
    omega
  | succ n ih =>
    refine (Gives.resultsOf c).bind fun rs count => .get fun w' same => ?_
    have inside : ∀ d ∈ w.nested c, Gives w.image (sourceOf n d) fun s =>
        s.entries = (w.outline n d).map fun c => (c,c.methods.length) := fun d inner =>
      ih (.inside stands inner) (by rw [List.length_cons]; omega)
    rw [nestedSame same]
    refine (Gives.mapM inside).bind fun ns shown => .pure ?_
    rw [ClassSource.entriesMk,shown.2,outline,List.map_cons,List.length_map,count,List.map_flatMap]

theorem documentEntriesOf (c : Class) (ms ns : List Json.Value) :
    documentEntries (.obj ([("class",.str c.name)] ++ Json.textMember "super" c.super ++
      [("methods",.arr ms)] ++ Json.listMember "nested" ns)) =
        (c.name,ms.length) :: ns.flatMap documentEntries := by
  have front : ∀ m ∈ [("class",Json.Value.str c.name)] ++ Json.textMember "super" c.super ++
      [("methods",.arr ms)], m.1 ≠ "nested" := by
    unfold Json.textMember
    split <;> simp
  have own : documentEntry (.obj ([("class",.str c.name)] ++ Json.textMember "super" c.super ++
      [("methods",.arr ms)] ++ Json.listMember "nested" ns)) = [(c.name,ms.length)] := by
    by_cases none : c.super = "" <;>
      simp [documentEntry,Json.Value.get?,Json.textMember,none,List.lookup_cons]
  rw [documentEntries,Json.Value.entries,own,Json.Value.memberEntriesAppend,
    Json.Value.memberEntriesOther front,Json.Value.memberEntriesList]
  rfl

theorem documentEntriesWalk {n : Nat} (stands : w.Stands (c :: around))
    (enough : w.image.classes.length ≤ n + around.length) :
    Gives w.image (documentOf n c) fun v =>
      documentEntries v = (w.outline n c).map fun c => (c.name,c.methods.length) := by
  induction n generalizing c around with
  | zero =>
    have := stands.length
    rw [List.length_cons] at this
    omega
  | succ n ih =>
    refine (Gives.resultsOf c).bind fun rs count => .get fun w' same => ?_
    have inside : ∀ d ∈ w.nested c, Gives w.image (documentOf n d) fun v =>
        documentEntries v = (w.outline n d).map fun c => (c.name,c.methods.length) := fun d inner =>
      ih (.inside stands inner) (by rw [List.length_cons]; omega)
    rw [nestedSame same]
    refine (Gives.mapM inside).bind fun ns shown => .pure ?_
    rw [documentEntriesOf,shown.2,outline,List.map_cons,List.length_map,count,List.map_flatMap]

end Showing

end Workspace

namespace Service.Document

def symbolEntry (v : Json.Value) : List String :=
  match v.get? "kind",v.get? "detail" with
  | some (.int kind),detail =>
    if kind = 5 ∨ kind = 11 then [match detail with | some (.str name) => name | _ => ""] else []
  | _,_ => []

def symbolEntries : Json.Value → List String := Json.Value.entries "children" symbolEntry

theorem symbolEntriesOf (d : Document) (name detail : String) (kind line : Nat)
    (children : List Json.Value) :
    symbolEntries (d.symbol name detail kind line children) =
      (if kind = 5 ∨ kind = 11 then [detail] else []) ++ children.flatMap symbolEntries := by
  have front : ∀ m ∈ [("name",Json.Value.str name)] ++ Json.textMember "detail" detail ++
      [("kind",.nat kind),("range",d.lineRange line),("selectionRange",d.lineRange line)],
        m.1 ≠ "children" := by
    unfold Json.textMember
    split <;> simp
  have own : symbolEntry (d.symbol name detail kind line children) =
      if kind = 5 ∨ kind = 11 then [detail] else [] := by
    have same : ∀ n : Nat, (kind : Int) = n ↔ kind = n := fun n => Int.ofNat_inj
    have five := same 5
    have eleven := same 11
    by_cases none : detail = "" <;> cases children <;>
      simp_all [symbol,symbolEntry,Json.Value.get?,Json.textMember,Json.listMember,Json.Value.nat,
        List.lookup_cons]
  rw [← own]
  unfold symbol at own ⊢
  rw [symbolEntries,Json.Value.entries,Json.Value.memberEntriesAppend,
    Json.Value.memberEntriesOther front,Json.Value.memberEntriesList]
  rfl

theorem symbolEntriesOther (d : Document) {α : Type} {f : α → Json.Value} {xs : List α}
    (other : ∀ x, ∃ name detail kind line, kind ≠ 5 ∧ kind ≠ 11 ∧ f x = d.symbol name detail kind line []) :
    (xs.map f).flatMap symbolEntries = [] := by
  rw [List.flatMap_map,List.flatMap_eq_nil_iff]
  intro x _
  obtain ⟨name,detail,kind,line,five,eleven,same⟩ := other x
  rw [same,symbolEntriesOf,if_neg (by simp [five,eleven])]
  rfl

theorem symbolEntriesWalk (d : Document) {n : Nat} {c : Class} {around : List Class}
    (stands : d.work.Stands (c :: around)) (enough : d.work.image.classes.length ≤ n + around.length) :
    symbolEntries (d.classSymbol n c) = (d.work.outline n c).map (·.name) := by
  induction n generalizing c around with
  | zero =>
    have := stands.length
    rw [List.length_cons] at this
    omega
  | succ n ih =>
    have inside : ∀ e ∈ d.work.nested c,
        symbolEntries (d.classSymbol n e) = (d.work.outline n e).map (·.name) := fun e inner =>
      ih (.inside stands inner) (by rw [List.length_cons]; omega)
    rw [classSymbol,symbolEntriesOf,List.flatMap_append,List.flatMap_append,
      symbolEntriesOther d fun f => ⟨_,_,8,_,by decide,by decide,rfl⟩,
      symbolEntriesOther d fun m => ⟨_,_,_,_,by split <;> decide,by split <;> decide,rfl⟩,
      if_pos (by split <;> simp),List.flatMap_map,List.flatMap_congr inside,Workspace.outline,
      List.map_cons,List.map_flatMap]
    rfl

end Service.Document

namespace Workspace

/-- Loaded classes stand inside one another as a forest, whatever their names are and whichever of them
took the place of others: each has one chain of classes around it, up to a top-level one. Source text,
documents and symbols of the top-level classes hold every class once, with all of its methods. -/
theorem shownOnce (cs : List Class) (w : Workspace) (loaded : w.image = cs.foldl Image.add Image.empty) :
    (∀ c ∈ w.classes, ∃! around, w.Stands (c :: around)) ∧
    (∃ sources, ((w.topLevel.mapM source).run w).1 = sources ∧
      (sources.flatMap ClassSource.entries).Perm (w.classes.map fun c => (c,c.methods.length)) ∧
      ∀ o, ∀ s ∈ sources, ∃ ls, Layout.classText o s = Layout.render o ls ∧
        ls.Perm ((s.parts 0).flatMap (Layout.ownLines o))) ∧
    (((w.topLevel.mapM (documentOf (w.image.classes.length + 1))).run w).1.flatMap documentEntries).Perm
      (w.classes.map fun c => (c.name,c.methods.length)) ∧
    ∀ d : Service.Document, d.work = w →
      (d.symbols.flatMap Service.Document.symbolEntries).Perm (w.classes.map (·.name)) := by
  have distinct : w.Distinct := by
    unfold Distinct
    rw [loaded]
    exact Image.namesDistinct cs
  have perm : (w.topLevel.flatMap (w.outline (w.image.classes.length + 1))).Perm w.classes :=
    outlinePerm distinct (Nat.le_succ _)
  refine ⟨fun c member => ?_,⟨_,rfl,?_,fun o s _ => Layout.classTextParts o s⟩,?_,?_⟩
  · obtain ⟨around,stands⟩ := Stands.exist member
    exact ⟨around,stands,fun _ stands' => stands'.unique distinct stands⟩
  · have each : ∀ c ∈ w.topLevel, Gives w.image (source c) fun s =>
        s.entries = (w.outline (w.image.classes.length + 1) c).map fun c => (c,c.methods.length) :=
      fun c top => .get fun w' same => same ▸ sourceEntries (.top top) (Nat.le_succ _)
    rw [((Gives.mapM each) w rfl).2.2,← List.map_flatMap]
    exact perm.map _
  · have each : ∀ c ∈ w.topLevel, Gives w.image (documentOf (w.image.classes.length + 1) c) fun v =>
        documentEntries v =
          (w.outline (w.image.classes.length + 1) c).map fun c => (c.name,c.methods.length) :=
      fun c top => documentEntriesWalk (.top top) (Nat.le_succ _)
    rw [((Gives.mapM each) w rfl).2.2,← List.map_flatMap]
    exact perm.map _
  · rintro d rfl
    have each : ∀ c ∈ d.work.topLevel,
        Service.Document.symbolEntries (d.classSymbol (d.work.image.classes.length + 1) c) =
          (d.work.outline (d.work.image.classes.length + 1) c).map (·.name) :=
      fun c top => d.symbolEntriesWalk (.top top) (Nat.le_succ _)
    rw [Service.Document.symbols,List.flatMap_map,List.flatMap_congr each,← List.map_flatMap]
    exact perm.map _

def malformed : List Class :=
  ["LA;","LA$B;","LA$B$","LC$$D;","","LA$B;"].map fun name => { (default : Class) with name }

theorem shownOnceMalformed :
    ∃ w : Workspace, w.image = malformed.foldl Image.add Image.empty ∧
      w.image.names = ["LA;","LA$B;","LA$B$","LC$$D;",""] ∧
      (∀ c ∈ w.classes, ∃! around, w.Stands (c :: around)) ∧
      (((w.topLevel.mapM source).run w).1.flatMap ClassSource.entries).Perm
        (w.classes.map fun c => (c,c.methods.length)) := by
  have all := shownOnce malformed (new (malformed.foldl Image.add Image.empty) {} {} none) rfl
  obtain ⟨stands,⟨sources,run,held,-⟩,-⟩ := all
  exact ⟨_,rfl,by decide,stands,run ▸ held⟩

end Workspace

end RegCode
