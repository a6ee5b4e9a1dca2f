import RegCode.Proofs.Assembly.Formed
import RegCode.Proofs.Cache.Bare
import RegCode.Proofs.Cache.Settings
import RegCode.Proofs.Layout.Stored
import RegCode.Workspace
import Mathlib

/-! Work with a cache gives what work without it gives, as far as keys tell methods apart. A key tells
everything but the data that instructions refer to by label. -/
namespace RegCode

open Text

/-! ### What a key tells of a method -/

def Instruction.data (i : Instruction) : Option SwitchTable × Option (List Int) :=
  (i.switch,i.array.map ArrayData.values)

def Method.data (m : Method) : List (Option SwitchTable × Option (List Int)) := m.code.map Instruction.data

theorem Instruction.bareTold {i j : Instruction} (formed : i.Formed) (formed' : j.Formed)
    (told : (i.offset,i.text) = (j.offset,j.text)) (data : i.data = j.data) : i.bare = j.bare := by
  obtain ⟨offset,text⟩ := Prod.mk.inj told
  obtain ⟨switch,values⟩ := Prod.mk.inj data
  have said := textInj formed formed' text
  have array : (i.array.map fun a => (⟨0,a.values⟩ : ArrayData)) =
      j.array.map fun a => (⟨0,a.values⟩ : ArrayData) := by
    have made := congrArg (Option.map fun vs => (⟨0,vs⟩ : ArrayData)) values
    rwa [Option.map_map,Option.map_map] at made
  cases i
  cases j
  simp only [Instruction.said,Instruction.bare,Instruction.mk.injEq] at said offset switch array ⊢
  simp_all

theorem Method.nameTold {m m' : Method} (formed : m.Formed) (formed' : m'.Formed)
    (owner : m.owner = m'.owner) (told : m.fullName = m'.fullName) :
    m.name = m'.name ∧ m.descriptor = m'.descriptor := by
  have chars := congrArg String.toList told
  unfold fullName at chars
  rw [owner] at chars
  simp only [String.toList_append,List.append_assoc] at chars
  have chars := List.append_cancel_left (List.append_cancel_left chars)
  have word : ∀ n : Method, n.Formed → ∀ c ∈ n.name.toList, (c != '(') = true := by
    intro n formed c member
    rw [bne_iff_ne]
    rintro rfl
    exact formed.name member
  have stop : ∀ n : Method, n.Formed → ∀ c ∈ n.descriptor.toList.head?, (c != '(') = false := by
    intro n formed c first
    rw [formed.descriptor] at first
    cases first
    rfl
  obtain ⟨name,descriptor⟩ :=
    spanInj (word m formed) (word m' formed') (stop m formed) (stop m' formed') chars
  exact ⟨String.toList_injective name,String.toList_injective descriptor⟩

theorem Method.bareTold {m m' : Method} (formed : m.Formed) (formed' : m'.Formed)
    (told : Cache.Told m m') (owner : m.owner = m'.owner) (data : m.data = m'.data) :
    m.bare = m'.bare := by
  obtain ⟨name,descriptor⟩ := nameTold formed formed' owner told.fullName
  have code : m.code.map Instruction.bare = m'.code.map Instruction.bare := by
    have texts := told.code
    have all := formed.code
    have all' := formed'.code
    unfold Method.data at data
    generalize m.code = is at texts data all
    generalize m'.code = js at texts data all'
    induction is generalizing js with
    | nil =>
      cases js with
      | nil => rfl
      | cons j js => contradiction
    | cons i is ih =>
      cases js with
      | nil => contradiction
      | cons j js =>
        obtain ⟨first,rest⟩ := List.forall_mem_cons.mp all
        obtain ⟨first',rest'⟩ := List.forall_mem_cons.mp all'
        obtain ⟨text,texts⟩ := List.cons.inj texts
        obtain ⟨datum,data⟩ := List.cons.inj data
        rw [List.map_cons,List.map_cons,Instruction.bareTold first first' text datum,
          ih rest js texts data rest']
  have access := told.access
  have registers := told.registers
  have tries := told.tries
  cases m
  cases m'
  simp_all [Method.bare]

theorem Method.dataUntold (m : Method) (f : Instruction → Option SwitchTable)
    (g : Instruction → Option ArrayData) :
    Cache.methodFields { m with code := m.code.map fun i => { i with switch := f i, array := g i } } =
      Cache.methodFields m := by
  unfold Cache.methodFields
  dsimp only
  rw [List.map_map]
  rfl

/-! ### Work on a method -/

namespace Workspace

def Quiet {α : Type} (work : Working α) : Prop :=
  ∀ w, (work.run w).2.config = w.config ∧ (work.run w).2.cache = w.cache

namespace Quiet

variable {α β : Type}

theorem pure (a : α) : Quiet (Pure.pure a) := fun _ => ⟨rfl,rfl⟩

theorem bind {work : Working α} {next : α → Working β} (first : Quiet work)
    (later : ∀ a, Quiet (next a)) : Quiet (work >>= next) := by
  intro w
  have ⟨config,cache⟩ := first w
  have ⟨config',cache'⟩ := later (work.run w).1 (work.run w).2
  exact ⟨config'.trans config,cache'.trans cache⟩

theorem warn (m : Method) (code : Code) (clues : Clues) (args : List Arg) :
    Quiet (Workspace.warn m code clues args) := fun _ => ⟨rfl,rfl⟩

theorem forM {f : α → Working PUnit} (each : ∀ a, Quiet (f a)) (as : List α) : Quiet (as.forM f) := by
  induction as with
  | nil => exact .pure _
  | cons a as ih => exact (each a).bind fun _ => ih

theorem inspect (m : Method) : Quiet (Workspace.inspect m) := by
  refine (forM (fun _ => Quiet.warn m _ _ _) m.overlaps).bind fun _ => ?_
  intro w
  exact forM (fun _ => Quiet.warn m _ _ _) (References.dead w.known m) w

end Quiet

def faultResult (m : Method) (f : DecompileFault) : MethodResult :=
  let e : MethodError := ⟨m.fullName,f.code,f.message⟩
  { source := { method := m, body := .failed e.text }, error := some e }

def treeResult (m : Method) (d : Decompiled) : MethodResult :=
  let body := (d.tree.map fun r => bodyOf r.root).getD []
  { source := { method := m, vars := d.graph.vars, params := d.graph.params, body := .code body }
    tree := d.tree.map (·.root)
    gotos := (d.tree.map (·.gotos)).getD 0
    loops := (d.tree.map (·.loops)).getD 0 }

def storedResult (m : Method) (e : CacheEntry) : MethodResult :=
  { source := { method := m, body := .stored e.source }
    gotos := e.gotos
    loops := e.loops
    cached := true }

def made (m : Method) (c : Config) : MethodResult :=
  match (m.decompile c).1 with
  | .error f => faultResult m f
  | .ok d => treeResult m d

def entryOf (c : Config) (r : MethodResult) : CacheEntry :=
  ⟨Layout.methodText c.layout r.source,r.gotos,r.loops⟩

theorem ofEntryRun (m : Method) (e : CacheEntry) (w : Workspace) :
    ((ofEntry m e).run w).1 = storedResult m e ∧ ((ofEntry m e).run w).2.cache = w.cache := by
  unfold ofEntry
  split <;> exact ⟨rfl,rfl⟩

theorem ofFaultRun (m : Method) (f : DecompileFault) (w : Workspace) :
    ((ofFault m f).run w).1 = faultResult m f ∧ ((ofFault m f).run w).2.cache = w.cache := ⟨rfl,rfl⟩

theorem ofDecompiledRun (m : Method) (d : Decompiled) (w : Workspace) :
    ((ofDecompiled m d).run w).1 = treeResult m d ∧ ((ofDecompiled m d).run w).2.cache = w.cache := by
  unfold ofDecompiled
  dsimp only
  split <;> exact ⟨rfl,rfl⟩

def filled (m : Method) (c : Config) (key : Option Bytes) (s : Cache) : Cache :=
  match key,(m.decompile c).1 with
  | some k,.ok d => s.put k (entryOf c (treeResult m d))
  | _,_ => s

def attempt (m : Method) (key : Option Bytes) : Working MethodResult := do
  let c := (← get).config
  let (result,dumps) := m.decompile c
  modify fun w => { w with dumps := w.dumps ++ dumps }
  match result with
  | .error f => ofFault m f
  | .ok d =>
    let r ← ofDecompiled m d
    match key with
    | some k => store k ⟨Layout.methodText c.layout r.source,r.gotos,r.loops⟩
    | none => pure ()
    return r

theorem attemptRun (m : Method) (key : Option Bytes) (w : Workspace) :
    ((attempt m key).run w).1 = made m w.config ∧
      ((attempt m key).run w).2.cache = w.cache.map (filled m w.config key) := by
  unfold attempt made filled
  simp only [StateT.run_bind,StateT.run_get,pure_bind]
  generalize m.decompile w.config = out
  obtain ⟨result,dumps⟩ := out
  cases result with
  | error f => cases key <;> exact (Option.map_id' (x := w.cache)).symm ▸ ofFaultRun m f _
  | ok d =>
    cases key with
    | none => exact (Option.map_id' (x := w.cache)).symm ▸ ofDecompiledRun m d _
    | some k =>
      obtain ⟨same,cache⟩ := ofDecompiledRun m d { w with dumps := w.dumps ++ dumps }
      refine ⟨same,?_⟩
      have stored : ∀ out : MethodResult × Workspace, out.1 = treeResult m d → out.2.cache = w.cache →
          ((store k ⟨Layout.methodText w.config.layout out.1.source,out.1.gotos,out.1.loops⟩).run
            out.2).2.cache = w.cache.map fun s => s.put k (entryOf w.config (treeResult m d)) := by
        rintro ⟨r,w'⟩ same cache
        dsimp only at same cache
        rw [same,← cache]
        rfl
      exact stored _ same cache

def serve (m : Method) : Working MethodResult := do
  let key := (← get).cacheKey? m
  let found ← match key with
    | some k => lookUp k
    | none => pure none
  match found with
  | some e => ofEntry m e
  | none => attempt m key

theorem serveRun (m : Method) (w : Workspace) : ∃ w', w'.config = w.config ∧ w'.cache = w.cache ∧
    (workOn m).run w = (serve m).run w' := by
  have quiet : Quiet (do
      countStats fun s => { s with methods := s.methods + 1 }
      inspect m) := Quiet.bind (fun _ => ⟨rfl,rfl⟩) fun _ => .inspect m
  exact ⟨_,(quiet w).1,(quiet w).2,rfl⟩

theorem workOnPlain (m : Method) (w : Workspace) (none : w.cacheKey? m = none) :
    ((workOn m).run w).1 = made m w.config ∧ ((workOn m).run w).2.cache = w.cache := by
  obtain ⟨w',config,cache,run⟩ := serveRun m w
  have key : w'.cacheKey? m = .none := by
    rw [← none,cacheKey?,cacheKey?,config,cache]
  have served : (serve m).run w' = (attempt m .none).run w' := by
    unfold serve
    simp only [StateT.run_bind,StateT.run_get,pure_bind,key]
  obtain ⟨result,kept⟩ := attemptRun m .none w'
  rw [run,served,← config,← cache]
  exact ⟨result,kept.trans Option.map_id'⟩

theorem lookUpRun (k : Bytes) (w : Workspace) {c : Cache} (cache : w.cache = some c) :
    (lookUp k).run w = (c.entries.get? k,{ w with cache := some (c.get k).2 }) := by
  unfold lookUp
  simp only [StateT.run_bind,StateT.run_get,pure_bind,cache]
  unfold Cache.get
  cases c.entries.get? k <;> rfl

theorem workOnHit (m : Method) (w : Workspace) {k : Bytes} {c : Cache} {e : CacheEntry}
    (key : w.cacheKey? m = some k) (cache : w.cache = some c) (found : c.entries.get? k = some e) :
    ((workOn m).run w).1 = storedResult m e ∧ ((workOn m).run w).2.cache = some (c.get k).2 := by
  obtain ⟨w',config,same,run⟩ := serveRun m w
  have key : w'.cacheKey? m = some k := by
    rw [← key,cacheKey?,cacheKey?,config,same]
  have served : (serve m).run w' = (ofEntry m e).run { w' with cache := some (c.get k).2 } := by
    unfold serve
    simp only [StateT.run_bind,StateT.run_get,pure_bind,key,lookUpRun k w' (same.trans cache),found]
    rfl
  rw [run,served]
  exact ofEntryRun m e _

theorem workOnMiss (m : Method) (w : Workspace) {k : Bytes} {c : Cache}
    (key : w.cacheKey? m = some k) (cache : w.cache = some c) (missed : c.entries.get? k = none) :
    ((workOn m).run w).1 = made m w.config ∧
      ((workOn m).run w).2.cache = some (filled m w.config (some k) (c.get k).2) := by
  obtain ⟨w',config,same,run⟩ := serveRun m w
  have key : w'.cacheKey? m = some k := by
    rw [← key,cacheKey?,cacheKey?,config,same]
  have served : (serve m).run w' = (attempt m (some k)).run { w' with cache := some (c.get k).2 } := by
    unfold serve
    simp only [StateT.run_bind,StateT.run_get,pure_bind,key,lookUpRun k w' (same.trans cache),missed]
    rfl
  rw [run,served,← config]
  exact attemptRun m (some k) { w' with cache := some (c.get k).2 }

end Workspace

/-! ### Work with one cache -/

/-- The method was read from an assembly text. -/
def Method.Loaded (m : Method) : Prop :=
  ∃ source, ∃ c ∈ (Assembly.readClasses source).1, m ∈ c.methods

structure Job where
  workspace : Workspace
  method : Method

namespace Job

def config (j : Job) : Config := j.workspace.config

def run (j : Job) (c : Cache) : MethodResult × Cache :=
  let out := (Workspace.workOn j.method).run { j.workspace with cache := some c }
  (out.1,out.2.cache.getD c)

def fresh (j : Job) : MethodResult :=
  ((Workspace.workOn j.method).run { j.workspace with cache := none }).1

def entry (j : Job) (r : MethodResult) : CacheEntry := Workspace.entryOf j.config r

def fields (j : Job) : List String := "v1" :: j.config.fingerprint :: Cache.methodFields j.method

def stream (j : Job) : Bytes := j.fields.flatMap Cache.field

def inner (j : Job) : Bytes := (Cache.methodFields j.method).flatMap Cache.field

def outer (j : Job) : Bytes :=
  Cache.field "v1" ++ Cache.field j.config.fingerprint ++ Cache.fingerprint j.method

/-- Methods that were loaded, under settings that can be followed, with fields whose length fits. -/
structure Legible (j : Job) : Prop where
  loaded : j.method.Loaded
  settings : j.config.Plain
  short : ∀ s ∈ j.fields, Cache.Short s

/-- Two methods of one class with the same data. -/
structure Akin (j k : Job) : Prop where
  owner : j.method.owner = k.method.owner
  data : j.method.data = k.method.data

end Job

def Cache.after (c : Cache) (jobs : List Job) : Cache := jobs.foldl (fun c j => (j.run c).2) c

/-- No two of the texts under the keys have one digest. -/
def Cache.Collisionless (jobs : List Job) : Prop :=
  ∀ j ∈ jobs, ∀ k ∈ jobs, (Digest.blake2b j.inner = Digest.blake2b k.inner → j.inner = k.inner) ∧
    (Digest.blake2b j.outer = Digest.blake2b k.outer → j.outer = k.outer)

namespace Job

structure Stored (j : Job) : Prop where
  code : j.method.hasCode = true
  format : j.config.format = "java"

theorem asked {j : Job} (stored : j.Stored) (c : Cache) :
    Workspace.cacheKey? { j.workspace with cache := some c } j.method =
      some (Cache.key j.method j.config.fingerprint) := by
  refine if_pos ?_
  change (true && j.method.hasCode && j.config.format == "java") = true
  rw [stored.code,stored.format]
  rfl

theorem hitRun {j : Job} (stored : j.Stored) {c : Cache} {e : CacheEntry}
    (found : c.entries.get? (Cache.key j.method j.config.fingerprint) = some e) :
    (j.run c).1 = Workspace.storedResult j.method e :=
  (Workspace.workOnHit j.method { j.workspace with cache := some c } (asked stored c) rfl found).1

theorem missRun {j : Job} (stored : j.Stored) {c : Cache}
    (missed : c.entries.get? (Cache.key j.method j.config.fingerprint) = none) :
    (j.run c).2 = Workspace.filled j.method j.config (some (Cache.key j.method j.config.fingerprint))
      (c.get (Cache.key j.method j.config.fingerprint)).2 :=
  congrArg (Option.getD · c)
    (Workspace.workOnMiss j.method { j.workspace with cache := some c } (asked stored c) rfl missed).2

theorem loadedFormed {j : Job} (legible : j.Legible) : j.method.Formed := by
  obtain ⟨source,c,member,held⟩ := legible.loaded
  exact Assembly.readFormed source c member j.method held

theorem freshMade (j : Job) : j.fresh = Workspace.made j.method j.config :=
  (Workspace.workOnPlain j.method { j.workspace with cache := none } rfl).1

theorem streamTold {j k : Job} (legible : j.Legible) (legible' : k.Legible) (same : j.stream = k.stream) :
    j.config.Alike k.config ∧ Cache.Told j.method k.method := by
  have fields := Cache.fieldsInj legible.short legible'.short same
  obtain ⟨-,rest⟩ := List.cons.inj fields
  obtain ⟨settings,rest⟩ := List.cons.inj rest
  exact ⟨Config.fingerprintTold legible.settings legible'.settings settings,
    Cache.methodFieldsTold rest⟩

end Job

namespace Workspace

theorem faultBare (m : Method) (f : DecompileFault) : faultResult m.bare f =
    { faultResult m f with source := { (faultResult m f).source with method := m.bare } } := by
  unfold faultResult
  rw [show m.bare.fullName = m.fullName from rfl]

theorem treeBare (m : Method) (d : Decompiled) : treeResult m.bare d =
    { treeResult m d with source := { (treeResult m d).source with method := m.bare } } := rfl

theorem entryOfBare (m : Method) (c : Config) {r : MethodResult} (own : r.source.method = m) :
    entryOf c { r with source := { r.source with method := m.bare } } = entryOf c r := by
  subst own
  unfold entryOf
  rw [Layout.bareMethodText]

theorem entryBare (m : Method) (c : Config) : entryOf c (made m.bare c) = entryOf c (made m c) := by
  unfold made
  rw [Method.bareDecompile]
  split
  · rw [faultBare]
    exact entryOfBare m c rfl
  · rw [treeBare]
    exact entryOfBare m c rfl

theorem entryAlike {c d : Config} (alike : c.Alike d) (m : Method) :
    entryOf c (made m c) = entryOf d (made m d) := by
  unfold entryOf made
  rw [alike.layout,Method.decompileAlike alike]

theorem madeLines (m : Method) (c : Config) (o : Layout.Options) :
    Layout.methodLines o 0 (made m c).source ≠ [] := by
  unfold made
  split <;> exact Layout.declarationSome o 0 _

theorem entryStored (m : Method) (c : Config) {r : MethodResult}
    (some : Layout.methodLines c.layout 0 r.source ≠ []) :
    entryOf c (storedResult m (entryOf c r)) = entryOf c r := by
  unfold entryOf storedResult
  dsimp only
  rw [Layout.methodTextStored m some]

end Workspace

namespace Job

theorem entrySame {j k : Job} (legible : j.Legible) (legible' : k.Legible) (akin : j.Akin k)
    (same : j.stream = k.stream) : j.entry j.fresh = k.entry k.fresh := by
  obtain ⟨alike,told⟩ := streamTold legible legible' same
  have bare := Method.bareTold (loadedFormed legible) (loadedFormed legible') told akin.owner akin.data
  rw [entry,entry,freshMade,freshMade,← Workspace.entryBare,bare,Workspace.entryBare,
    Workspace.entryAlike alike]

theorem keyStream {j k : Job} (legible : j.Legible) (legible' : k.Legible) {jobs : List Job}
    (apart : Cache.Collisionless jobs) (member : j ∈ jobs) (member' : k ∈ jobs)
    (same : Cache.key j.method j.config.fingerprint = Cache.key k.method k.config.fingerprint) :
    j.stream = k.stream := by
  obtain ⟨inner,outer⟩ := apart j member k member'
  have bytes := outer same
  unfold Job.outer at bytes
  rw [List.append_assoc,List.append_assoc] at bytes
  obtain ⟨settings,digests⟩ := Cache.fieldInj (legible.short _ (by simp [fields]))
    (legible'.short _ (by simp [fields])) (List.append_cancel_left bytes)
  have methods := inner digests
  unfold stream fields
  rw [List.flatMap_cons,List.flatMap_cons,List.flatMap_cons,List.flatMap_cons,settings]
  exact congrArg _ (congrArg _ methods)

end Job

namespace Cache

def Faithful (jobs : List Job) (c : Cache) : Prop :=
  ∀ k e, c.entries.get? k = some e →
    ∃ j ∈ jobs, key j.method j.config.fingerprint = k ∧ j.entry j.fresh = e

theorem putGet (c : Cache) (key k : Bytes) (e : CacheEntry) :
    (c.put key e).entries.get? k = if k == key then some e else c.entries.get? k :=
  Table.get?_insert c.entries key k e

theorem filledFaithful {jobs : List Job} {c : Cache} (faithful : Faithful jobs c) {j : Job}
    (member : j ∈ jobs) : Faithful jobs
      (Workspace.filled j.method j.config (some (key j.method j.config.fingerprint)) c) := by
  unfold Workspace.filled
  cases made : (j.method.decompile j.config).1 with
  | error f => exact faithful
  | ok t =>
    intro k e found
    rw [putGet] at found
    split at found
    · rename_i here
      rw [← Option.some.inj found]
      refine ⟨j,member,(beq_iff_eq.mp here).symm,?_⟩
      rw [Job.entry,Job.freshMade,Workspace.made,made]
    · exact faithful k e found

theorem runStep {jobs : List Job} (legible : ∀ j ∈ jobs, j.Legible)
    (akin : ∀ j ∈ jobs, ∀ k ∈ jobs, j.stream = k.stream → j.Akin k) (apart : Collisionless jobs)
    {c : Cache} (faithful : Faithful jobs c) {j : Job} (member : j ∈ jobs) :
    j.entry (j.run c).1 = j.entry j.fresh ∧ Faithful jobs (j.run c).2 := by
  have counted : ∀ k, (c.get k).2.entries = c.entries := by
    intro k
    unfold get
    split <;> rfl
  have kept : ∀ k, Faithful jobs (c.get k).2 := fun k => by
    unfold Faithful
    rw [counted]
    exact faithful
  unfold Job.run
  cases asked : Workspace.cacheKey? { j.workspace with cache := some c } j.method with
  | none =>
    obtain ⟨result,cache⟩ := Workspace.workOnPlain j.method { j.workspace with cache := some c } asked
    dsimp only
    rw [result,cache,Job.freshMade]
    exact ⟨rfl,faithful⟩
  | some k =>
    have same : key j.method j.config.fingerprint = k := by
      unfold Workspace.cacheKey? at asked
      split at asked
      · exact Option.some.inj asked
      · contradiction
    subst same
    cases found : c.entries.get? (key j.method j.config.fingerprint) with
    | some e =>
      obtain ⟨result,cache⟩ := Workspace.workOnHit j.method { j.workspace with cache := some c } asked
        rfl found
      obtain ⟨i,worked,keys,stored⟩ := faithful _ e found
      have streams := Job.keyStream (legible i worked) (legible j member) apart worked member keys
      have text : e = j.entry j.fresh := stored.symm.trans
        (Job.entrySame (legible i worked) (legible j member) (akin i worked j member streams) streams)
      dsimp only
      rw [result,cache]
      refine ⟨?_,kept _⟩
      rw [text,Job.freshMade]
      exact Workspace.entryStored j.method j.config (Workspace.madeLines j.method j.config _)
    | none =>
      obtain ⟨result,cache⟩ := Workspace.workOnMiss j.method { j.workspace with cache := some c } asked
        rfl found
      dsimp only
      rw [result,cache,Job.freshMade]
      exact ⟨rfl,filledFaithful (kept _) member⟩

variable {jobs : List Job}

theorem afterFaithful (legible : ∀ j ∈ jobs, j.Legible)
    (akin : ∀ j ∈ jobs, ∀ k ∈ jobs, j.stream = k.stream → j.Akin k) (apart : Collisionless jobs)
    {worked : List Job} (among : ∀ j ∈ worked, j ∈ jobs) {c : Cache} (faithful : Faithful jobs c) :
    Faithful jobs (c.after worked) := by
  induction worked generalizing c with
  | nil => exact faithful
  | cons j worked ih =>
    obtain ⟨first,rest⟩ := List.forall_mem_cons.mp among
    exact ih rest (runStep legible akin apart faithful first).2

/-- A key tells methods apart that have different texts, and work with a shared cache gives what work
without it gives, text and counts, provided that two methods with the same bytes under their keys have
one owner and the same tables and values. These are not among the bytes. -/
theorem transparent (legible : ∀ j ∈ jobs, j.Legible)
    (akin : ∀ j ∈ jobs, ∀ k ∈ jobs, j.stream = k.stream → j.Akin k) :
    (∀ j ∈ jobs, ∀ k ∈ jobs, j.stream = k.stream → j.entry j.fresh = k.entry k.fresh) ∧
      (Collisionless jobs → ∀ before j later, jobs = before ++ j :: later →
        j.entry (j.run (after {} before)).1 = j.entry j.fresh) := by
  refine ⟨fun j member k member' same =>
    Job.entrySame (legible j member) (legible k member') (akin j member k member' same) same,?_⟩
  intro apart before j later parts
  have empty : Faithful jobs {} := nofun
  have among : ∀ i ∈ before, i ∈ jobs := fun i member => parts ▸ List.mem_append_left _ member
  exact (runStep legible akin apart (afterFaithful legible akin apart among empty)
    (parts ▸ List.mem_append_right _ (List.mem_cons_self ..))).1

/-! ### A method that has moved in its source -/

theorem filledFound {m : Method} {c : Config} {d : Decompiled} (made : (m.decompile c).1 = .ok d)
    (k : Bytes) (s : Cache) : (Workspace.filled m c (some k) s).entries.get? k =
      some (Workspace.entryOf c (Workspace.treeResult m d)) := by
  unfold Workspace.filled
  rw [made]
  exact (putGet s k k _).trans (if_pos (beq_self_eq_true k))

theorem foundAgain {j k : Job} (stored : j.Stored) (stored' : k.Stored)
    (made : (j.method.decompile j.config).1.toOption.isSome = true)
    (same : key j.method j.config.fingerprint = key k.method k.config.fingerprint) :
    (k.run (after {} [j])).1.cached = true := by
  cases result : (j.method.decompile j.config).1 with
  | error f =>
    rw [result] at made
    exact absurd made Bool.false_ne_true
  | ok d =>
    have once := Job.missRun (c := {}) stored (Table.get?_empty _)
    have found := filledFound result (key j.method j.config.fingerprint)
      (get {} (key j.method j.config.fingerprint)).2
    rw [← once] at found
    have hit := Job.hitRun stored' (same ▸ found)
    change (k.run (j.run {}).2).1.cached = true
    rw [hit]
    rfl

def idle (line : Nat) : Job where
  workspace := { config := { splitLifetimes := false, propagate := false } }
  method :=
    { owner := "L;"
      name := "f"
      descriptor := "()V"
      access := ⟨0⟩
      registers := 1
      index := 0
      line
      code := [{ family := .returnVoid, type := "V", mnemonic := "return-void", line := line + 1 }]
      tries := []
      overlaps := [] }

theorem idleLoaded (source : String) {line : Nat} (read : (Assembly.readClasses source).1.any
    (fun c => c.methods.contains (idle line).method) = true) : (idle line).method.Loaded := by
  obtain ⟨c,member,held⟩ := List.any_eq_true.mp read
  exact ⟨source,c,member,List.contains_iff_mem.mp held⟩

theorem idleLegible {line : Nat} (loaded : (idle line).method.Loaded) : (idle line).Legible where
  loaded := loaded
  settings := by
    change ' ' ∉ "pretest-first".toList
    decide
  short := by
    have short : ∀ s ∈ (idle 0).fields, Short s := by
      unfold Short
      decide +kernel
    exact short

theorem idleKey (m n : Nat) : key (idle m).method (idle m).config.fingerprint =
    key (idle n).method (idle n).config.fingerprint := by
  unfold key fingerprint
  rw [show methodFields (idle m).method = methodFields (idle n).method from rfl,
    show (idle m).config = (idle n).config from rfl]

set_option maxRecDepth 100000 in
theorem idleMade : ((idle 2).method.decompile (idle 2).config).1.toOption.isSome = true := by cbv

/-- A method is found again after a line was put in front of it. -/
theorem transparentMoved : (∀ j ∈ [idle 2,idle 3], j.Legible) ∧
    (∀ j ∈ [idle 2,idle 3], ∀ k ∈ [idle 2,idle 3], j.stream = k.stream → j.Akin k) ∧
    Collisionless [idle 2,idle 3] ∧ (idle 2).method ≠ (idle 3).method ∧
    ((idle 3).run (after {} [idle 2])).1.cached = true ∧
    (idle 3).entry ((idle 3).run (after {} [idle 2])).1 = (idle 3).entry (idle 3).fresh := by
  have legible : ∀ j ∈ [idle 2,idle 3], j.Legible := by
    refine List.forall_mem_cons.mpr ⟨?_,List.forall_mem_singleton.mpr ?_⟩
    · exact idleLegible (idleLoaded ".class L;\n.method f()V\nreturn-void" (by decide +kernel))
    · exact idleLegible (idleLoaded "\n.class L;\n.method f()V\nreturn-void" (by decide +kernel))
  have line : ∀ j ∈ [idle 2,idle 3], ∃ n, j = idle n :=
    List.forall_mem_cons.mpr ⟨⟨2,rfl⟩,List.forall_mem_singleton.mpr ⟨3,rfl⟩⟩
  have akin : ∀ j ∈ [idle 2,idle 3], ∀ k ∈ [idle 2,idle 3], j.stream = k.stream → j.Akin k := by
    intro j member k member' _
    obtain ⟨m,rfl⟩ := line j member
    obtain ⟨n,rfl⟩ := line k member'
    exact ⟨rfl,rfl⟩
  have apart : Collisionless [idle 2,idle 3] := by
    intro j member k member'
    obtain ⟨m,rfl⟩ := line j member
    obtain ⟨n,rfl⟩ := line k member'
    exact ⟨fun _ => rfl,fun _ => rfl⟩
  exact ⟨legible,akin,apart,by decide,foundAgain ⟨rfl,rfl⟩ ⟨rfl,rfl⟩ idleMade (idleKey 2 3),
    (transparent legible akin).2 apart [idle 2] (idle 3) [] rfl⟩

end Cache

end RegCode
