import RegCode.Proofs.Assembly.Renumbering

/-! Where the reading of a method body ends. A body is over with its first end line unless it leaves
an annotation, the annotation of a parameter or a payload open; then every line up to the one that
closes it is taken for a part of it. -/
namespace RegCode.Assembly

open Text

theorem labelWord {text name : String} (label : stripStart? ":" text = some name) :
    (splitHead text).1.toList.head? = some ':' := by
  obtain ⟨rest,stripped,-⟩ := Option.map_eq_some_iff.mp label
  have colon : text.toList = ':' :: rest := stripStartSome stripped
  unfold splitHead
  rw [colon,cutWhere?,if_neg (by decide)]
  cases cutWhere? (fun c => c == ' ' || c == '\t') rest with
  | none => exact congrArg List.head? colon
  | some cut => exact congrArg List.head? String.toList_ofList

theorem headStart (text : String) : ∃ cs, text.toList = (splitHead text).1.toList ++ cs := by
  unfold splitHead
  split
  · rename_i cut
    rw [String.toList_ofList]
    exact ⟨_,Descriptor.cutWhere?_eq cut⟩
  · exact ⟨[],(List.append_nil _).symm⟩

def EndsMethod (text : String) : Prop := splitHead text = (".end","method")

instance (text : String) : Decidable (EndsMethod text) := inferInstanceAs (Decidable (_ = _))

namespace EndsMethod

variable {text : String}

theorem unlabelled (ends : EndsMethod text) : stripStart? ":" text = none := by
  cases label : stripStart? ":" text with
  | none => rfl
  | some name =>
    have first := labelWord label
    rw [ends] at first
    contradiction

theorem unannotated (ends : EndsMethod text) : startsWith ".annotation" text = false := by
  obtain ⟨cs,whole⟩ := headStart text
  rw [startsWith,whole,ends]
  rfl

end EndsMethod

/-! ### What is left open -/

inductive Pending where
  | nothing
  | param (stop : String)
  | line (stop : String)
  deriving DecidableEq, Repr

namespace Pending

def ofDirective : String → Pending
  | ".annotation" => .line ".end annotation"
  | ".param" => .param ".end param"
  | head =>
    match PayloadKind.ofDirective? head with
    | some kind => .line (".end " ++ kind.name)
    | none => .nothing

theorem ofDirectiveOther {head : String} (noted : head ≠ ".annotation") (param : head ≠ ".param") :
    ofDirective head = match PayloadKind.ofDirective? head with
      | some kind => .line (".end " ++ kind.name)
      | none => .nothing := by
  unfold ofDirective
  split
  · contradiction
  · contradiction
  · rfl

def opened (text : String) : Pending := ofDirective (splitHead text).1

def next : Pending → String → Pending
  | .nothing, text => opened text
  | .param stop, text => if startsWith ".annotation" text then .line stop else opened text
  | .line stop, text => if text = stop then .nothing else .line stop

theorem openedEnd {text : String} (ends : EndsMethod text) : opened text = .nothing := by
  unfold opened
  rw [ends]
  rfl

theorem openedLabel {text name : String} (label : stripStart? ":" text = some name) :
    opened text = .nothing := by
  have other : ∀ word : String, word.toList.head? ≠ some ':' → (splitHead text).1 ≠ word :=
    fun word differs same => differs (same ▸ labelWord label)
  unfold opened ofDirective
  split
  · exact absurd ‹_› (other _ (by decide))
  · exact absurd ‹_› (other _ (by decide))
  · unfold PayloadKind.ofDirective?
    split
    · split at ‹_›
      · exact absurd ‹_› (other _ (by decide))
      · exact absurd ‹_› (other _ (by decide))
      · exact absurd ‹_› (other _ (by decide))
      · contradiction
    · rfl

theorem nextEnd {w : Pending} (free : ∀ stop, w ≠ .line stop) {text : String} (ends : EndsMethod text) :
    w.next text = .nothing := by
  cases w with
  | nothing => exact openedEnd ends
  | param stop =>
    rw [next,ends.unannotated]
    exact openedEnd ends
  | line stop => exact absurd rfl (free stop)

def Inner : Pending → Prop
  | .nothing => True
  | .param stop => ¬ EndsMethod stop
  | .line stop => ¬ EndsMethod stop

theorem openedInner (text : String) : (opened text).Inner := by
  have directives : ∀ kind : PayloadKind, ¬ EndsMethod (".end " ++ kind.name) := by
    intro kind
    cases kind <;> decide
  unfold opened ofDirective
  split
  · exact (by decide : ¬ EndsMethod ".end annotation")
  · exact (by decide : ¬ EndsMethod ".end param")
  · split
    · exact directives _
    · trivial

theorem nextInner {w : Pending} (inner : w.Inner) (text : String) : (w.next text).Inner := by
  unfold next
  split
  · exact openedInner text
  · split
    · exact inner
    · exact openedInner text
  · split
    · trivial
    · exact inner

end Pending

def Mode.pending : Mode → Pending
  | .plain => .nothing
  | .skipping stop => .line stop
  | .peeking stop => .param stop
  | .payload _ p => .line (".end " ++ p.kind.name)

theorem Mode.plainOfPending {mode : Mode} (none : mode.pending = .nothing) : mode = .plain := by
  cases mode <;> first | rfl | contradiction

/-! ### Lines of a body -/

namespace Reader

structure Holds (cs : List Class) (m? : Option Method) (w : Pending) (r : Reader) : Prop where
  classes : r.classes = cs
  method : r.draft.map (·.method) = m?
  pending : r.mode.pending = w

variable {cs : List Class} {m : Method} {m? : Option Method} {w : Pending} {r : Reader} {l : Line}

def withMethod (m : Method) : List Class → List Class
  | [] => []
  | c :: cs => { c with methods := c.methods ++ [m] } :: cs

theorem closeMethodGives (d : Draft) : Gives (r.closeMethod d) fun s =>
    ∃ m' : Method, m'.heading = d.method.heading ∧ s = ⟨withMethod m' r.classes,none,r.mode⟩ := by
  have finished : Gives d.finish fun m => m.heading = d.method.heading :=
    .after fun _ => .after fun _ => .pure rfl
  refine finished.bind fun m same => .pure ⟨m,same,?_⟩
  obtain ⟨_ | _,_,_⟩ := r <;> rfl

theorem payloadKept (p : Payload) (l : Line) :
    Gives (p.addLine l) fun q => q.kind = p.kind := by
  unfold Payload.addLine
  split
  · exact .pure rfl
  · split
    · exact .after fun _ => .pure rfl
    · exact .after fun _ => .pure rfl
  · exact .after fun _ => .pure rfl

theorem openPayloadKind (line : Nat) (kind : PayloadKind) (rest : String) :
    Gives (openPayload line kind rest) fun p => p.kind = kind := by
  cases kind with
  | packedSwitch => exact .after fun _ => .pure rfl
  | sparseSwitch => exact .pure rfl
  | arrayData => exact .after fun _ => .pure rfl

theorem addCatchMethod (d : Draft) (line : Nat) (head rest : String) :
    Gives (d.addCatch line head rest) fun e => e.method = d.method := by
  unfold Draft.addCatch
  split
  split
  · exact .after fun _ => .pure rfl
  · split
    · split
      · exact .after fun _ => .pure rfl
      · exact .pure rfl
    · exact .after fun _ => .pure rfl

namespace Holds

theorem inside {stop : String} (holds : Holds cs m? (.line stop) r) (l : Line) :
    Gives (r.step l) (Holds cs m? (Pending.next (.line stop) l.text)) := by
  obtain ⟨_,draft,mode⟩ := r
  obtain ⟨rfl,rfl,pending⟩ := holds
  unfold Reader.step
  cases mode with
  | plain => contradiction
  | peeking => contradiction
  | skipping =>
    cases pending
    refine .pure ?_
    dsimp only
    split
    · exact ⟨rfl,rfl,(if_pos ‹_›).symm⟩
    · exact ⟨rfl,rfl,(if_neg ‹_›).symm⟩
  | payload names p =>
    cases pending
    dsimp only
    split
    · refine .pure ⟨rfl,?_,(if_pos ‹_›).symm⟩
      exact Option.map_map ..
    · refine (payloadKept p l).bind fun q kind => .pure ⟨rfl,rfl,?_⟩
      rw [Pending.next,if_neg ‹_›,← kind]
      rfl

theorem between {d : Draft} (classes : r.classes = cs) (draft : r.draft = some d) (mode : r.mode = .plain)
    (method : d.method = m) (inner : ¬ EndsMethod l.text) :
    Gives (r.bodyLine d l) (Holds cs (some m) (Pending.opened l.text)) := by
  have redrafted : ∀ e : Draft, e.method = d.method →
      Holds cs (some m) .nothing { r with draft := some e } := fun e same =>
    ⟨classes,by rw [Option.map_some,same,method],by rw [mode]; rfl⟩
  have kept : Holds cs (some m) .nothing r := ⟨classes,by rw [draft,Option.map_some,method],by rw [mode]; rfl⟩
  unfold Reader.bodyLine
  split
  · rename_i name label
    rw [Pending.openedLabel label]
    exact .pure (redrafted _ rfl)
  · unfold Pending.opened
    unfold EndsMethod at inner
    split
    rename_i head rest parts
    rw [parts] at inner ⊢
    split
    · split
      · rename_i same
        exact absurd (congrArg _ same) inner
      · exact .pure kept
    · exact .after fun n => .pure (redrafted _ rfl)
    · exact .after fun n => .pure (redrafted _ rfl)
    · exact (addCatchMethod _ _ _ _).bind fun e same => .pure (redrafted e same)
    · exact (addCatchMethod _ _ _ _).bind fun e same => .pure (redrafted e same)
    · exact .pure ⟨kept.classes,kept.method,rfl⟩
    · exact .pure ⟨kept.classes,kept.method,rfl⟩
    · rename_i noted param
      have word := Pending.ofDirectiveOther noted param
      rw [show (head,rest).1 = head from rfl,word]
      cases PayloadKind.ofDirective? head with
      | some kind =>
        refine (openPayloadKind _ _ _).bind fun p same => .pure ⟨kept.classes,congrArg some method,?_⟩
        rw [← same]
        rfl
      | none =>
        dsimp only
        split
        · exact .pure kept
        · split
          · exact .after fun _ => .pure kept
          · exact .pure (redrafted _ rfl)

theorem step (holds : Holds cs (some m) w r) (inner : ¬ EndsMethod l.text) :
    Gives (r.step l) (Holds cs (some m) (w.next l.text)) := by
  cases w with
  | line stop => exact holds.inside l
  | nothing =>
    obtain ⟨classes,method,pending⟩ := holds
    obtain ⟨d,draft,same⟩ := Option.map_eq_some_iff.mp method
    cases mode : r.mode <;> rw [mode] at pending <;> first | contradiction | skip
    rw [Reader.step,mode]
    show Gives (r.plainLine l) _
    rw [Reader.plainLine,draft]
    exact between classes draft mode same inner
  | param stop =>
    obtain ⟨classes,method,pending⟩ := holds
    obtain ⟨d,draft,same⟩ := Option.map_eq_some_iff.mp method
    cases mode : r.mode <;> rw [mode] at pending <;> cases pending
    rw [Reader.step,mode,Pending.next]
    dsimp only
    split
    · exact .pure ⟨classes,method,rfl⟩
    · rw [Reader.plainLine]
      dsimp only
      rw [draft]
      exact between (r := ⟨r.classes,some d,.plain⟩) classes rfl rfl same inner

theorem steps (holds : Holds cs (some m) w r) {ls : List Line} (inner : ∀ l ∈ ls, ¬ EndsMethod l.text) :
    Gives (r.steps ls) (Holds cs (some m) ((ls.map (·.text)).foldl Pending.next w)) := by
  induction ls generalizing w r with
  | nil => exact .pure holds
  | cons l ls ih =>
    obtain ⟨here,later⟩ := List.forall_mem_cons.mp inner
    exact (holds.step here).bind fun _ holds => ih holds later

theorem insideAll {stop : String} (holds : Holds cs m? (.line stop) r) {ls : List Line}
    (inner : ∀ l ∈ ls, l.text ≠ stop) : Gives (r.steps ls) (Holds cs m? (.line stop)) := by
  induction ls generalizing r with
  | nil => exact .pure holds
  | cons l ls ih =>
    obtain ⟨here,later⟩ := List.forall_mem_cons.mp inner
    refine (holds.inside l).bind fun _ holds => ih ?_ later
    rwa [Pending.next,if_neg here] at holds

theorem ends (holds : Holds cs (some m) w r) (none : ∀ stop, w ≠ .line stop) (ends : EndsMethod l.text) :
    Gives (r.step l) fun r' => ∃ m' : Method, m'.heading = m.heading ∧ r' = ⟨withMethod m' cs,.none,.plain⟩ := by
  obtain ⟨rfl,method,pending⟩ := holds
  obtain ⟨d,draft,rfl⟩ := Option.map_eq_some_iff.mp method
  have shut : ∀ r' : Reader, r'.classes = r.classes → r'.mode = .plain → Gives (r'.bodyLine d l) fun s =>
      ∃ m' : Method, m'.heading = d.method.heading ∧ s = ⟨withMethod m' r.classes,.none,.plain⟩ := by
    intro r' classes mode
    rw [Reader.bodyLine,ends.unlabelled,← classes,← mode]
    dsimp only
    rw [ends]
    exact closeMethodGives d.bindLabels
  unfold Reader.step
  cases mode : r.mode with
  | plain =>
    show Gives (r.plainLine l) _
    rw [Reader.plainLine,draft]
    exact shut r rfl mode
  | peeking stop =>
    dsimp only
    rw [ends.unannotated,if_neg (by decide),Reader.plainLine]
    dsimp only
    rw [draft]
    exact shut _ rfl rfl
  | skipping stop =>
    rw [mode] at pending
    exact absurd pending.symm (none stop)
  | payload names p =>
    rw [mode] at pending
    exact absurd pending.symm (none _)

def Closed (cs : List Class) (m? : Option Method) (s : Reader) : Prop :=
  match m? with
  | some m => ∃ m' : Method, m'.heading = m.heading ∧ s.classes = withMethod m' cs
  | none => s.classes = cs

theorem close (holds : Holds cs m? w r) (last : Nat) : Gives (r.close last) (Closed cs m?) := by
  have shut : ∀ r' : Reader, r'.classes = cs → r'.draft.map (·.method) = m? →
      Gives (r'.shut last) (Closed cs m?) := by
    rintro ⟨_,draft,mode⟩ rfl rfl
    cases draft with
    | none => exact .pure rfl
    | some d =>
      refine .after fun _ => (closeMethodGives d).mono ?_
      rintro _ ⟨m',same,rfl⟩
      exact ⟨m',same,rfl⟩
  unfold Reader.close
  split
  · rename_i names p _
    refine .after fun _ => shut (r.closePayload names p) holds.classes ?_
    rw [← holds.method]
    exact Option.map_map ..
  · exact shut r holds.classes holds.method

end Holds
end Reader

/-! ### Methods in a text -/

def textsOf (source : String) : List String := (linesOf source).map (·.text)

def unnumbered (texts : List String) : List Line := texts.map fun text => ⟨0,text⟩

theorem textsUnnumbered (texts : List String) : (unnumbered texts).map (·.text) = texts := by
  unfold unnumbered
  rw [List.map_map]
  exact List.map_id _

def Reader.after (texts : List String) : Reader := ((Reader.steps {} (unnumbered texts)).run #[]).1

/-- The next line is a declaration. -/
def Reader.Outside (r : Reader) : Prop := r.draft = none ∧ ∀ stop, r.mode.pending ≠ .line stop

instance (r : Reader) : Decidable r.Outside :=
  match draft : r.draft, pending : r.mode.pending with
  | some _, _ => isFalse fun outside => nomatch draft.symm.trans outside.1
  | none, .line stop => isFalse fun outside => outside.2 stop pending
  | none, .nothing => isTrue ⟨draft,fun _ same => nomatch pending.symm.trans same⟩
  | none, .param _ => isTrue ⟨draft,fun _ same => nomatch pending.symm.trans same⟩

theorem Reader.Near.outside {hidden : Nat → Nat → Bool} {r r' : Reader} (near : Near hidden r r')
    (outside : r'.Outside) : r.Outside := by
  obtain ⟨-,draft,mode⟩ := near
  obtain ⟨none,free⟩ := outside
  rw [none] at draft
  have pending : ∀ mode : Mode, mode.unlined.pending = mode.pending := fun mode => by cases mode <;> rfl
  refine ⟨Option.map_eq_none_iff.mp draft,fun stop => ?_⟩
  rw [← pending,mode,pending]
  exact free stop

/-- A directive that begins a method, up to the first end line after it. -/
structure MethodText where
  before : List String
  head : String
  body : List String
  stop : String
  outside : (Reader.after before).Outside
  heads : (splitHead head).1 = ".method"
  inner : ∀ text ∈ body, ¬ EndsMethod text
  ends : EndsMethod stop

namespace MethodText

variable (t : MethodText)

def lines : List String := t.before ++ t.head :: (t.body ++ [t.stop])

def start : Reader := Reader.after (t.before ++ [t.head])

def pending : Pending := (t.body ++ [t.stop]).foldl Pending.next t.start.mode.pending

def place (i j : Nat) : Bool :=
  match t.start.draft with
  | some d => i + 1 == t.start.classes.length && j == d.method.index
  | none => false

def shell : List Class :=
  match t.start.draft with
  | some d => Reader.withMethod d.method.heading t.start.classes
  | none => t.start.classes

end MethodText

theorem stepsAppend (r : Reader) (ls ls' : List Line) :
    r.steps (ls ++ ls') = r.steps ls >>= (·.steps ls') := by
  induction ls generalizing r with
  | nil => rfl
  | cons l ls ih =>
    rw [List.cons_append,Reader.steps,Reader.steps,bind_assoc]
    exact bind_congr fun s => ih s

structure Reader.Begun (s : Reader) : Prop where
  passed : s.draft = none → s.mode = .skipping ".end method"
  filled : ∀ d, s.draft = some d → s.mode = .plain ∧
    ∃ c cs, s.classes = c :: cs ∧ d.method.index = c.methods.length

theorem declarationMethod {l : Line} (heads : (splitHead l.text).1 = ".method") (r : Reader) :
    r.declaration l = match r.classes with
      | [] => do note l.number .methodOutsideClass; pure (r.skip ".end method")
      | c :: _ => r.openMethod l c (splitHead l.text).2 := by
  unfold Reader.declaration
  split
  rename_i head rest parts
  rw [parts] at heads ⊢
  cases heads
  rfl

theorem headGives {r : Reader} (outside : r.Outside) {l : Line} (heads : (splitHead l.text).1 = ".method") :
    Gives (r.step l) Reader.Begun := by
  have passed : ∀ r : Reader, r.draft = none → (r.skip ".end method").Begun :=
    fun r none => ⟨fun _ => rfl,fun d some => by rw [Reader.skip,none] at some; contradiction⟩
  have declared : ∀ r : Reader, r.draft = none → r.mode = .plain → Gives (r.plainLine l) Reader.Begun := by
    intro r none mode
    rw [Reader.plainLine,none]
    dsimp only
    rw [declarationMethod heads]
    split
    · exact .after fun _ => .pure (passed r none)
    · rename_i c cs classes
      unfold Reader.openMethod
      split
      split
      · exact .after fun _ => .pure (passed r none)
      · exact .after fun _ => .pure (passed r none)
      · dsimp only
        split
        · exact .after fun _ => .pure (passed r none)
        · refine .pure ⟨nofun,fun d some => ?_⟩
          cases some
          exact ⟨mode,c,cs,classes,rfl⟩
  obtain ⟨none,free⟩ := outside
  unfold Reader.step
  cases mode : r.mode with
  | plain => exact declared r none mode
  | peeking stop =>
    obtain ⟨cs,whole⟩ := headStart l.text
    have plain : startsWith ".annotation" l.text = false := by
      rw [startsWith,whole,heads]
      rfl
    dsimp only
    rw [plain,if_neg (by decide)]
    exact declared _ none rfl
  | skipping stop =>
    rw [mode] at free
    exact absurd rfl (free stop)
  | payload names p =>
    rw [mode] at free
    exact absurd rfl (free _)

theorem Reader.afterGives {P : Reader → Prop} {texts more : List String}
    (gives : Gives ((Reader.after texts).steps (unnumbered more)) P) : P (Reader.after (texts ++ more)) := by
  unfold Reader.after unnumbered at gives ⊢
  rw [List.map_append,stepsAppend]
  exact gives _

theorem shownShell {hidden : Nat → Nat → Bool} {c : Class} {cs : List Class}
    (hides : hidden cs.length c.methods.length = true) {m m' : Method} (same : m.heading = m'.heading) :
    shownClasses hidden (Reader.withMethod m (c :: cs)).reverse
      = shownClasses hidden (Reader.withMethod m' (c :: cs)).reverse := by
  have added : (if hidden cs.length c.methods.length then m.heading else m.unlined)
      = if hidden cs.length c.methods.length then m'.heading else m'.unlined := by
    rw [hides]
    exact same
  have last := shownAdd (rfl : c.shown (hidden cs.length) = _) added
  unfold Reader.withMethod
  rw [shownCons,shownCons,last]

namespace MethodText

variable (t : MethodText)

theorem startBegun : t.start.Begun := by
  have begun := headGives t.outside (l := ⟨0,t.head⟩) t.heads
  exact Reader.afterGives (begun.bind fun s begun => .pure begun)

theorem pendingEnd : t.pending = (t.body.foldl Pending.next t.start.mode.pending).next t.stop := by
  unfold pending
  rw [List.foldl_append]
  rfl

def Read (r : Reader) : Prop := t.pending = .nothing ∧ Reader.Near t.place r ⟨t.shell,none,.plain⟩

def Waits (r : Reader) : Prop := ∃ stop, t.pending = .line stop ∧
  Reader.Holds t.start.classes (t.start.draft.map (·.method)) (.line stop) r

theorem passedGives (none : t.start.draft = none) :
    Gives (t.start.steps (unnumbered t.body) >>= (·.step ⟨0,t.stop⟩)) fun r => t.Read r ∨ t.Waits r := by
  have mode := t.startBegun.passed none
  have holds : Reader.Holds t.start.classes .none (.line ".end method") t.start :=
    ⟨rfl,by rw [none]; rfl,by rw [mode]; rfl⟩
  have other : ∀ text ∈ t.body, text ≠ ".end method" :=
    fun text member same => t.inner text member (same ▸ by decide)
  have waits : t.body.foldl Pending.next (.line ".end method") = .line ".end method" := by
    revert other
    generalize t.body = texts
    intro other
    induction texts with
    | nil => rfl
    | cons text texts ih =>
      obtain ⟨here,later⟩ := List.forall_mem_cons.mp other
      rw [List.foldl_cons,Pending.next,if_neg here]
      exact ih later
  have pending := t.pendingEnd
  rw [mode,Mode.pending,waits,Pending.next] at pending
  have others : ∀ l ∈ unnumbered t.body, l.text ≠ ".end method" := List.forall_mem_map.mpr other
  have passed := holds.insideAll others
  refine passed.bind fun r holds => (holds.inside ⟨0,t.stop⟩).mono fun r holds => ?_
  rw [Pending.next] at holds
  split at pending
  · rename_i same
    rw [if_pos same] at holds
    refine .inl ⟨pending,?_,?_,?_⟩
    · unfold shell
      rw [holds.classes,none]
    · rw [Option.map_eq_none_iff.mp holds.method]
    · rw [Mode.plainOfPending holds.pending]
  · rename_i other
    rw [if_neg other] at holds
    exact .inr ⟨_,pending,none ▸ holds⟩

theorem filledGives {d : Draft} (some : t.start.draft = some d) :
    Gives (t.start.steps (unnumbered t.body) >>= (·.step ⟨0,t.stop⟩)) fun r => t.Read r ∨ t.Waits r := by
  obtain ⟨mode,c,cs,classes,index⟩ := t.startBegun.filled d some
  have method : t.start.draft.map (·.method) = .some d.method := by rw [some]; rfl
  have holds : Reader.Holds t.start.classes (.some d.method) .nothing t.start :=
    ⟨rfl,method,by rw [mode]; rfl⟩
  have inner : (t.body.foldl Pending.next .nothing).Inner := by
    have : ∀ w : Pending, w.Inner → (t.body.foldl Pending.next w).Inner := by
      generalize t.body = texts
      induction texts with
      | nil => exact fun w inner => inner
      | cons text texts ih => exact fun w inner => ih _ (Pending.nextInner inner text)
    exact this _ trivial
  have pending := t.pendingEnd
  rw [mode,Mode.pending] at pending
  have inner : ∀ l ∈ unnumbered t.body, ¬ EndsMethod l.text := List.forall_mem_map.mpr t.inner
  have body := holds.steps inner
  rw [textsUnnumbered] at body
  refine body.bind fun r holds => ?_
  generalize t.body.foldl Pending.next .nothing = w at *
  by_cases waits : ∃ stop, w = .line stop
  · obtain ⟨stop,rfl⟩ := waits
    have other : t.stop ≠ stop := fun same => inner (same ▸ t.ends)
    refine (holds.inside ⟨0,t.stop⟩).mono fun r holds => .inr ⟨stop,?_,method ▸ ?_⟩
    · rw [pending,Pending.next,if_neg other]
    · rwa [Pending.next,if_neg other] at holds
  · have free : ∀ stop, w ≠ .line stop := fun stop same => waits ⟨stop,same⟩
    refine (holds.ends free t.ends).mono ?_
    rintro _ ⟨m,heading,rfl⟩
    refine .inl ⟨pending.trans (Pending.nextEnd free t.ends),?_,rfl,rfl⟩
    unfold shell
    rw [some,classes]
    refine shownShell ?_ heading
    unfold place
    rw [some,classes]
    simp [index]

theorem bodyGives : Gives (t.start.steps (unnumbered (t.body ++ [t.stop]))) fun r => t.Read r ∨ t.Waits r := by
  have last : t.start.steps (unnumbered (t.body ++ [t.stop]))
      = t.start.steps (unnumbered t.body) >>= (·.step ⟨0,t.stop⟩) := by
    unfold unnumbered
    rw [List.map_append,stepsAppend]
    exact bind_congr fun r => bind_pure _
  rw [last]
  cases draft : t.start.draft with
  | none => exact t.passedGives draft
  | some d => exact t.filledGives draft

theorem linesGives : t.Read (Reader.after t.lines) ∨ t.Waits (Reader.after t.lines) := by
  have whole : t.lines = t.before ++ [t.head] ++ (t.body ++ [t.stop]) := by
    unfold lines
    rw [List.append_assoc]
    rfl
  rw [whole]
  exact Reader.afterGives t.bodyGives

end MethodText

theorem readNear {hidden : Nat → Nat → Bool} {source : String} {front rest : List String}
    (texts : textsOf source = front ++ rest) {r : Reader} (near : Reader.Near hidden (Reader.after front) r) :
    shownClasses hidden (readClasses source).1
      = shownClasses hidden ((r.steps (unnumbered rest) >>= (·.close 0)).run #[]).1.classes.reverse := by
  obtain ⟨ls,ls',parts,fronts,rests⟩ := List.map_eq_append_iff.mp texts
  have first : Twins (Reader.steps {} ls) (Pure.pure r : Noting Reader) (Reader.Near hidden) := fun fs _ =>
    ((Reader.Near.refl {}).steps (fronts.trans (textsUnnumbered front).symm) fs #[]).trans near
  have later := (first.bind fun s s' near =>
    near.steps (rests.trans (textsUnnumbered rest).symm)).bind fun _ _ near =>
      near.close (((linesOf source).getLast?.map Line.number).getD 0) 0
  rw [← stepsAppend,← parts] at later
  exact (later #[] #[]).classes

namespace MethodText

variable (t : MethodText)

theorem swallowed {stop : String} (waits : t.pending = .line stop) {rest : List String} (never : stop ∉ rest)
    {source : String} (texts : textsOf source = t.lines ++ rest) :
    shownClasses t.place (readClasses source).1 = shownClasses t.place t.shell.reverse := by
  rw [readNear texts (.refl _)]
  obtain ⟨none,-⟩ | ⟨_,same,holds⟩ := t.linesGives
  · rw [none] at waits
    contradiction
  · cases same.symm.trans waits
    have missed : ∀ l ∈ unnumbered rest, l.text ≠ stop :=
      List.forall_mem_map.mpr fun text member same => never (same ▸ member)
    have others := holds.insideAll missed
    have classes := (others.bind fun _ holds => holds.close 0) #[]
    unfold shell
    cases draft : t.start.draft with
    | none =>
      rw [draft] at classes
      exact congrArg (fun cs => shownClasses t.place cs.reverse) classes
    | some d =>
      rw [draft] at classes
      obtain ⟨m,heading,classes⟩ := classes
      obtain ⟨-,c,cs,front,index⟩ := t.startBegun.filled d draft
      rw [classes,front]
      refine shownShell ?_ heading
      unfold place
      rw [draft,front]
      simp [index]

/-- The reading of a method is over with its first end line iff nothing waits for a line then. If so, what is
read before and after it does not depend on its body; if not, up to that line nothing else is read. -/
theorem boundedByEnd :
    (t.pending = .nothing ↔ (Reader.after t.lines).Outside) ∧
    (t.pending = .nothing → ∀ t' : MethodText, t'.before = t.before → t'.head = t.head →
      t'.pending = .nothing → ∀ rest source source',
        textsOf source = t.lines ++ rest → textsOf source' = t'.lines ++ rest →
        shownClasses t.place (readClasses source).1 = shownClasses t.place (readClasses source').1) ∧
    (t.pending ≠ .nothing → ∃ stop, t.pending = .line stop ∧ ∀ rest, stop ∉ rest →
      ∀ source, textsOf source = t.lines ++ rest →
        shownClasses t.place (readClasses source).1 = shownClasses t.place t.shell.reverse) := by
  have given := t.linesGives
  refine ⟨⟨fun none => ?_,fun outside => ?_⟩,fun none t' before head none' rest source source' texts texts' => ?_,
    fun open_ => ?_⟩
  · obtain ⟨-,near⟩ | ⟨stop,waits,-⟩ := given
    · exact near.outside ⟨rfl,nofun⟩
    · rw [none] at waits
      contradiction
  · obtain ⟨none,-⟩ | ⟨stop,-,holds⟩ := given
    · exact none
    · exact absurd holds.pending (outside.2 stop)
  · have starts : t'.start = t.start := by
      unfold start
      rw [before,head]
    have places : t'.place = t.place := by
      unfold place
      rw [starts]
    have shells : t'.shell = t.shell := by
      unfold shell
      rw [starts]
    obtain ⟨-,near⟩ | ⟨stop,waits,-⟩ := given
    · obtain ⟨-,near'⟩ | ⟨stop,waits,-⟩ := t'.linesGives
      · rw [places,shells] at near'
        rw [readNear texts near,readNear texts' near']
      · rw [none'] at waits
        contradiction
    · rw [none] at waits
      contradiction
  · obtain ⟨none,-⟩ | ⟨stop,waits,-⟩ := given
    · exact absurd none open_
    · exact ⟨stop,waits,fun rest never source texts => t.swallowed waits never texts⟩

def sample (body : List String) (inner : ∀ text ∈ body, ¬ EndsMethod text) : MethodText where
  before := [".class LA;"]
  head := ".method f()V"
  body := body
  stop := ".end method"
  outside := by decide +kernel
  heads := by decide +kernel
  inner := inner
  ends := by decide +kernel

theorem boundedUnknown :
    let t := sample ["bad v0","nop"] (by decide +kernel)
    let u := sample [".annotation LA;","nop"] (by decide +kernel)
    (Reader.after t.lines).Outside ∧
    shownClasses t.place (readClasses
        ".class LA;\n.method f()V\n bad v0\n nop\n.end method\n.method g()V\n.end method").1
      = shownClasses t.place (readClasses
        ".class LA;\n.method f()V\n nop\n.end method\n.method g()V\n.end method").1 ∧
    shownClasses u.place (readClasses
        ".class LA;\n.method f()V\n .annotation LA;\n nop\n.end method\n.method g()V\n.end method").1
      = shownClasses u.place u.shell.reverse := by
  intro t u
  have ended : t.pending = .nothing := by decide +kernel
  have kept := (boundedByEnd t).2.1 ended (sample ["nop"] (by decide +kernel)) rfl rfl (by decide +kernel)
    [".method g()V",".end method"]
  have open_ : u.pending = .line ".end annotation" := by decide +kernel
  obtain ⟨stop,waits,lost⟩ := (boundedByEnd u).2.2 (by rw [open_]; nofun)
  cases open_.symm.trans waits
  refine ⟨(boundedByEnd t).1.mp ended,kept _ _ ?_ ?_,
    lost [".method g()V",".end method"] (by decide) _ ?_⟩ <;> decide +kernel

end MethodText

end RegCode.Assembly
