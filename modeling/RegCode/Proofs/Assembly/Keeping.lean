import RegCode.Assembly.Reader

/-! What is kept while a text is read, line by line, whatever is wrong with the text. -/
namespace RegCode.Assembly

open Text

def Gives {α : Type} (work : Noting α) (P : α → Prop) : Prop := ∀ faults, P (work.run faults).1

namespace Gives

variable {α β : Type} {work : Noting α} {P : α → Prop}

theorem pure {a : α} (holds : P a) : Gives (Pure.pure a) P := fun _ => holds

theorem bind {next : α → Noting β} {Q : β → Prop} (first : Gives work P)
    (later : ∀ a, P a → Gives (next a) Q) : Gives (work >>= next) Q :=
  fun faults => later _ (first faults) _

theorem any (work : Noting α) : Gives work fun _ => True := fun _ => trivial

theorem after {next : α → Noting β} {Q : β → Prop} (later : ∀ a, Gives (next a) Q) :
    Gives (work >>= next) Q := (any work).bind fun a _ => later a

theorem mono {Q : α → Prop} (gives : Gives work P) (weaker : ∀ a, P a → Q a) : Gives work Q :=
  fun faults => weaker _ (gives faults)

end Gives

theorem decodeAllGives {P : Placed → Prop} {Q : Instruction → Prop} {s : Scope}
    (each : ∀ p, P p → Gives (s.decode p) Q) {ps : List Placed} (all : ∀ p ∈ ps, P p) :
    Gives (s.decodeAll ps) fun is => ∀ i ∈ is, Q i := by
  induction ps with
  | nil => exact .pure fun _ member => absurd member List.not_mem_nil
  | cons p ps ih =>
    obtain ⟨first,rest⟩ := List.forall_mem_cons.mp all
    exact (each p first).bind fun i here => (ih rest).bind fun is later =>
      .pure (List.forall_mem_cons.mpr ⟨here,later⟩)

structure Kept where
  line : Line → Prop
  owner : String → Prop
  method : Method → Prop
  placed : Placed → Prop
  caught : CatchLine → Prop
  room : Nat → Int → Prop

namespace Kept

structure Draft (k : Kept) (left : Nat) (d : Draft) : Prop where
  method : k.method d.method
  placed : ∀ p ∈ d.placed, k.placed p
  catches : ∀ c ∈ d.catches, k.caught c
  room : k.room left d.offset

structure Begins (l : Line) (m : Method) : Prop where
  code : m.code = []
  tries : m.tries = []
  head : ∃ paren more, cutWhere? (· == '(') (splitFlags (splitHead l.text).2).2.toList =
    some (m.name.toList,paren,more) ∧ m.descriptor = String.ofList (paren :: more)

structure Closed (k : Kept) : Prop where
  owned : ∀ l, k.line l → k.owner (splitFlags (splitHead l.text).2).2
  begun : ∀ l m, k.line l → k.owner m.owner → Begins l m → k.method m
  put : ∀ (l : Line) (i : Instruction) (offset : Int) (left : Nat), k.line l → k.room (left + 1) offset →
    Mnemonic.template? (splitHead l.text).1 = some i →
    k.placed ⟨{ i with offset, line := l.number },operands (splitHead l.text).2⟩ ∧
      k.room left (offset + i.width)
  rest : ∀ left offset, k.room (left + 1) offset → k.room left offset
  thrown : ∀ (l : Line) (c : CatchLine), k.line l →
    c.type = "" ∨ c.type = (splitHead (splitHead l.text).2).1 → k.caught c
  finished : ∀ left d, k.Draft left d → Gives d.finish k.method

/-- It can be said of all methods that are read and of the parts of the open one. -/
structure Reader (k : Kept) (left : Nat) (r : Reader) : Prop where
  classes : ∀ c ∈ r.classes, k.owner c.name ∧ ∀ m ∈ c.methods, k.method m
  draft : ∀ d, r.draft = some d → k.Draft left d
  start : k.room left 0

variable {k : Kept} {left : Nat} {d : Assembly.Draft} {r : Assembly.Reader} {l : Line}

namespace Draft

theorem of {e : Assembly.Draft} (kept : k.Draft left d) (method : e.method = d.method)
    (placed : e.placed = d.placed) (catches : e.catches = d.catches) (offset : e.offset = d.offset) :
    k.Draft left e :=
  ⟨method ▸ kept.method,placed ▸ kept.placed,catches ▸ kept.catches,offset ▸ kept.room⟩

theorem bindLabels (kept : k.Draft left d) : k.Draft left d.bindLabels := kept.of rfl rfl rfl rfl

theorem later (kept : k.Draft (left + 1) d) (closed : k.Closed) : k.Draft left d :=
  { kept with room := closed.rest left d.offset kept.room }

theorem place (kept : k.Draft (left + 1) d) (closed : k.Closed) (line : k.line l) {i : Instruction}
    (template : Mnemonic.template? (splitHead l.text).1 = some i) :
    k.Draft left (d.place l.number i (operands (splitHead l.text).2)) := by
  obtain ⟨here,room⟩ := closed.put l i d.offset left line kept.room template
  exact ⟨kept.method,List.forall_mem_cons.mpr ⟨here,kept.placed⟩,kept.catches,room⟩

theorem addCatch (kept : k.Draft left d) (closed : k.Closed) (line : k.line l) :
    Gives (d.addCatch l.number (splitHead l.text).1 (splitHead l.text).2) (k.Draft left) := by
  unfold Assembly.Draft.addCatch
  split
  rename_i type rest parts
  have from_ : type = "" ∨ type = (splitHead (splitHead l.text).2).1 := by
    split at parts
    · rw [parts]
      exact .inr rfl
    · cases parts
      exact .inl rfl
  split
  · exact .after fun _ => .pure kept
  · split
    · split
      · exact .after fun _ => .pure kept
      · exact .pure ⟨kept.method,kept.placed,
          List.forall_mem_cons.mpr ⟨closed.thrown l _ line from_,kept.catches⟩,kept.room⟩
    · exact .after fun _ => .pure kept

end Draft

namespace Reader

theorem ofMode (kept : k.Reader left r) (mode : Mode) : k.Reader left { r with mode } := { kept with }

theorem ofDraft (kept : k.Reader left r) (draft : k.Draft left d) (mode : Mode) :
    k.Reader left { r with draft := some d, mode } where
  classes := kept.classes
  draft := fun _ same => Option.some.inj same ▸ draft
  start := kept.start

theorem modifyClass (kept : k.Reader left r) {f : Class → Class} (name : ∀ c, (f c).name = c.name)
    (methods : ∀ c : Class, (∀ m ∈ c.methods, k.method m) → ∀ m ∈ (f c).methods, k.method m) :
    k.Reader left (r.modifyClass f) := by
  unfold Assembly.Reader.modifyClass
  split
  · exact kept
  · rename_i c cs classes
    have all := kept.classes
    rw [classes] at all
    obtain ⟨⟨owner,first⟩,rest⟩ := List.forall_mem_cons.mp all
    exact { kept with classes := List.forall_mem_cons.mpr ⟨⟨(name c).symm ▸ owner,methods c first⟩,rest⟩ }

theorem ofClass (kept : k.Reader left r) {f : Class → Class} (name : ∀ c, (f c).name = c.name)
    (methods : ∀ c, (f c).methods = c.methods) : k.Reader left (r.modifyClass f) :=
  kept.modifyClass name fun c all => (methods c).symm ▸ all

variable (closed : k.Closed)
include closed

theorem later (kept : k.Reader (left + 1) r) : k.Reader left r :=
  { kept with
    draft := fun d open_ => (kept.draft d open_).later closed
    start := closed.rest left 0 kept.start }

theorem closeMethod (kept : k.Reader left r) (draft : k.Draft left d) : Gives (r.closeMethod d) (k.Reader left) := by
  refine (closed.finished left d draft).bind fun m method => .pure ⟨?_,nofun,kept.start⟩
  refine (kept.modifyClass (f := fun c => { c with methods := c.methods ++ [m] }) (fun _ => rfl)
    fun c all => ?_).classes
  exact List.forall_mem_append.mpr ⟨all,List.forall_mem_singleton.mpr method⟩

theorem openMethod (kept : k.Reader left r) (line : k.line l) {owner : Class} (own : k.owner owner.name) :
    Gives (r.openMethod l owner (splitHead l.text).2) (k.Reader left) := by
  unfold Assembly.Reader.openMethod
  split
  rename_i access signature flags
  split
  · exact .after fun _ => .pure (kept.ofMode _)
  · exact .after fun _ => .pure (kept.ofMode _)
  · rename_i name paren more _ cut
    extract_lets descriptor
    split
    · exact .after fun _ => .pure (kept.ofMode _)
    · refine .pure (kept.ofDraft ⟨closed.begun l _ line own ⟨rfl,rfl,paren,more,?_,rfl⟩,
        fun _ member => absurd member List.not_mem_nil,fun _ member => absurd member List.not_mem_nil,
        kept.start⟩ r.mode)
      rw [flags,String.toList_ofList,cut]

theorem openClass (kept : k.Reader left r) (line : k.line l) :
    Gives (r.openClass l (splitHead l.text).2) (k.Reader left) := by
  have own := closed.owned l line
  unfold Assembly.Reader.openClass
  split
  rename_i access name flags
  rw [flags] at own
  have opened : ∀ c : Class, c.name = name → c.methods = [] → k.Reader left { r with classes := c :: r.classes } :=
    fun c same none =>
      { kept with
        classes := List.forall_mem_cons.mpr
          ⟨⟨same ▸ own,none ▸ fun _ member => absurd member List.not_mem_nil⟩,kept.classes⟩ }
  split
  · exact .after fun _ => .pure (opened _ rfl rfl)
  · exact .pure (opened _ rfl rfl)

omit closed in
theorem addField (kept : k.Reader left r) (l : Line) (rest : String) : Gives (r.addField l rest) (k.Reader left) := by
  unfold Assembly.Reader.addField
  split
  split
  split
  · split
    · exact .after fun _ => .pure kept
    · refine .pure (.ofMode (kept.ofClass ?_ ?_) _) <;> exact fun _ => rfl
  · exact .after fun _ => .pure kept

theorem declaration (kept : k.Reader left r) (line : k.line l) : Gives (r.declaration l) (k.Reader left) := by
  have opensClass := kept.openClass closed line
  have opensMethod : ∀ {c : Class}, k.owner c.name → Gives (r.openMethod l c (splitHead l.text).2) (k.Reader left) :=
    fun own => kept.openMethod closed line own
  unfold Assembly.Reader.declaration
  split
  rename_i head rest parts
  rw [parts] at opensClass opensMethod
  split
  · exact opensClass
  · exact .pure (kept.ofClass (fun _ => rfl) fun _ => rfl)
  · exact .pure (kept.ofClass (fun _ => rfl) fun _ => rfl)
  · split
    · exact .pure (kept.ofClass (fun _ => rfl) fun _ => rfl)
    · exact .pure kept
  · split
    · exact .after fun _ => .pure kept
    · exact kept.addField l _
  · split
    · exact .after fun _ => .pure (kept.ofMode _)
    · rename_i c cs classes
      exact opensMethod (kept.classes c (classes ▸ List.mem_cons_self ..)).1
  · exact .pure (kept.ofMode _)
  · exact .pure (kept.ofMode _)
  · exact .pure kept
  · exact .after fun _ => .pure kept

theorem bodyLine (kept : k.Reader (left + 1) r) (draft : k.Draft (left + 1) d) (line : k.line l) :
    Gives (r.bodyLine d l) (k.Reader left) := by
  have placed : ∀ {i}, Mnemonic.template? (splitHead l.text).1 = some i →
      k.Draft left (d.place l.number i (operands (splitHead l.text).2)) := draft.place closed line
  replace kept := kept.later closed
  replace draft := draft.later closed
  have thrown := draft.addCatch closed line
  unfold Assembly.Reader.bodyLine
  split
  · refine .pure (kept.ofDraft (draft.of ?_ ?_ ?_ ?_) _) <;> rfl
  · split
    rename_i head rest parts
    rw [parts] at placed thrown
    split
    · split
      · exact kept.closeMethod closed draft.bindLabels
      · exact .pure kept
    · refine .after fun n => .pure (kept.ofDraft (draft.of ?_ ?_ ?_ ?_) _) <;> rfl
    · refine .after fun n => .pure (kept.ofDraft (draft.of ?_ ?_ ?_ ?_) _) <;> rfl
    · exact thrown.bind fun d draft => .pure (kept.ofDraft draft _)
    · exact thrown.bind fun d draft => .pure (kept.ofDraft draft _)
    · exact .pure (kept.ofMode _)
    · exact .pure (kept.ofMode _)
    · split
      · refine .after fun p => .pure (kept.ofDraft (draft.of ?_ ?_ ?_ ?_) _) <;> rfl
      · split
        · exact .pure kept
        · split
          · exact .after fun _ => .pure kept
          · rename_i template
            exact .pure (kept.ofDraft (placed template) _)

theorem plainLine (kept : k.Reader (left + 1) r) (line : k.line l) : Gives (r.plainLine l) (k.Reader left) := by
  unfold Assembly.Reader.plainLine
  split
  · rename_i d draft
    exact kept.bodyLine closed (kept.draft d draft) line
  · exact (kept.later closed).declaration closed line

omit closed in
theorem closePayload (kept : k.Reader left r) (names : List String) (p : Payload) :
    k.Reader left (r.closePayload names p) where
  classes := kept.classes
  draft := by
    intro d same
    obtain ⟨d',draft,rfl⟩ := Option.map_eq_some_iff.mp same
    exact (kept.draft d' draft).of rfl rfl rfl rfl
  start := kept.start

theorem step (kept : k.Reader (left + 1) r) (line : k.line l) : Gives (r.step l) (k.Reader left) := by
  unfold Assembly.Reader.step
  split
  · exact kept.plainLine closed line
  · refine .pure ?_
    split
    · exact (kept.later closed).ofMode _
    · exact kept.later closed
  · split
    · exact .pure ((kept.later closed).ofMode _)
    · exact (kept.ofMode _).plainLine closed line
  · split
    · exact .pure ((kept.later closed).closePayload _ _)
    · exact .after fun p => .pure ((kept.later closed).ofMode _)

theorem steps {ls : List Line} (kept : k.Reader ls.length r) (lines : ∀ l ∈ ls, k.line l) :
    Gives (r.steps ls) (k.Reader 0) := by
  induction ls generalizing r with
  | nil => exact .pure kept
  | cons l ls ih =>
    obtain ⟨first,rest⟩ := List.forall_mem_cons.mp lines
    exact (kept.step closed first).bind fun _ kept => ih kept rest

theorem close (kept : k.Reader left r) (lastLine : Nat) : Gives (r.close lastLine) (k.Reader left) := by
  unfold Assembly.Reader.close
  split
  case' h_1 => refine .after fun _ => (Gives.pure (kept.closePayload _ _)).bind fun r kept => ?_
  case' h_2 => refine (Gives.pure kept).bind fun r kept => ?_
  all_goals
    dsimp only
    split
    · rename_i d draft
      exact .after fun _ => kept.closeMethod closed (kept.draft d draft)
    · exact .pure kept

end Reader

theorem Closed.read (closed : k.Closed) (source : String) (room : k.room (linesOf source).length 0)
    (lines : ∀ l ∈ linesOf source, k.line l) :
    ∀ c ∈ (readClasses source).1, ∀ m ∈ c.methods, k.method m := by
  have start : k.Reader (linesOf source).length {} :=
    ⟨fun _ member => absurd member List.not_mem_nil,nofun,room⟩
  intro c member m held
  unfold readClasses at member
  have kept := ((start.steps closed lines).bind fun r kept => kept.close closed
    (((linesOf source).getLast?.map Line.number).getD 0)) #[]
  exact (kept.classes c (List.mem_reverse.mp member)).2 m held

end Kept

end RegCode.Assembly
