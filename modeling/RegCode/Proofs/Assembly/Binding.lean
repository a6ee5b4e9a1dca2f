import RegCode.Proofs.Assembly.Bounds
import Mathlib.Algebra.Ring.Int.Defs

/-! What the labels of a method body denote. A label waits for the next instruction, or for the end of the method,
and denotes its offset. A payload that comes first takes the label for a name of its own. -/
namespace RegCode.Assembly

open Text

/-! ### Lines of a body -/

inductive Mark where
  | label (name : String)
  | inst (i : Instruction) (operands : List String)
  | payload
  | ends
  | other
  deriving DecidableEq

namespace Mark

def ofHead (head rest : String) : Mark :=
  if (PayloadKind.ofDirective? head).isSome then .payload
  else if startsWith "." head then .other
  else
    match Mnemonic.template? head with
    | some i => .inst i (operands rest)
    | none => .other

def of (text : String) : Mark :=
  match stripStart? ":" text with
  | some name => .label name
  | none => if EndsMethod text then .ends else ofHead (splitHead text).1 (splitHead text).2

theorem ofLabel {text name : String} (label : stripStart? ":" text = some name) : of text = .label name := by
  simp [of,label]

theorem ofPlain {text head rest : String} (unlabelled : stripStart? ":" text = none)
    (inner : ¬ EndsMethod text) (parts : splitHead text = (head,rest)) : of text = ofHead head rest := by
  simp [of,unlabelled,inner,parts]

theorem ofEnd {text : String} (ends : EndsMethod text) : of text = .ends := by
  simp [of,ends.unlabelled,ends]

theorem ofHeadInner (head rest : String) : ofHead head rest ≠ .ends := by
  unfold ofHead
  generalize Mnemonic.template? head = template
  split
  · exact nofun
  · split
    · exact nofun
    · cases template <;> exact nofun

theorem endsIff (text : String) : of text = .ends ↔ EndsMethod text := by
  refine ⟨fun same => ?_,ofEnd⟩
  unfold of at same
  split at same
  · exact nomatch same
  · split at same
    · assumption
    · exact absurd same (ofHeadInner _ _)

def width : Mark → Int
  | .inst i _ => i.width
  | _ => 0

def settles : Mark → Option Bool
  | .inst _ _ => some true
  | .payload => some false
  | _ => none

end Mark

def Pending.reads : Pending → String → Bool
  | .nothing, _ => true
  | .param _, text => !startsWith ".annotation" text
  | .line _, _ => false

def marked (w : Pending) (text : String) : List Mark := if w.reads text then [Mark.of text] else []

theorem markedRead {w : Pending} {text : String} (reads : w.reads text = true) :
    marked w text = [Mark.of text] := if_pos reads

theorem markedUnread {w : Pending} {text : String} (unread : w.reads text = false) : marked w text = [] :=
  if_neg (by simp [unread])

theorem markedInner {w : Pending} {text : String} (inner : .ends ∉ marked w text) (reads : w.reads text = true) :
    ¬ EndsMethod text := fun ends => inner (by simp [markedRead reads,Mark.ofEnd ends])

def marks : Pending → List String → List Mark
  | _, [] => []
  | w, text :: texts => marked w text ++ marks (w.next text) texts

def widthOf (ms : List Mark) : Int := (ms.map Mark.width).sum

theorem widthAppend (xs ys : List Mark) : widthOf (xs ++ ys) = widthOf xs + widthOf ys := by
  simp [widthOf]

theorem widthUnsettled {ms : List Mark} (none : ms.findSome? Mark.settles = none) : widthOf ms = 0 := by
  induction ms with
  | nil => rfl
  | cons k ms ih =>
    simp only [List.findSome?_cons] at none
    split at none
    · contradiction
    · rename_i unsettled
      have thin : k.width = 0 := by cases k <;> first | rfl | contradiction
      have rest := ih none
      simp_all [widthOf]

def layOut : Int → List Mark → List Placed
  | _, [] => []
  | o, .inst i ops :: ms => ⟨{ i with offset := o, line := 0 },ops⟩ :: layOut (o + i.width) ms
  | o, _ :: ms => layOut o ms

def Placed.bare (p : Placed) : Placed := { p with inst := { p.inst with line := 0 } }

theorem layOutAppend (o : Int) (xs ys : List Mark) :
    layOut o (xs ++ ys) = layOut o xs ++ layOut (o + widthOf xs) ys := by
  induction xs generalizing o with
  | nil => simp [layOut,widthOf]
  | cons k xs ih => cases k <;> simp [layOut,ih,widthOf,Mark.width,Int.add_assoc]

/-! ### Labels of a body -/

/-- A label stands behind so much code, and the label is settled so. -/
def Stands (n : String) (ms : List Mark) (o : Int) (b : Option Bool) : Prop :=
  ∃ xs ys, ms = xs ++ .label n :: ys ∧ widthOf xs = o ∧ ys.findSome? Mark.settles = b

namespace Stands

variable {n : String} {ms : List Mark} {o : Int} {b : Option Bool}

theorem snocIff (k : Mark) : Stands n (ms ++ [k]) o b ↔
    (∃ b', Stands n ms o b' ∧ b'.or k.settles = b) ∨ k = .label n ∧ widthOf ms = o ∧ b = none := by
  constructor
  · intro ⟨xs,ys,parts,width,settled⟩
    rcases List.eq_nil_or_concat ys with none | ⟨zs,z,last⟩
    · subst none
      obtain ⟨front,back⟩ := List.append_inj' parts rfl
      subst front
      exact .inr ⟨List.cons.inj back |>.1,width,settled.symm⟩
    · subst last
      have whole : ms ++ [k] = (xs ++ .label n :: zs) ++ [z] := by simp [parts]
      obtain ⟨front,back⟩ := List.append_inj' whole rfl
      cases back
      refine .inl ⟨_,⟨xs,zs,front,width,rfl⟩,?_⟩
      rw [← settled]
      simp [List.findSome?_append]
  · intro stands
    obtain ⟨b',⟨xs,ys,parts,width,settled⟩,settles⟩ | ⟨same,width,none⟩ := stands
    · refine ⟨xs,ys ++ [k],by simp [parts],width,?_⟩
      rw [List.findSome?_append,settled,← settles]
      simp
    · subst same none
      exact ⟨ms,[],rfl,width,rfl⟩

theorem snocBound (k : Mark) : Stands n (ms ++ [k]) o (some true) ↔
    Stands n ms o (some true) ∨ k.settles = some true ∧ Stands n ms o none := by
  rw [snocIff]
  constructor
  · intro stands
    obtain ⟨b',stands,settles⟩ | ⟨-,-,none⟩ := stands
    · cases b' with
      | none => exact .inr ⟨settles,stands⟩
      | some c => exact .inl (settles ▸ stands)
    · contradiction
  · intro stands
    obtain stands | ⟨settles,stands⟩ := stands
    · exact .inl ⟨_,stands,rfl⟩
    · exact .inl ⟨none,stands,settles⟩

theorem snocWaits (k : Mark) : Stands n (ms ++ [k]) o none ↔
    k.settles = none ∧ Stands n ms o none ∨ k = .label n ∧ widthOf ms = o := by
  rw [snocIff]
  constructor
  · intro stands
    obtain ⟨b',stands,settles⟩ | ⟨same,width,-⟩ := stands
    · obtain ⟨rfl,unsettled⟩ := Option.or_eq_none_iff.mp settles
      exact .inl ⟨unsettled,stands⟩
    · exact .inr ⟨same,width⟩
  · intro stands
    obtain ⟨unsettled,stands⟩ | ⟨same,width⟩ := stands
    · exact .inl ⟨none,stands,unsettled⟩
    · exact .inr ⟨same,width,rfl⟩

theorem waits (stands : Stands n ms o none) : o = widthOf ms := by
  obtain ⟨xs,ys,rfl,rfl,unsettled⟩ := stands
  have rest : widthOf (.label n :: ys) = 0 := widthUnsettled unsettled
  simp [widthAppend,rest]

theorem placed (stands : Stands n ms o b) :
    o ∈ (layOut 0 ms).map (·.inst.offset) ∨ o = widthOf ms := by
  obtain ⟨xs,ys,rfl,rfl,-⟩ := stands
  have front : ∀ (o : Int) (zs : List Mark),
      o ∈ (layOut o zs).map (·.inst.offset) ∨ widthOf zs = 0 := by
    intro o zs
    induction zs with
    | nil => exact .inr rfl
    | cons k zs ih => cases k <;> simp_all [layOut,widthOf,Mark.width]
  rw [layOutAppend,widthAppend]
  rcases front (widthOf xs) (.label n :: ys) with here | none
  · refine .inl (List.map_append ▸ List.mem_append_right _ ?_)
    rwa [Int.zero_add]
  · exact .inr (by rw [none,Int.add_zero])

end Stands

theorem bindMem {n : String} {o : Int} {names : List String} {at_ : Int} {ls : List (String × Int)} :
    (n,o) ∈ names.foldl (fun ls name => (name,at_) :: ls) ls ↔ (n ∈ names ∧ o = at_) ∨ (n,o) ∈ ls := by
  induction names generalizing ls with
  | nil => simp
  | cons name names ih =>
    rw [List.foldl_cons,ih]
    simp only [List.mem_cons,Prod.mk.injEq]
    constructor
    · rintro (⟨member,same⟩ | ⟨first,same⟩ | old)
      · exact .inl ⟨.inr member,same⟩
      · exact .inl ⟨.inl first,same⟩
      · exact .inr old
    · rintro (⟨first | member,same⟩ | old)
      · exact .inr (.inl ⟨first,same⟩)
      · exact .inl ⟨member,same⟩
      · exact .inr (.inr old)

/-! ### Reading -/

structure Draft.Follows (ms : List Mark) (d : Draft) : Prop where
  offset : d.offset = widthOf ms
  placed : d.placed.reverse.map Placed.bare = layOut 0 ms
  labels : ∀ n o, (n,o) ∈ d.labels ↔ Stands n ms o (some true)
  waiting : ∀ n, n ∈ d.waiting ↔ ∃ o, Stands n ms o none

/-- Drafts with the same code and bound labels. -/
structure Draft.Alike (d e : Draft) : Prop where
  offset : e.offset = d.offset
  placed : e.placed = d.placed
  labels : e.labels = d.labels

def Mark.Leads (d e : Draft) : Mark → Prop
  | .label n => d.Alike e ∧ e.waiting = d.waiting ++ [n]
  | .inst i ops => ∃ line, e = d.place line i ops
  | .payload => d.Alike e ∧ e.waiting = []
  | _ => d.Alike e ∧ e.waiting = d.waiting

theorem Draft.Follows.bind {ms : List Mark} {d : Draft} (follows : d.Follows ms) (n : String) (o : Int) :
    (n,o) ∈ d.bindLabels.labels ↔ Stands n ms o (some true) ∨ Stands n ms o none := by
  unfold Draft.bindLabels
  rw [bindMem,follows.labels,follows.waiting,follows.offset,or_comm]
  refine or_congr_right ⟨fun ⟨⟨o',stands⟩,same⟩ => ?_,fun stands => ⟨⟨o,stands⟩,stands.waits⟩⟩
  rwa [same,← stands.waits]

namespace Draft.Follows

variable {ms : List Mark} {d e : Draft}

theorem idle (follows : d.Follows ms) (alike : d.Alike e) {k : Mark} (thin : k.width = 0)
    (bare : ∀ o, layOut o [k] = [])
    (labels : ∀ n o, Stands n (ms ++ [k]) o (some true) ↔ Stands n ms o (some true))
    (waiting : ∀ n, n ∈ e.waiting ↔ ∃ o, Stands n (ms ++ [k]) o none) : e.Follows (ms ++ [k]) where
  offset := by simp [alike.offset,follows.offset,widthOf,thin]
  placed := by rw [alike.placed,follows.placed,layOutAppend,bare,List.append_nil]
  labels := fun n o => by rw [alike.labels,follows.labels,labels]
  waiting := waiting

theorem step {k : Mark} (follows : d.Follows ms) (leads : k.Leads d e) : e.Follows (ms ++ [k]) := by
  cases k with
  | label name =>
    obtain ⟨alike,waiting⟩ := leads
    refine follows.idle alike rfl (fun _ => rfl) (fun n o => by simp [Stands.snocBound,Mark.settles]) fun n => ?_
    simp [waiting,follows.waiting,Stands.snocWaits,Mark.settles,exists_or,eq_comm]
  | inst i ops =>
    obtain ⟨line,rfl⟩ := leads
    refine ⟨?_,?_,fun n o => ?_,fun n => ?_⟩
    · simp [Draft.place,Draft.bindLabels,follows.offset,widthOf,Mark.width]
    · have before := follows.placed
      simp [Draft.place,Draft.bindLabels,layOutAppend,layOut,Placed.bare,follows.offset] at before ⊢
      exact before
    · exact (follows.bind n o).trans (by simp [Stands.snocBound,Mark.settles])
    · simp [Draft.place,Draft.bindLabels,Stands.snocWaits,Mark.settles]
  | payload =>
    obtain ⟨alike,waiting⟩ := leads
    refine follows.idle alike rfl (fun _ => rfl) (fun n o => by simp [Stands.snocBound,Mark.settles]) fun n => ?_
    simp [waiting,Stands.snocWaits,Mark.settles]
  | ends | other =>
    obtain ⟨alike,waiting⟩ := leads
    refine follows.idle alike rfl (fun _ => rfl) (fun n o => by simp [Stands.snocBound,Mark.settles]) fun n => ?_
    simp [waiting,follows.waiting,Stands.snocWaits,Mark.settles]

end Draft.Follows

namespace Reader

variable {cs : List Class} {m : Method} {w : Pending} {r : Reader} {l : Line}

theorem addCatchLeads (d : Draft) (line : Nat) (head rest : String) :
    Gives (d.addCatch line head rest) fun e => d.Alike e ∧ e.waiting = d.waiting := by
  unfold Draft.addCatch
  split
  split
  · exact .after fun _ => .pure ⟨⟨rfl,rfl,rfl⟩,rfl⟩
  · split
    · split
      · exact .after fun _ => .pure ⟨⟨rfl,rfl,rfl⟩,rfl⟩
      · exact .pure ⟨⟨rfl,rfl,rfl⟩,rfl⟩
    · exact .after fun _ => .pure ⟨⟨rfl,rfl,rfl⟩,rfl⟩

theorem bodyLineLeads {d : Draft} (draft : r.draft = some d) (inner : ¬ EndsMethod l.text) :
    Gives (r.bodyLine d l) fun s => ∃ e, s.draft = some e ∧ (Mark.of l.text).Leads d e := by
  have idle : Mark.other.Leads d d := ⟨⟨rfl,rfl,rfl⟩,rfl⟩
  unfold Reader.bodyLine
  split
  · rename_i name label
    exact .pure ⟨_,rfl,by rw [Mark.ofLabel label]; exact ⟨⟨rfl,rfl,rfl⟩,rfl⟩⟩
  · rename_i unlabelled
    split
    rename_i head rest parts
    have mark := Mark.ofPlain unlabelled inner parts
    unfold EndsMethod at inner
    rw [parts] at inner
    rw [mark]
    split
    · split
      · rename_i same
        exact absurd (congrArg _ same) inner
      · exact .pure ⟨d,draft,idle⟩
    · exact .after fun n => .pure ⟨_,rfl,⟨rfl,rfl,rfl⟩,rfl⟩
    · exact .after fun n => .pure ⟨_,rfl,⟨rfl,rfl,rfl⟩,rfl⟩
    · exact (addCatchLeads _ _ _ _).bind fun e leads => .pure ⟨e,rfl,leads⟩
    · exact (addCatchLeads _ _ _ _).bind fun e leads => .pure ⟨e,rfl,leads⟩
    · exact .pure ⟨d,draft,idle⟩
    · exact .pure ⟨d,draft,idle⟩
    · unfold Mark.ofHead
      cases PayloadKind.ofDirective? head with
      | some kind => exact .after fun p => .pure ⟨_,rfl,⟨rfl,rfl,rfl⟩,rfl⟩
      | none =>
        simp only [Option.isSome_none,Bool.false_eq_true,if_false]
        split
        · exact .pure ⟨d,draft,idle⟩
        · cases Mnemonic.template? head with
          | none => exact .after fun _ => .pure ⟨d,draft,idle⟩
          | some i => exact .pure ⟨_,rfl,_,rfl⟩

def Drafts (ms : List Mark) (r : Reader) : Prop := ∃ d, r.draft = some d ∧ d.Follows ms

variable {ms : List Mark}

theorem plainDrafts (drafts : r.Drafts ms) (inner : ¬ EndsMethod l.text) :
    Gives (r.plainLine l) (Drafts (ms ++ [Mark.of l.text])) := by
  obtain ⟨d,draft,follows⟩ := drafts
  rw [Reader.plainLine,draft]
  exact (bodyLineLeads draft inner).mono fun s leads => by
    obtain ⟨e,some,leads⟩ := leads
    exact ⟨e,some,follows.step leads⟩

theorem insideDrafts (drafts : r.Drafts ms) {stop : String} (pending : r.mode.pending = .line stop) :
    Gives (r.step l) (Drafts ms) := by
  obtain ⟨d,draft,follows⟩ := drafts
  unfold Reader.step
  split
  · rename_i mode
    rw [mode] at pending
    contradiction
  · refine .pure ?_
    split
    · exact ⟨d,draft,follows⟩
    · exact ⟨d,draft,follows⟩
  · rename_i mode
    rw [mode] at pending
    contradiction
  · rename_i names p _
    split
    · refine .pure ⟨d.addPayload names p,?_,⟨follows.offset,follows.placed,follows.labels,follows.waiting⟩⟩
      rw [Reader.closePayload,draft]
      rfl
    · exact .after fun _ => .pure ⟨d,draft,follows⟩

theorem stepDrafts (drafts : r.Drafts ms) (inner : .ends ∉ marked r.mode.pending l.text) :
    Gives (r.step l) (Drafts (ms ++ marked r.mode.pending l.text)) := by
  cases mode : r.mode with
  | plain =>
    rw [mode] at inner
    rw [Reader.step,mode,markedRead rfl]
    exact plainDrafts drafts (markedInner inner rfl)
  | skipping stop =>
    rw [markedUnread rfl,List.append_nil]
    exact insideDrafts drafts (by rw [mode]; rfl)
  | payload names p =>
    rw [markedUnread rfl,List.append_nil]
    exact insideDrafts drafts (by rw [mode]; rfl)
  | peeking stop =>
    rw [mode] at inner
    rw [Reader.step,mode]
    dsimp only
    split
    · rename_i noted
      rw [markedUnread (by simp [Mode.pending,Pending.reads,noted]),List.append_nil]
      exact .pure drafts
    · rename_i other
      have reads : (Mode.peeking stop).pending.reads l.text = true := by
        simp [Mode.pending,Pending.reads,other]
      rw [markedRead reads]
      exact plainDrafts drafts (markedInner inner reads)

structure Reading (cs : List Class) (m : Method) (w : Pending) (ms : List Mark) (r : Reader) : Prop where
  holds : Holds cs (some m) w r
  drafts : r.Drafts ms

theorem Reading.step (reading : Reading cs m w ms r) (inner : .ends ∉ marked w l.text) :
    Gives (r.step l) (Reading cs m (w.next l.text) (ms ++ marked w l.text)) := by
  have drafts : Gives (r.step l) (Drafts (ms ++ marked w l.text)) := by
    have pending := reading.holds.pending
    subst pending
    exact stepDrafts reading.drafts inner
  have holds : Gives (r.step l) (Holds cs (some m) (w.next l.text)) := by
    cases w with
    | line stop => exact reading.holds.inside l
    | nothing => exact reading.holds.step (markedInner inner rfl)
    | param stop =>
      by_cases reads : (Pending.param stop).reads l.text = true
      · exact reading.holds.step (markedInner inner reads)
      · refine reading.holds.step fun ends => reads ?_
        simp [Pending.reads,ends.unannotated]
  exact fun faults => ⟨holds faults,drafts faults⟩

theorem Reading.steps {ls : List Line} (reading : Reading cs m w ms r)
    (inner : .ends ∉ marks w (ls.map (·.text))) :
    Gives (r.steps ls) (Reading cs m ((ls.map (·.text)).foldl Pending.next w)
      (ms ++ marks w (ls.map (·.text)))) := by
  induction ls generalizing w ms r with
  | nil => exact .pure (by simpa [marks] using reading)
  | cons l ls ih =>
    simp only [List.map_cons,marks,List.mem_append,not_or] at inner
    refine (reading.step inner.1).bind fun s reading => ?_
    simpa [marks] using ih reading inner.2

theorem Reading.start (cs : List Class) (m : Method) :
    Reading cs m .nothing [] ⟨cs,some { method := m },.plain⟩ where
  holds := ⟨rfl,rfl,rfl⟩
  drafts := by
    refine ⟨_,rfl,rfl,rfl,fun n o => ?_,fun n => ?_⟩ <;> simp [Stands]

end Reader

/-! ### Bodies -/

/-- The lines of a method, up to its end line; there is none where the text ends before it. -/
structure Body where
  lines : List Line
  stop : Option Line
  inner : .ends ∉ marks .nothing (lines.map (·.text))
  ends : ∀ l, stop = some l →
    marked ((lines.map (·.text)).foldl Pending.next .nothing) l.text = [.ends]

namespace Body

variable (b : Body)

def marks : List Mark := Assembly.marks .nothing (b.lines.map (·.text))

def binds (ys : List Mark) : Bool := (ys.findSome? Mark.settles).getD b.stop.isSome

def read (r : Reader) (last : Nat) : Noting Reader := do
  let r ← r.steps b.lines
  match b.stop with
  | some l => r.step l
  | none => r.close last

structure Binds (e : Draft) : Prop where
  placed : e.placed.reverse.map Placed.bare = layOut 0 b.marks
  labels : ∀ n o, (n,o) ∈ e.labels ↔
    ∃ xs ys, b.marks = xs ++ .label n :: ys ∧ widthOf xs = o ∧ b.binds ys = true

theorem bindsIff (n : String) (o : Int) :
    (∃ xs ys, b.marks = xs ++ .label n :: ys ∧ widthOf xs = o ∧ b.binds ys = true) ↔
      Stands n b.marks o (some true) ∨ Stands n b.marks o none ∧ b.stop.isSome = true := by
  constructor
  · intro ⟨xs,ys,parts,width,bound⟩
    unfold Body.binds at bound
    cases settled : ys.findSome? Mark.settles with
    | none => exact .inr ⟨⟨xs,ys,parts,width,settled⟩,by simpa [settled] using bound⟩
    | some c =>
      rw [settled] at bound
      obtain rfl : c = true := bound
      exact .inl ⟨xs,ys,parts,width,settled⟩
  · intro stands
    obtain ⟨xs,ys,parts,width,settled⟩ | ⟨⟨xs,ys,parts,width,settled⟩,stop⟩ := stands
    · exact ⟨xs,ys,parts,width,by simp [Body.binds,settled]⟩
    · exact ⟨xs,ys,parts,width,by simp [Body.binds,settled,stop]⟩

variable {b}

theorem bindsOfEnd {d : Draft} (follows : d.Follows b.marks) (stop : b.stop.isSome = true) :
    b.Binds d.bindLabels where
  placed := follows.placed
  labels := fun n o => by
    rw [follows.bind,bindsIff,stop]
    simp

theorem bindsOfText {d : Draft} (follows : d.Follows b.marks) (stop : b.stop.isSome = false) : b.Binds d where
  placed := follows.placed
  labels := fun n o => by
    rw [follows.labels,bindsIff,stop]
    simp

end Body

namespace Reader

theorem closeMethodDraft (r : Reader) (e : Draft) :
    r.closeMethod e = Reader.closeMethod ⟨r.classes,none,r.mode⟩ e := by
  obtain ⟨_ | _,_,_⟩ := r <;> rfl

theorem stepEnd {r : Reader} {d : Draft} {l : Line} (draft : r.draft = some d)
    (ends : marked r.mode.pending l.text = [.ends]) :
    r.step l = Reader.closeMethod ⟨r.classes,none,.plain⟩ d.bindLabels := by
  have reads : r.mode.pending.reads l.text = true := by
    by_contra unread
    simp [marked,unread] at ends
  have line : EndsMethod l.text := (Mark.endsIff _).mp (by simpa [markedRead reads] using ends)
  have shut : ∀ r' : Reader, r'.bodyLine d l = r'.closeMethod d.bindLabels := by
    intro r'
    rw [Reader.bodyLine,line.unlabelled]
    dsimp only
    rw [line]
    rfl
  unfold Reader.step
  cases mode : r.mode with
  | plain =>
    show r.plainLine l = _
    rw [Reader.plainLine,draft]
    dsimp only
    rw [shut,closeMethodDraft,mode]
  | peeking stop =>
    dsimp only
    rw [line.unannotated,if_neg (by decide),Reader.plainLine]
    dsimp only
    rw [draft]
    dsimp only
    rw [shut,closeMethodDraft]
  | skipping stop =>
    rw [mode] at reads
    contradiction
  | payload names p =>
    rw [mode] at reads
    contradiction

theorem shutDraft {r : Reader} {d : Draft} (draft : r.draft = some d) (last : Nat) (faults : Array ReadFault) :
    (r.shut last).run faults =
      (Reader.closeMethod ⟨r.classes,none,r.mode⟩ d).run (faults.push ⟨last,.methodEnd d.method.name⟩) := by
  rw [← closeMethodDraft,shut,draft]
  rfl

theorem closeDraft {r : Reader} {d : Draft} (draft : r.draft = some d) (last : Nat)
    (faults : Array ReadFault) :
    ∃ e mode faults', d.Alike e ∧ e.method = d.method ∧
      (r.close last).run faults = (Reader.closeMethod ⟨r.classes,none,mode⟩ e).run faults' := by
  have plain : ∃ e mode faults', d.Alike e ∧ e.method = d.method ∧
      (r.shut last).run faults = (Reader.closeMethod ⟨r.classes,none,mode⟩ e).run faults' :=
    ⟨d,_,_,⟨rfl,rfl,rfl⟩,rfl,shutDraft draft last faults⟩
  unfold Reader.close
  cases r.mode with
  | payload names p =>
    have closed : (r.closePayload names p).draft = some (d.addPayload names p) := by
      rw [closePayload,draft]
      rfl
    exact ⟨d.addPayload names p,.plain,_,⟨rfl,rfl,rfl⟩,rfl,shutDraft closed last _⟩
  | plain => exact plain
  | skipping stop => exact plain
  | peeking stop => exact plain

end Reader

theorem Body.reads (b : Body) (cs : List Class) (m : Method) (last : Nat) (faults : Array ReadFault) :
    ∃ e mode faults', b.Binds e ∧ e.method = m ∧
      (b.read ⟨cs,some { method := m },.plain⟩ last).run faults =
        (Reader.closeMethod ⟨cs,none,mode⟩ e).run faults' := by
  have reading := (Reader.Reading.start cs m).steps b.inner faults
  unfold Body.read
  simp only [StateT.run_bind]
  generalize (Reader.steps ⟨cs,some { method := m },.plain⟩ b.lines).run faults = parts at reading ⊢
  obtain ⟨r,faults'⟩ := parts
  obtain ⟨⟨classes,method,pending⟩,d,draft,follows⟩ := reading
  dsimp only at classes method pending draft
  have same : d.method = m := by
    rw [draft] at method
    exact Option.some.inj method
  show ∃ e mode faults'', b.Binds e ∧ e.method = m ∧
    (match b.stop with
      | some l => r.step l
      | none => r.close last).run faults' = _
  cases stop : b.stop with
  | some l =>
    refine ⟨d.bindLabels,.plain,faults',Body.bindsOfEnd follows (by simp [stop]),same,?_⟩
    rw [← classes]
    exact congrArg (·.run faults') (Reader.stepEnd draft (pending ▸ b.ends l stop))
  | none =>
    obtain ⟨e,mode,faults'',alike,kept,closed⟩ := Reader.closeDraft draft last faults'
    have binds := Body.bindsOfText follows (by simp [stop])
    refine ⟨e,mode,faults'',⟨alike.placed ▸ binds.placed,alike.labels ▸ binds.labels⟩,kept.trans same,?_⟩
    rw [← classes]
    exact closed

theorem lookupMem {n : String} {o : Int} {ls : List (String × Int)} (found : ls.lookup n = some o) :
    (n,o) ∈ ls := by
  obtain ⟨before,after,parts,-⟩ := List.lookup_eq_some_iff.mp found
  simp [parts]

theorem Body.Binds.lookup {b : Body} {e : Draft} (binds : b.Binds e) {n : String} {xs ys : List Mark}
    (parts : b.marks = xs ++ .label n :: ys) (before : .label n ∉ xs) (behind : .label n ∉ ys) :
    e.labels.lookup n = if b.binds ys then some (widthOf xs) else none := by
  have once : ∀ o, (n,o) ∈ e.labels ↔ widthOf xs = o ∧ b.binds ys = true := by
    intro o
    rw [binds.labels]
    constructor
    · intro ⟨xs',ys',parts',width,bound⟩
      obtain ⟨rfl,-,rfl⟩ := (List.append_cons_inj_of_notMem before behind).mp (parts.symm.trans parts')
      exact ⟨width,bound⟩
    · intro ⟨width,bound⟩
      exact ⟨xs,ys,parts,width,bound⟩
  cases found : e.labels.lookup n with
  | some o =>
    obtain ⟨width,bound⟩ := (once o).mp (lookupMem found)
    rw [if_pos bound,width]
  | none =>
    rw [if_neg]
    intro bound
    have absent := List.lookup_eq_none_iff.mp found _ ((once _).mpr ⟨rfl,bound⟩)
    simp at absent

/-! ### Labels of operands -/

namespace Scope

variable (s : Scope)

def known (text : String) : Int := (s.labels.lookup (stripStart ":" text)).getD 0

theorem labelGives (line : Nat) (text : String) : Gives (s.label line text) (· = s.known text) := by
  unfold label known
  dsimp only
  cases s.labels.lookup (stripStart ":" text) with
  | none => exact .after fun _ => .pure rfl
  | some o => exact .pure rfl

theorem labelAllGives (line : Nat) (texts : List String) :
    Gives (s.labelAll line texts) (· = texts.map s.known) := by
  induction texts with
  | nil => exact .pure rfl
  | cons text texts ih =>
    refine (s.labelGives line text).bind fun o known => ih.bind fun os all => .pure ?_
    rw [known,all,List.map_cons]

theorem labelQuiet (line : Nat) {text : String} {o : Int} (found : s.labels.lookup (stripStart ":" text) = some o) :
    s.label line text = pure o := by
  unfold label
  dsimp only
  rw [found]

def aims (p : Placed) : List String :=
  let table kind := match s.payload? kind (stripStart ":" (p.operands[1]?.getD "")) with
    | some t => t.labels
    | none => []
  match p.inst.family with
  | .goto => p.operands.take 1
  | .ifZero => (p.operands.drop 1).take 1
  | .ifTest => (p.operands.drop 2).take 1
  | .packedSwitch => if p.operands.length < 2 then [] else table .packedSwitch
  | .sparseSwitch => if p.operands.length < 2 then [] else table .sparseSwitch
  | _ => []

def directive? (c : CatchLine) : Option CatchDirective := do
  let start ← s.labels.lookup c.start
  let stop ← s.labels.lookup c.stop
  let handler ← s.labels.lookup c.handler
  some ⟨start,stop,c.type,handler⟩

theorem catchesQuiet {c : CatchLine} {d : CatchDirective} (made : s.directive? c = some d) (cs : List CatchLine) :
    s.catches (c :: cs) = (do
      let ds ← s.catches cs
      pure (d :: ds)) := by
  simp only [directive?,Option.bind_eq_bind,Option.bind_eq_some_iff] at made
  obtain ⟨start,first,stop,second,handler,third,same⟩ := made
  cases same
  rw [catches,first,second,third]

theorem catchesGives (cs : List CatchLine) : Gives (s.catches cs) (· = cs.filterMap s.directive?) := by
  induction cs with
  | nil => exact .pure rfl
  | cons c cs ih =>
    unfold catches
    split
    · rename_i start stop handler found found' found''
      refine ih.bind fun ds all => .pure ?_
      simp [directive?,found,found',found'',all]
    · rename_i unbound
      refine .after fun _ => ih.mono fun ds all => ?_
      have none : s.directive? c = none := by
        by_contra some
        obtain ⟨d,made⟩ := Option.ne_none_iff_exists'.mp some
        simp only [directive?,Option.bind_eq_bind,Option.bind_eq_some_iff] at made
        obtain ⟨start,first,stop,second,handler,third,-⟩ := made
        exact unbound _ _ _ first second third
      simp [none,all]

structure Decoded (p : Placed) (j : Instruction) : Prop where
  offset : j.offset = p.inst.offset
  width : j.width = p.inst.width
  family : j.family = p.inst.family
  targets : j.targets = (s.aims p).map s.known ∨ s.aims p = [] ∧ ∀ t ∈ j.targets, t = 0

structure Fresh (i j : Instruction) : Prop where
  offset : j.offset = i.offset
  width : j.width = i.width
  family : j.family = i.family
  target : j.target = 0
  switch : j.switch = none

variable {s} {p : Placed} {i j : Instruction}

theorem leadingFresh (fresh : Fresh i i) (n : Nat) (ops : List String) :
    Gives (s.leading i n ops) fun r => Fresh i r.1 ∧ r.2 = ops.drop n := by
  unfold leading
  split
  · rename_i few
    exact .after fun _ => .pure ⟨fresh,(List.drop_eq_nil_of_le (Nat.le_of_lt few)).symm⟩
  · exact .after fun rs => .pure ⟨⟨rfl,rfl,rfl,fresh.target,fresh.switch⟩,rfl⟩

theorem listedFresh (fresh : Fresh i i) (ops : List String) : Gives (s.listed i ops) (Fresh i) := by
  unfold listed
  split
  · exact .after fun _ => .pure fresh
  · split
    · exact .after fun _ => .pure fresh
    · exact .after fun rs => .pure ⟨rfl,rfl,rfl,fresh.target,fresh.switch⟩

def straight : Family → Bool
  | .goto | .ifTest | .ifZero | .packedSwitch | .sparseSwitch => false
  | _ => true

theorem decodedStraight (kept : Fresh p.inst j) (goes : straight p.inst.family = true) : s.Decoded p j := by
  refine ⟨kept.offset,kept.width,kept.family,.inr ?_⟩
  unfold aims Instruction.targets
  rw [kept.family]
  cases family : p.inst.family <;> rw [family] at goes <;> simp_all [straight]

theorem switchTableDecoded (fresh : Fresh p.inst j) {kind : PayloadKind}
    (switches : p.inst.family = .packedSwitch ∧ kind = .packedSwitch ∨
      p.inst.family = .sparseSwitch ∧ kind = .sparseSwitch) {name : String} (named : p.operands[1]? = some name)
    (payload : j.payload = stripStart ":" name) : Gives (s.switchTable j kind) (s.Decoded p) := by
  have many : ¬ p.operands.length < 2 := by
    have few := (List.getElem?_eq_some_iff.mp named).1
    omega
  have table : s.aims p = match s.payload? kind j.payload with
      | some t => t.labels
      | none => [] := by
    unfold aims
    rcases switches with ⟨family,rfl⟩ | ⟨family,rfl⟩ <;> simp [family,named,payload,many]
  unfold switchTable
  cases found : s.payload? kind j.payload with
  | none =>
    rw [found] at table
    refine .after fun _ => .pure ⟨fresh.offset,fresh.width,fresh.family,.inr ⟨table,?_⟩⟩
    unfold Instruction.targets
    rw [fresh.family]
    rcases switches with ⟨family,-⟩ | ⟨family,-⟩ <;> simp [family,fresh.switch]
  | some t =>
    rw [found] at table
    refine (s.labelAllGives t.line t.labels).bind fun os all => .pure ?_
    refine ⟨fresh.offset,fresh.width,fresh.family,.inl ?_⟩
    unfold Instruction.targets
    dsimp only
    rw [fresh.family,table,← all]
    rcases switches with ⟨family,-⟩ | ⟨family,-⟩ <;> simp [family]

theorem operandDecoded (fresh : Fresh p.inst p.inst) {n : Nat} {next : Instruction × List String → Noting Instruction}
    (absent : ∀ j, Fresh p.inst j → p.operands.drop n = [] → Gives (next (j,[])) (s.Decoded p))
    (present : ∀ j o os, Fresh p.inst j → p.operands.drop n = o :: os →
      Gives (next (j,o :: os)) (s.Decoded p)) :
    Gives (s.leading p.inst n p.operands >>= next) (s.Decoded p) := by
  refine (leadingFresh fresh n p.operands).bind fun ⟨j,rest⟩ led => ?_
  obtain ⟨kept,same⟩ := led
  dsimp only at kept same
  cases rest with
  | nil => exact absent j kept same.symm
  | cons o os => exact present j o os kept same.symm

theorem branchDecoded {n : Nat} {o : String} {os : List String} (kept : Fresh p.inst j)
    (rest : p.operands.drop n = o :: os) (aims : s.aims p = (p.operands.drop n).take 1)
    (branches : ∀ i : Instruction, i.family = p.inst.family → i.targets = [i.target]) {line : Nat} :
    Gives (do pure { j with target := ← s.label line o }) (s.Decoded p) := by
  refine (s.labelGives line o).bind fun t known => .pure ⟨kept.offset,kept.width,kept.family,.inl ?_⟩
  rw [branches { j with target := t } kept.family,aims,rest,known]
  rfl

theorem branchUndecoded {n : Nat} (kept : Fresh p.inst j) (rest : p.operands.drop n = [])
    (aims : s.aims p = (p.operands.drop n).take 1)
    (branches : ∀ i : Instruction, i.family = p.inst.family → i.targets = [i.target]) : s.Decoded p j := by
  refine ⟨kept.offset,kept.width,kept.family,.inr ⟨by rw [aims,rest]; rfl,?_⟩⟩
  rw [branches j kept.family]
  simp [kept.target]

theorem decodeDecoded (fresh : Fresh p.inst p.inst) : Gives (s.decode p) (s.Decoded p) := by
  have alone : ∀ n, straight p.inst.family = true →
      Gives (do return (← s.leading p.inst n p.operands).1) (s.Decoded p) := fun n goes =>
    operandDecoded fresh (fun _ kept _ => .pure (decodedStraight kept goes)) fun _ _ _ kept _ =>
      .pure (decodedStraight kept goes)
  have branches : ∀ family : Family, family = .goto ∨ family = .ifTest ∨ family = .ifZero →
      ∀ i : Instruction, i.family = family → i.targets = [i.target] := by
    rintro family (rfl | rfl | rfl) i same <;> simp [Instruction.targets,same]
  unfold decode
  dsimp only
  split
  case h_1 family | h_2 family | h_3 family => exact .pure (decodedStraight fresh (by rw [family]; rfl))
  case h_4 family | h_5 family | h_6 family | h_7 family | h_8 family | h_9 family =>
    exact alone 1 (by rw [family]; rfl)
  case h_10 family | h_11 family | h_12 family | h_13 family => exact alone 2 (by rw [family]; rfl)
  case h_14 family | h_15 family | h_16 family => exact alone 3 (by rw [family]; rfl)
  case h_17 family => exact alone _ (by rw [family]; rfl)
  case h_18 family | h_19 family | h_20 family =>
    refine operandDecoded fresh (fun j kept _ => .pure (decodedStraight kept (by rw [family]; rfl))) ?_
    intro j o os kept _
    exact .after fun v => .pure (decodedStraight ⟨kept.offset,kept.width,kept.family,kept.target,kept.switch⟩
      (by rw [family]; rfl))
  case h_21 family =>
    refine operandDecoded fresh (fun j kept _ => .pure (decodedStraight kept (by rw [family]; rfl))) ?_
    intro j o os kept _
    dsimp only
    split
    · exact .pure (decodedStraight ⟨kept.offset,kept.width,kept.family,kept.target,kept.switch⟩
        (by rw [family]; rfl))
    · exact .after fun _ => .pure (decodedStraight kept (by rw [family]; rfl))
  case h_22 family | h_23 family | h_24 family | h_25 family | h_26 family =>
    refine operandDecoded fresh (fun j kept _ => .pure (decodedStraight kept (by rw [family]; rfl))) ?_
    intro j o os kept _
    exact .pure (decodedStraight ⟨kept.offset,kept.width,kept.family,kept.target,kept.switch⟩
      (by rw [family]; rfl))
  case h_27 family =>
    refine (listedFresh fresh p.operands).bind fun j kept => ?_
    split
    · exact .pure (decodedStraight ⟨kept.offset,kept.width,kept.family,kept.target,kept.switch⟩
        (by rw [family]; rfl))
    · exact .pure (decodedStraight kept (by rw [family]; rfl))
  case h_28 family =>
    refine operandDecoded fresh (fun j kept _ => .pure (decodedStraight kept (by rw [family]; rfl))) ?_
    intro j o os kept _
    dsimp only
    split
    · exact .pure (decodedStraight ⟨kept.offset,kept.width,kept.family,kept.target,kept.switch⟩
        (by rw [family]; rfl))
    · exact .after fun _ => .pure (decodedStraight
        ⟨kept.offset,kept.width,kept.family,kept.target,kept.switch⟩ (by rw [family]; rfl))
  case h_29 family =>
    have aims : s.aims p = (p.operands.drop 0).take 1 := by simp [aims,family]
    have leads := branches _ (.inl family)
    split
    · rename_i none
      exact .after fun _ => .pure (branchUndecoded (n := 0) fresh none aims leads)
    · rename_i o os some
      exact branchDecoded (n := 0) fresh some aims leads
  case h_30 family =>
    have aims : s.aims p = (p.operands.drop 2).take 1 := by simp [aims,family]
    have leads := branches _ (.inr (.inl family))
    exact operandDecoded fresh (fun j kept none => .pure (branchUndecoded kept none aims leads))
      fun j o os kept some => branchDecoded kept some aims leads
  case h_31 family =>
    have aims : s.aims p = (p.operands.drop 1).take 1 := by simp [aims,family]
    have leads := branches _ (.inr (.inr family))
    exact operandDecoded fresh (fun j kept none => .pure (branchUndecoded kept none aims leads))
      fun j o os kept some => branchDecoded kept some aims leads
  case h_32 family | h_33 family =>
    refine operandDecoded fresh (fun j kept none => .pure ⟨kept.offset,kept.width,kept.family,.inr ⟨?_,?_⟩⟩) ?_
    · have few : p.operands.length < 2 := Nat.lt_succ_of_le (List.drop_eq_nil_iff.mp none)
      simp [aims,family,few]
    · simp [Instruction.targets,kept.family,family,kept.switch]
    · intro j o os kept some
      have named : p.operands[1]? = .some o := by
        have head := congrArg (·[0]?) some
        simpa using head
      have led : Fresh p.inst { j with payload := stripStart ":" o } :=
        ⟨kept.offset,kept.width,kept.family,kept.target,kept.switch⟩
      refine switchTableDecoded led ?_ named rfl
      simp [family]
  case h_34 family | h_35 family | h_36 family | h_37 family =>
    refine operandDecoded fresh (fun j kept _ => .pure (decodedStraight kept (by rw [family]; rfl))) ?_
    intro j o os kept _
    exact .after fun f => .pure (decodedStraight ⟨kept.offset,kept.width,kept.family,kept.target,kept.switch⟩
      (by rw [family]; rfl))
  case h_38 family =>
    refine (listedFresh fresh p.operands).bind fun j kept => ?_
    split
    · exact .pure (decodedStraight kept (by rw [family]; rfl))
    · refine .after fun m => ?_
      cases m with
      | none => exact .pure (decodedStraight kept (by rw [family]; rfl))
      | some m => exact .pure (decodedStraight
          ⟨kept.offset,kept.width,kept.family,kept.target,kept.switch⟩ (by rw [family]; rfl))

theorem decodeAllDecoded {ps : List Placed} (fresh : ∀ p ∈ ps, Fresh p.inst p.inst) :
    Gives (s.decodeAll ps) (List.Forall₂ s.Decoded ps) := by
  induction ps with
  | nil => exact .pure .nil
  | cons p ps ih =>
    obtain ⟨first,later⟩ := List.forall_mem_cons.mp fresh
    exact (decodeDecoded first).bind fun j decoded => (ih later).bind fun js all => .pure (.cons decoded all)

theorem decodedOf {ps : List Placed} {code : List Instruction} (decoded : List.Forall₂ s.Decoded ps code)
    (member : i ∈ code) : ∃ p, s.Decoded p i := by
  induction decoded with
  | nil => exact nomatch member
  | cons first _ ih =>
    rcases List.mem_cons.mp member with same | later
    · exact ⟨_,same ▸ first⟩
    · exact ih later

end Scope

/-! ### Methods -/

def Draft.scope (d : Draft) : Scope where
  registers := d.registerCount
  ins := d.method.ins
  labels := d.labels
  payloads := d.payloads

theorem Mark.ofHeadFresh {head rest : String} {i : Instruction} {ops : List String}
    (mark : Mark.ofHead head rest = .inst i ops) : i.target = 0 ∧ i.switch = none := by
  unfold Mark.ofHead Mnemonic.template? at mark
  generalize Mnemonic.shape? head = shape at mark
  split at mark
  · exact nomatch mark
  · split at mark
    · exact nomatch mark
    · cases shape with
      | none => exact nomatch mark
      | some s =>
        cases mark
        exact ⟨rfl,rfl⟩

theorem marksFresh {w : Pending} {texts : List String} {i : Instruction} {ops : List String}
    (member : .inst i ops ∈ marks w texts) : i.target = 0 ∧ i.switch = none := by
  induction texts generalizing w with
  | nil => exact nomatch member
  | cons text texts ih =>
    rcases List.mem_append.mp member with here | later
    · unfold marked at here
      split at here
      · have same := List.mem_singleton.mp here
        unfold Mark.of at same
        split at same
        · exact nomatch same
        · split at same
          · exact nomatch same
          · exact Mark.ofHeadFresh same.symm
      · exact nomatch here
    · exact ih later

theorem layOutFresh {ms : List Mark} (fresh : ∀ i ops, .inst i ops ∈ ms → i.target = 0 ∧ i.switch = none) (o : Int) :
    ∀ p ∈ layOut o ms, p.inst.target = 0 ∧ p.inst.switch = none := by
  induction ms generalizing o with
  | nil => simp [layOut]
  | cons k ms ih =>
    have later := ih fun i ops member => fresh i ops (List.mem_cons_of_mem _ member)
    cases k with
    | inst i ops => exact List.forall_mem_cons.mpr ⟨fresh i ops (List.mem_cons_self ..),later _⟩
    | _ => exact later o

theorem layOutOffset {ms : List Mark} {o : Int} {k : Nat} {p : Placed} (at_ : (layOut o ms)[k]? = some p) :
    p.inst.offset = o + (((layOut o ms).take k).map (·.inst.width)).sum := by
  induction ms generalizing o k with
  | nil => exact nomatch at_
  | cons m ms ih =>
    cases m with
    | inst i ops =>
      cases k with
      | zero =>
        cases at_
        simp
      | succ k => simp [layOut,ih at_,Int.add_assoc]
    | _ => exact ih at_

theorem layOutWidth (ms : List Mark) (o : Int) : ((layOut o ms).map (·.inst.width)).sum = widthOf ms := by
  induction ms generalizing o with
  | nil => rfl
  | cons k ms ih => cases k <;> simp [layOut,ih,widthOf,Mark.width]

namespace Body

variable {b : Body} {e : Draft}

theorem Binds.fresh (binds : b.Binds e) : ∀ p ∈ e.placed.reverse, Scope.Fresh p.inst p.inst := by
  intro p member
  have bare : p.bare ∈ layOut 0 b.marks := binds.placed ▸ List.mem_map_of_mem member
  obtain ⟨target,switch⟩ := layOutFresh (fun i ops member => marksFresh member) 0 _ bare
  exact ⟨rfl,rfl,rfl,target,switch⟩

def Lands (code : List Instruction) (o : Int) : Prop :=
  (∃ i ∈ code, i.offset = o) ∨ o = (code.map (·.width)).sum

theorem Binds.laid (binds : b.Binds e) {code : List Instruction}
    (decoded : List.Forall₂ e.scope.Decoded e.placed.reverse code) :
    code.map (·.offset) = (layOut 0 b.marks).map (·.inst.offset) ∧
      code.map (·.width) = (layOut 0 b.marks).map (·.inst.width) := by
  rw [← binds.placed]
  generalize e.placed.reverse = ps at decoded
  induction decoded with
  | nil => exact ⟨rfl,rfl⟩
  | cons first _ ih => simp [first.offset,first.width,ih.1,ih.2,Placed.bare]

theorem Binds.lands (binds : b.Binds e) {code : List Instruction}
    (decoded : List.Forall₂ e.scope.Decoded e.placed.reverse code) {n : String} {o : Int}
    (found : e.labels.lookup n = some o) : Lands code o := by
  obtain ⟨offsets,widths⟩ := binds.laid decoded
  obtain ⟨xs,ys,parts,width,-⟩ := (binds.labels n o).mp (lookupMem found)
  have stands : Stands n b.marks o _ := ⟨xs,ys,parts,width,rfl⟩
  rcases stands.placed with here | last
  · rw [← offsets] at here
    exact .inl (List.mem_map.mp here)
  · rw [← layOutWidth b.marks 0,← widths] at last
    exact .inr last

theorem Binds.landsFront (binds : b.Binds e) {code : List Instruction}
    (decoded : List.Forall₂ e.scope.Decoded e.placed.reverse code) : Lands code 0 := by
  obtain ⟨offsets,-⟩ := binds.laid decoded
  cases code with
  | nil => exact .inr rfl
  | cons i code =>
    have first := congrArg (·[0]?) offsets
    simp only [List.map_cons,List.getElem?_cons_zero,List.getElem?_map] at first
    obtain ⟨p,front,same⟩ := Option.map_eq_some_iff.mp first.symm
    have zero := layOutOffset front
    simp only [List.take_zero,List.map_nil,List.sum_nil,Int.add_zero] at zero
    exact .inl ⟨i,List.mem_cons_self ..,same.symm.trans zero⟩

theorem Binds.offsets (binds : b.Binds e) {code : List Instruction}
    (decoded : List.Forall₂ e.scope.Decoded e.placed.reverse code) {k : Nat} {i : Instruction}
    (at_ : code[k]? = some i) : i.offset = ((code.take k).map (·.width)).sum := by
  obtain ⟨offsets,widths⟩ := binds.laid decoded
  have place := congrArg (·[k]?) offsets
  simp only [List.getElem?_map,at_,Option.map_some] at place
  obtain ⟨p,front,same⟩ := Option.map_eq_some_iff.mp place.symm
  rw [← same,layOutOffset front,Int.zero_add,List.map_take,List.map_take,widths]

structure Settled (e : Draft) (m : Method) : Prop where
  code : List.Forall₂ e.scope.Decoded e.placed.reverse m.code
  tries : m.tries = TryTable.normalize (e.catches.reverse.filterMap e.scope.directive?)
  overlaps : m.overlaps = TryTable.partialOverlaps (e.catches.reverse.filterMap e.scope.directive?)
  offsets : ∀ k i, m.code[k]? = some i → i.offset = ((m.code.take k).map (·.width)).sum
  targets : ∀ i ∈ m.code, ∀ t ∈ i.targets, Lands m.code t
  catches : ∀ c ∈ e.catches.reverse.filterMap e.scope.directive?,
    Lands m.code c.start ∧ Lands m.code c.stop ∧ Lands m.code c.handler

theorem Binds.settles (binds : b.Binds e) : Gives e.finish (Settled e) := by
  have known : ∀ {code : List Instruction}, List.Forall₂ e.scope.Decoded e.placed.reverse code →
      ∀ text, Lands code (e.scope.known text) := by
    intro code decoded text
    unfold Scope.known
    cases found : e.scope.labels.lookup (stripStart ":" text) with
    | none => exact binds.landsFront decoded
    | some o => exact binds.lands decoded found
  refine (Scope.decodeAllDecoded (s := e.scope) binds.fresh).bind fun code decoded =>
    (e.scope.catchesGives e.catches.reverse).bind fun ds all => .pure ?_
  refine ⟨decoded,by rw [← all],by rw [← all],fun k i at_ => binds.offsets decoded at_,?_,?_⟩
  · intro i member t aim
    obtain ⟨p,leads⟩ := Scope.decodedOf decoded member
    obtain targets | ⟨-,zero⟩ := leads.targets
    · rw [targets] at aim
      obtain ⟨text,-,rfl⟩ := List.mem_map.mp aim
      exact known decoded text
    · rw [zero t aim]
      exact binds.landsFront decoded
  · intro c member
    obtain ⟨line,-,made⟩ := List.mem_filterMap.mp member
    simp only [Scope.directive?,Option.bind_eq_bind,Option.bind_eq_some_iff] at made
    obtain ⟨start,first,stop,second,handler,third,same⟩ := made
    cases same
    exact ⟨binds.lands decoded first,binds.lands decoded second,binds.lands decoded third⟩

/-- A label that stands once in a body denotes the code in front of it, and is found without a fault, just when an
instruction or the end line comes behind it before any payload. All code lies in one piece from zero on, and
every label that is found leads to an instruction or to the end of the code. -/
theorem labelsDenote (b : Body) (cs : List Class) (m : Method) (last : Nat) (faults : Array ReadFault) :
    ∃ e mode faults', e.method = m ∧
      (b.read ⟨cs,some { method := m },.plain⟩ last).run faults =
        (Reader.closeMethod ⟨cs,none,mode⟩ e).run faults' ∧
      e.placed.reverse.map Placed.bare = layOut 0 b.marks ∧
      (∀ n xs ys, b.marks = xs ++ .label n :: ys → .label n ∉ xs → .label n ∉ ys →
        e.labels.lookup n = if b.binds ys then some (widthOf xs) else none) ∧
      (∀ line text o, e.labels.lookup (stripStart ":" text) = some o → e.scope.label line text = pure o) ∧
      (∀ c d rest, e.scope.directive? c = some d →
        e.scope.catches (c :: rest) = (do
          let ds ← e.scope.catches rest
          pure (d :: ds))) ∧
      Gives e.finish (Settled e) := by
  obtain ⟨e,mode,faults',binds,method,read⟩ := b.reads cs m last faults
  exact ⟨e,mode,faults',method,read,binds.placed,fun n xs ys => binds.lookup,
    fun line text o => e.scope.labelQuiet line,fun c d rest made => e.scope.catchesQuiet made rest,binds.settles⟩

def tabledTexts : List String :=
  [":a","nop",":b",":table",".packed-switch 0",":a",".end packed-switch","return-void",":end"]

theorem tabledMarks : Assembly.marks .nothing tabledTexts =
    [.label "a",.inst { mnemonic := "nop" } [],.label "b",.label "table",.payload,
      .inst { family := .returnVoid, type := "V", mnemonic := "return-void" } [],.label "end"] := by
  decide +kernel

def tabled : Body where
  lines := unnumbered tabledTexts
  stop := some ⟨0,".end method"⟩
  inner := by simp [textsUnnumbered,tabledMarks]
  ends := by
    intro l same
    cases same
    decide +kernel

theorem labelsDenoteTabled : ∃ e : Draft, e.labels.lookup "a" = some 0 ∧ e.labels.lookup "b" = none ∧
    e.labels.lookup "end" = some 2 := by
  obtain ⟨e,-,-,-,-,-,denotes,-⟩ := labelsDenote tabled [] default 0 #[]
  have whole : tabled.marks = _ := (congrArg _ (textsUnnumbered tabledTexts)).trans tabledMarks
  have first := denotes "a" [] _ whole (by simp) (by simp)
  have second := denotes "b" [_,_] _ whole (by simp) (by simp)
  have third := denotes "end" [_,_,_,_,_,_] _ whole (by simp) (by simp)
  exact ⟨e,first,second,third⟩

end Body

end RegCode.Assembly
