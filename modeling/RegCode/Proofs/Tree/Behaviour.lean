import RegCode.Tree
import Mathlib.Data.List.Basic

/-! How structured code runs, part by part. A run begins at the top or at a label inside, tests and switches turn
out in any way, and anything may raise; what it does is a list of events. Code that runs in the same ways does the
same wherever it stands. -/
namespace RegCode

namespace Behaviour

inductive Entry where
  | top
  | inside (label : String)

inductive Event where
  | stmt (node : Int) (s : Stmt)
  | test (node : Int) (cond : Option Test) (holds : Bool)
  | value (node : Int) (of : Option Expr) (n : Int)
  | caught (head : CatchHead)

inductive Exit where
  | through
  | returned
  | raised
  | broken (target : String)
  | continued (target : String)
  | jumped (target : String)
  | underway
  deriving DecidableEq

namespace Exit

def breaks (label : String) : Exit → Bool
  | broken t => t = "" ∨ t = label
  | _ => false

def again (label : String) : Exit → Bool
  | through => true
  | continued t => t = "" ∨ t = label
  | _ => false

def after (f e : Exit) : Exit := if f = through then e else f

end Exit

end Behaviour

abbrev Behaviour := Behaviour.Entry → List Behaviour.Event → Behaviour.Exit → Prop

namespace Behaviour

def leave (e : Exit) : Behaviour := fun w es f => w = .top ∧ es = [] ∧ (f = e ∨ f = .underway)

def named (label : String) (d : Behaviour) : Behaviour := fun w es e =>
  d w es e ∨ label ≠ "" ∧ w = .inside label ∧ d .top es e

inductive Straight (node : Int) : List Stmt → List Event → Exit → Prop
  | rest (ss : List Stmt) : Straight node ss [] .underway
  | done : Straight node [] [] .through
  | raises (s : Stmt) (ss : List Stmt) : Straight node (s :: ss) [.stmt node s] .raised
  | returns {s : Stmt} {x : Option Expr} (act : s.act = .ret x) (ss : List Stmt) :
    Straight node (s :: ss) [.stmt node s] .returned
  | next {s : Stmt} {ss : List Stmt} {es : List Event} {e : Exit} (stays : Tree.endsInExit [s] = false)
    (later : Straight node ss es e) : Straight node (s :: ss) (.stmt node s :: es) e

inductive Seq (first rest : Behaviour) : Behaviour
  | stops {w : Entry} {es : List Event} {e : Exit} (run : first w es e) (other : e ≠ .through) :
    Seq first rest w es e
  | goes {w : Entry} {es fs : List Event} {f : Exit} (run : first w es .through) (later : rest .top fs f) :
    Seq first rest w (es ++ fs) f
  | later {k : String} {es : List Event} {e : Exit} (run : rest (.inside k) es e) : Seq first rest (.inside k) es e

inductive Branches (node : Int) (cond : Test) (a b : Behaviour) : Behaviour
  | unasked : Branches node cond a b .top [] .underway
  | raises : Branches node cond a b .top [] .raised
  | onTrue {es : List Event} {e : Exit} (run : a .top es e) :
    Branches node cond a b .top (.test node (some cond) true :: es) e
  | onFalse {es : List Event} {e : Exit} (run : b .top es e) :
    Branches node cond a b .top (.test node (some cond) false :: es) e
  | inTrue {k : String} {es : List Event} {e : Exit} (run : a (.inside k) es e) :
    Branches node cond a b (.inside k) es e
  | inFalse {k : String} {es : List Event} {e : Exit} (run : b (.inside k) es e) :
    Branches node cond a b (.inside k) es e

inductive Stage where
  | asking
  | running (w : Entry)

namespace Stage

def start : LoopKind → Entry → Stage
  | .pretest, .top => asking
  | _, w => running w

def turn : LoopKind → Stage
  | .endless => running .top
  | _ => asking

end Stage

inductive Rounds (label : String) (kind : LoopKind) (node : Int) (cond : Option Test) (body : Behaviour) :
    Stage → List Event → Exit → Prop
  | unasked : Rounds label kind node cond body .asking [] .underway
  | raises : Rounds label kind node cond body .asking [] .raised
  | finishes : Rounds label kind node cond body .asking [.test node cond false] .through
  | round {es : List Event} {e : Exit} (later : Rounds label kind node cond body (.running .top) es e) :
    Rounds label kind node cond body .asking (.test node cond true :: es) e
  | again {w : Entry} {es fs : List Event} {e f : Exit} (run : body w es e) (again : e.again label = true)
    (later : Rounds label kind node cond body (.turn kind) fs f) :
    Rounds label kind node cond body (.running w) (es ++ fs) f
  | leaves {w : Entry} {es : List Event} {e : Exit} (run : body w es e) (breaks : e.breaks label = true) :
    Rounds label kind node cond body (.running w) es .through
  | ends {w : Entry} {es : List Event} {e : Exit} (run : body w es e) (other : e.again label = false)
    (stays : e.breaks label = false) : Rounds label kind node cond body (.running w) es e

def select {β : Type} (v : Int) (arms : List (ArmHead × β)) : List (ArmHead × β) :=
  match arms.dropWhile fun a => !a.1.keys.contains v with
  | [] => arms.dropWhile fun a => !a.1.isDefault
  | found => found

inductive Falls (label : String) : List Behaviour → Behaviour
  | waits : Falls label [] .top [] .underway
  | done : Falls label [] .top [] .through
  | falls {d : Behaviour} {ds : List Behaviour} {w : Entry} {es fs : List Event} {f : Exit} (run : d w es .through)
    (later : Falls label ds .top fs f) : Falls label (d :: ds) w (es ++ fs) f
  | leaves {d : Behaviour} {ds : List Behaviour} {w : Entry} {es : List Event} {e : Exit} (run : d w es e)
    (breaks : e.breaks label = true) : Falls label (d :: ds) w es .through
  | ends {d : Behaviour} {ds : List Behaviour} {w : Entry} {es : List Event} {e : Exit} (run : d w es e)
    (other : e ≠ .through) (stays : e.breaks label = false) : Falls label (d :: ds) w es e
  | later {d : Behaviour} {ds : List Behaviour} {k : String} {es : List Event} {e : Exit}
    (run : Falls label ds (.inside k) es e) : Falls label (d :: ds) (.inside k) es e

inductive Switches (label : String) (node : Int) (value : Option Expr) (arms : List (ArmHead × Behaviour)) :
    Behaviour
  | unasked : Switches label node value arms .top [] .underway
  | raises : Switches label node value arms .top [] .raised
  | selects {es : List Event} {e : Exit} (v : Int)
    (run : Falls label ((select v arms).map Prod.snd) .top es e) :
    Switches label node value arms .top (.value node value v :: es) e
  | within {k : String} {es : List Event} {e : Exit} (run : Falls label (arms.map Prod.snd) (.inside k) es e) :
    Switches label node value arms (.inside k) es e

inductive Guards (body : Behaviour) (catches : List (CatchHead × Behaviour)) : Behaviour
  | body {w : Entry} {es : List Event} {e : Exit} (run : body w es e) : Guards body catches w es e
  | caught {w : Entry} {es fs : List Event} {h : CatchHead} {d : Behaviour} {f : Exit} (run : body w es .raised)
    (clause : (h,d) ∈ catches) (later : d .top fs f) : Guards body catches w (es ++ .caught h :: fs) f
  | within {k : String} {es : List Event} {h : CatchHead} {d : Behaviour} {e : Exit} (clause : (h,d) ∈ catches)
    (run : d (.inside k) es e) : Guards body catches (.inside k) es e

def Knows (d : Behaviour) (k : String) : Prop := ∃ es e, d (.inside k) es e

/-- Jumps to labels inside are followed. -/
inductive Back (d : Behaviour) : Behaviour
  | ends {w : Entry} {es : List Event} {e : Exit} (run : d w es e) (away : ∀ k, e = .jumped k → ¬Knows d k) :
    Back d w es e
  | back {w : Entry} {es fs : List Event} {k : String} {f : Exit} (run : d w es (.jumped k))
    (later : Back d (.inside k) fs f) : Back d w (es ++ fs) f

inductive Cleans (guarded cleanup : Behaviour) : Behaviour
  | waits {w : Entry} {es : List Event} (run : guarded w es .underway) : Cleans guarded cleanup w es .underway
  | cleans {w : Entry} {es fs : List Event} {e f : Exit} (run : guarded w es e) (settled : e ≠ .underway)
    (clean : cleanup .top fs f) : Cleans guarded cleanup w (es ++ fs) (f.after e)
  | within {k : String} {es : List Event} {e : Exit} (clean : cleanup (.inside k) es e) (abrupt : e ≠ .through) :
    Cleans guarded cleanup (.inside k) es e
  | resumes {w : Entry} {k : String} {es fs : List Event} {e : Exit} (pending : guarded w es e)
    (settled : e ≠ .underway) (clean : cleanup (.inside k) fs .through) : Cleans guarded cleanup (.inside k) fs e

mutual

def ofTree : Tree String → Behaviour
  | .block l body => named l (ofCode body)
  | .stmts l n ss => named l fun w es e => w = .top ∧ Straight n ss es e
  | .branch l n c a none => named l (Branches n c (ofCode a) (leave .through))
  | .branch l n c a (some b) => named l (Branches n c (ofCode a) (ofCode b))
  | .loop l kind n _ c body => named l fun w => Rounds l kind n c (ofCode body) (.start kind w)
  | .switch l n v arms => named l (Switches l n v (ofArms arms))
  | .guarded l _ body cs none => named l (Guards (ofCode body) (ofCatches cs))
  | .guarded l _ body cs (some z) =>
    named l (Cleans (Back (Guards (ofCode body) (ofCatches cs))) (Back (ofCode z)))
  | .goto l t => named l (leave (.jumped t))
  | .breakTo l t => named l (leave (.broken t))
  | .continueTo l t => named l (leave (.continued t))

def ofCode : List (Tree String) → Behaviour
  | [] => leave .through
  | t :: ts => Seq (ofTree t) (ofCode ts)

def ofArms : List (ArmHead × List (Tree String)) → List (ArmHead × Behaviour)
  | [] => []
  | (h,body) :: rest => (h,ofCode body) :: ofArms rest

def ofCatches : List (CatchHead × List (Tree String)) → List (CatchHead × Behaviour)
  | [] => []
  | (h,body) :: rest => (h,ofCode body) :: ofCatches rest

end

/-- The runs of whole code, with its jumps. -/
def execution (ts : List (Tree String)) : Behaviour := Back (ofCode ts)

section

variable {a b c d : Behaviour} {label : String}

theorem seqAssoc : Seq (Seq a b) c = Seq a (Seq b c) := by
  funext w es e
  refine propext ⟨fun run => ?_,fun run => ?_⟩
  · cases run with
    | stops run other =>
      cases run with
      | stops run _ => exact .stops run other
      | goes run later => exact .goes run (.stops later other)
      | later run => exact .later (.stops run other)
    | goes run last =>
      cases run with
      | stops _ other => contradiction
      | goes run later =>
        rw [List.append_assoc]
        exact .goes run (.goes later last)
      | later run => exact .later (.goes run last)
    | later run => exact .later (.later run)
  · cases run with
    | stops run other => exact .stops (.stops run other) other
    | goes run later =>
      cases later with
      | stops later other => exact .stops (.goes run later) other
      | goes later last =>
        rw [← List.append_assoc]
        exact .goes (.goes run later) last
    | later run =>
      cases run with
      | stops run other => exact .stops (.later run) other
      | goes run last => exact .goes (.later run) last
      | later run => exact .later run

theorem seqEmpty (waits : d .top [] .underway) : Seq (leave .through) d = d := by
  funext w es e
  refine propext ⟨fun run => ?_,fun run => ?_⟩
  · cases run with
    | stops run other =>
      obtain ⟨rfl,rfl,rfl | rfl⟩ := run
      · contradiction
      · exact waits
    | goes run later =>
      obtain ⟨rfl,rfl,-⟩ := run
      exact later
    | later run => exact run
  · cases w with
    | top =>
      have nothing : leave .through .top [] .through := ⟨rfl,rfl,.inl rfl⟩
      exact Seq.goes nothing run
    | inside k => exact .later run

theorem seqNamed : Seq (named label d) c = named label (Seq d c) := by
  funext w es e
  refine propext ⟨fun run => ?_,fun run => ?_⟩
  · cases run with
    | stops run other =>
      rcases run with run | ⟨some,rfl,run⟩
      · exact .inl (.stops run other)
      · exact .inr ⟨some,rfl,.stops run other⟩
    | goes run later =>
      rcases run with run | ⟨some,rfl,run⟩
      · exact .inl (.goes run later)
      · exact .inr ⟨some,rfl,.goes run later⟩
    | later run => exact .inl (.later run)
  · rcases run with run | ⟨some,rfl,run⟩
    · cases run with
      | stops run other => exact .stops (.inl run) other
      | goes run later => exact .goes (.inl run) later
      | later run => exact .later run
    · cases run with
      | stops run other => exact .stops (.inr ⟨some,rfl,run⟩) other
      | goes run later => exact .goes (.inr ⟨some,rfl,run⟩) later

end

mutual

theorem waitsTree : (t : Tree String) → ofTree t .top [] .underway
  | .block _ body => .inl (waitsCode body)
  | .stmts _ _ ss => .inl ⟨rfl,.rest ss⟩
  | .branch _ _ _ _ none | .branch _ _ _ _ (some _) => .inl .unasked
  | .loop _ .pretest _ _ _ _ => .inl .unasked
  | .loop _ .posttest _ _ _ body | .loop _ .endless _ _ _ body => .inl (.ends (waitsCode body) rfl rfl)
  | .switch _ _ _ _ => .inl .unasked
  | .guarded _ _ body _ none => .inl (.body (waitsCode body))
  | .guarded _ _ body _ (some _) => .inl (.waits (.ends (.body (waitsCode body)) nofun))
  | .goto _ _ | .breakTo _ _ | .continueTo _ _ => .inl ⟨rfl,rfl,.inr rfl⟩

theorem waitsCode : (ts : List (Tree String)) → ofCode ts .top [] .underway
  | [] => ⟨rfl,rfl,.inr rfl⟩
  | t :: _ => .stops (waitsTree t) nofun

end

theorem codeAppend (ts us : List (Tree String)) : ofCode (ts ++ us) = Seq (ofCode ts) (ofCode us) := by
  induction ts with
  | nil => rw [List.nil_append,ofCode,seqEmpty (waitsCode us)]
  | cons t ts ih => rw [List.cons_append,ofCode,ofCode,ih,seqAssoc]

inductive Hole where
  | block (label : String)
  | onTrue (label : String) (node : Int) (cond : Test) (onFalse : Option (List (Tree String)))
  | onFalse (label : String) (node : Int) (cond : Test) (onTrue : List (Tree String))
  | loop (label : String) (kind : LoopKind) (node header : Int) (cond : Option Test)
  | arm (label : String) (node : Int) (value : Option Expr) (before : List (ArmHead × List (Tree String)))
    (head : ArmHead) (rest : List (ArmHead × List (Tree String)))
  | guarded (label : String) (region : RegionId) (catches : List (CatchHead × List (Tree String)))
    (cleanup : Option (List (Tree String)))
  | handler (label : String) (region : RegionId) (body : List (Tree String))
    (before : List (CatchHead × List (Tree String))) (head : CatchHead)
    (rest : List (CatchHead × List (Tree String))) (cleanup : Option (List (Tree String)))
  | cleanup (label : String) (region : RegionId) (body : List (Tree String))
    (catches : List (CatchHead × List (Tree String)))

namespace Hole

def fill (ts : List (Tree String)) : Hole → Tree String
  | block l => .block l ts
  | onTrue l n c b => .branch l n c ts b
  | onFalse l n c a => .branch l n c a (some ts)
  | loop l kind n h c => .loop l kind n h c ts
  | arm l n v before head rest => .switch l n v (before ++ (head,ts) :: rest)
  | guarded l r cs z => .guarded l r ts cs z
  | handler l r body before head rest z => .guarded l r body (before ++ (head,ts) :: rest) z
  | cleanup l r body cs => .guarded l r body cs (some ts)

end Hole

abbrev Surroundings := List (List (Tree String) × Hole × List (Tree String))

def surround (ts : List (Tree String)) : Surroundings → List (Tree String)
  | [] => ts
  | (before,hole,behind) :: outer => surround (before ++ hole.fill ts :: behind) outer

/-- Code that may stand for other code, wherever it stands. -/
def Alike (ts us : List (Tree String)) : Prop := ∀ (outer : Surroundings) (before behind : List (Tree String)),
  execution (surround (before ++ ts ++ behind) outer) = execution (surround (before ++ us ++ behind) outer)

variable {ts us : List (Tree String)}

theorem armsMap (arms : List (ArmHead × List (Tree String))) :
    ofArms arms = arms.map fun a => (a.1,ofCode a.2) := by
  induction arms with
  | nil => rfl
  | cons a arms ih => rw [ofArms,ih,List.map_cons]

theorem catchesMap (cs : List (CatchHead × List (Tree String))) :
    ofCatches cs = cs.map fun c => (c.1,ofCode c.2) := by
  induction cs with
  | nil => rfl
  | cons c cs ih => rw [ofCatches,ih,List.map_cons]

theorem fillSame (same : ofCode ts = ofCode us) (hole : Hole) : ofTree (hole.fill ts) = ofTree (hole.fill us) := by
  cases hole with
  | block | onFalse | loop | cleanup => simp only [Hole.fill,ofTree,same]
  | onTrue l n c b => cases b <;> simp only [Hole.fill,ofTree,same]
  | arm l n v before head rest => simp only [Hole.fill,ofTree,armsMap,List.map_append,List.map_cons,same]
  | guarded l r cs z => cases z <;> simp only [Hole.fill,ofTree,same]
  | handler l r body before head rest z =>
    cases z <;> simp only [Hole.fill,ofTree,catchesMap,List.map_append,List.map_cons,same]

theorem surroundSame (same : ofCode ts = ofCode us) (outer : Surroundings) :
    ofCode (surround ts outer) = ofCode (surround us outer) := by
  induction outer generalizing ts us with
  | nil => exact same
  | cons x outer ih =>
    obtain ⟨before,hole,behind⟩ := x
    refine ih ?_
    rw [codeAppend,codeAppend before,ofCode,ofCode,fillSame same]

theorem alike (same : ofCode ts = ofCode us) : Alike ts us := by
  intro outer before behind
  refine congrArg Back (surroundSame ?_ outer)
  rw [codeAppend,codeAppend,codeAppend (before ++ us),codeAppend before us,same]

theorem Alike.refl (ts : List (Tree String)) : Alike ts ts := fun _ _ _ => rfl

theorem Alike.symm (alike : Alike ts us) : Alike us ts := fun outer before behind => (alike outer before behind).symm

end Behaviour

end RegCode
