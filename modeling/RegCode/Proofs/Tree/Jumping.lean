import RegCode.Proofs.Recovery.Labels
import RegCode.Proofs.Recovery.Lines
import RegCode.Proofs.Tree.Behaviour

/-! Parts that end by jumping away are never followed by what stands behind them. A jump behind them need not be
written, and the rest of a branch may as well stand behind it. -/
namespace RegCode

namespace Behaviour

def Never (d : Behaviour) : Prop := ∀ w es, ¬d w es .through

section Never

variable {d a b : Behaviour} {label : String}

theorem neverLeave {e : Exit} (other : e ≠ .through) : Never (leave e) := by
  rintro w es ⟨-,-,rfl | none⟩
  · exact other rfl
  · contradiction

theorem neverNamed (never : Never d) : Never (named label d) := by
  rintro w es (run | ⟨-,-,run⟩)
  · exact never w es run
  · exact never .top es run

theorem neverStraight {node : Int} {ss : List Stmt} (exits : Tree.endsInExit ss = true) (es : List Event) :
    ¬Straight node ss es .through := by
  intro run
  generalize ended : Exit.through = e at run
  induction run with
  | done => contradiction
  | next stays _ ih =>
    refine ih ?_ ended
    rename_i s ss _ _ _
    cases ss with
    | nil => exact absurd exits (Bool.eq_false_iff.mp stays)
    | cons t ss => rwa [Tree.endsInExit,List.getLast?_cons_cons] at exits
  | _ => contradiction

theorem neverSeq (never : Never b) : Never (Seq a b) := by
  intro w es run
  cases run with
  | stops _ other => exact other rfl
  | goes _ later => exact never _ _ later
  | later run => exact never _ _ run

theorem neverLast (never : Never a) : Never (Seq a (leave .through)) := by
  intro w es run
  cases run with
  | stops _ other => exact other rfl
  | goes run _ => exact never _ _ run
  | later run => exact nomatch run.1

theorem neverBranches {node : Int} {cond : Test} (left : Never a) (right : Never b) :
    Never (Branches node cond a b) := by
  intro w es run
  cases run with
  | onTrue run | inTrue run => exact left _ _ run
  | onFalse run | inFalse run => exact right _ _ run

theorem neverGuards {catches : List (CatchHead × Behaviour)} (body : Never d)
    (clauses : ∀ x ∈ catches, Never x.2) : Never (Guards d catches) := by
  intro w es run
  cases run with
  | body run => exact body _ _ run
  | caught _ clause later => exact clauses _ clause _ _ later
  | within clause run => exact clauses _ clause _ _ run

theorem neverBack (never : Never d) : Never (Back d) := by
  intro w es run
  generalize ended : Exit.through = e at run
  induction run with
  | ends run _ => exact never _ _ (ended ▸ run)
  | back _ _ ih => exact ih ended

theorem neverCleans (never : Never a ∨ Never b) : Never (Cleans a b) := by
  intro w es run
  generalize ended : Exit.through = e at run
  cases run with
  | waits _ => contradiction
  | within _ abrupt => exact abrupt ended.symm
  | resumes pending _ clean =>
    rcases never with left | right
    · exact left _ _ (ended ▸ pending)
    · exact right _ _ clean
  | cleans run _ clean =>
    unfold Exit.after at ended
    split at ended
    · rename_i through
      rcases never with left | right
      · exact left _ _ (ended ▸ run)
      · exact right _ _ (through ▸ clean)
    · exact absurd ended.symm ‹_›

end Never

mutual

theorem neverJump : (t : Tree String) → t.isJump = true → Never (ofTree t)
  | .block _ body, jump => neverNamed (neverJumps body jump)
  | .stmts _ _ ss, jump => neverNamed fun _ es run => neverStraight jump es run.2
  | .branch _ _ _ a (some b), jump => by
    obtain ⟨left,right⟩ := Bool.and_eq_true_iff.mp jump
    exact neverNamed (neverBranches (neverJumps a left) (neverJumps b right))
  | .branch _ _ _ _ none, jump | .loop _ _ _ _ _ _, jump | .switch _ _ _ _, jump => Bool.noConfusion jump
  | .guarded _ _ body cs none, jump => by
    obtain ⟨inside,clauses⟩ := Bool.and_eq_true_iff.mp jump
    exact neverNamed (neverGuards (neverJumps body inside) (neverCatches cs clauses))
  | .guarded _ _ body cs (some z), jump => by
    refine neverNamed (neverCleans ?_)
    rcases Bool.or_eq_true_iff.mp jump with clean | guarded
    · exact .inr (neverBack (neverJumps z clean))
    · obtain ⟨inside,clauses⟩ := Bool.and_eq_true_iff.mp guarded
      exact .inl (neverBack (neverGuards (neverJumps body inside) (neverCatches cs clauses)))
  | .goto _ _, _ | .breakTo _ _, _ | .continueTo _ _, _ => neverNamed (neverLeave nofun)

theorem neverJumps : (ts : List (Tree String)) → Tree.endsInJump ts = true → Never (ofCode ts)
  | [], jump => Bool.noConfusion jump
  | [t], jump => neverLast (neverJump t jump)
  | _ :: t :: ts, jump => neverSeq (neverJumps (t :: ts) jump)

theorem neverCatches : (cs : List (CatchHead × List (Tree String))) → Tree.catchesEndInJump cs = true →
    ∀ x ∈ ofCatches cs, Never x.2
  | [], _ => nofun
  | (h,body) :: rest, jump => by
    obtain ⟨here,there⟩ := Bool.and_eq_true_iff.mp jump
    exact List.forall_mem_cons.mpr ⟨neverJumps body here,neverCatches rest there⟩

end

section

variable {a b c : Behaviour} {x y : List (Tree String)}

theorem seqNever (never : Never a) (closed : ∀ k, ¬Knows b k) : Seq a b = a := by
  funext w es e
  refine propext ⟨fun run => ?_,fun run => .stops run fun through => never w es (through ▸ run)⟩
  cases run with
  | stops run _ => exact run
  | goes run _ => exact absurd run (never _ _)
  | later run => exact absurd ⟨_,_,run⟩ (closed _)

theorem seqBranches {node : Int} {cond : Test} (never : Never a) (waits : b .top [] .underway) :
    Seq (Branches node cond a b) c = Seq (Branches node cond a (leave .through)) (Seq b c) := by
  have passes {fs : List Event} {f : Exit} (later : Seq b c .top fs f) :
      Seq (Branches node cond a (leave .through)) (Seq b c) .top (.test node (some cond) false :: fs) f := by
    have asked : Branches node cond a (leave .through) .top [.test node (some cond) false] .through :=
      .onFalse ⟨rfl,rfl,.inl rfl⟩
    exact Seq.goes asked later
  funext w es e
  refine propext ⟨fun run => ?_,fun run => ?_⟩
  · cases run with
    | stops run other =>
      cases run with
      | unasked => exact .stops .unasked other
      | raises => exact .stops .raises other
      | onTrue run => exact .stops (.onTrue run) other
      | onFalse run => exact passes (.stops run other)
      | inTrue run => exact .stops (.inTrue run) other
      | inFalse run => exact .later (.stops run other)
    | goes run later =>
      cases run with
      | onTrue run | inTrue run => exact absurd run (never _ _)
      | onFalse run => exact passes (.goes run later)
      | inFalse run => exact .later (.goes run later)
    | later run => exact .later (.later run)
  · cases run with
    | stops run other =>
      cases run with
      | unasked => exact .stops .unasked other
      | raises => exact .stops .raises other
      | onTrue run => exact .stops (.onTrue run) other
      | onFalse run =>
        obtain ⟨-,rfl,rfl | rfl⟩ := run
        · contradiction
        · exact .stops (.onFalse waits) other
      | inTrue run => exact .stops (.inTrue run) other
      | inFalse run => exact nomatch run.1
    | goes run later =>
      cases run with
      | onTrue run | inTrue run => exact absurd run (never _ _)
      | onFalse run =>
        obtain ⟨-,rfl,-⟩ := run
        cases later with
        | stops run other => exact .stops (.onFalse run) other
        | goes run later =>
          have asked : Branches node cond a b .top (.test node (some cond) false :: _) .through := .onFalse run
          have whole := Seq.goes asked later
          exact whole
      | inFalse run => exact nomatch run.1
    | later run =>
      cases run with
      | stops run other => exact .stops (.inFalse run) other
      | goes run later => exact .goes (.inFalse run) later
      | later run => exact .later run

theorem omitted (jump : Tree.endsInJump x = true) (closed : ∀ k, ¬Knows (ofCode y) k) : Alike (x ++ y) x := by
  refine alike ?_
  rw [codeAppend,seqNever (neverJumps x jump) closed]

theorem lifted {label : String} {node : Int} {cond : Test} (jump : Tree.endsInJump x = true) :
    Alike [.branch label node cond x (some y)] (.branch label node cond x none :: y) := by
  have whole : Seq (ofCode y) (leave .through) = ofCode y := by
    rw [← ofCode,← codeAppend,List.append_nil]
  refine alike ?_
  rw [ofCode,ofCode,ofTree,seqNamed,seqBranches (neverJumps x jump) (waitsCode y),whole,ofCode,ofTree,seqNamed]

def bareJump : Tree String → Bool
  | .goto l _ | .breakTo l _ | .continueTo l _ => l = ""
  | _ => false

theorem bareClosed {j : Tree String} (bare : bareJump j = true) (k : String) : ¬Knows (ofCode [j]) k := by
  have alone : ∀ l e es f, l = "" → ¬Seq (named l (leave e)) (leave .through) (.inside k) es f := by
    rintro l e es f blank run
    cases run with
    | stops run _ | goes run _ =>
      rcases run with run | ⟨some,-⟩
      · exact nomatch run.1
      · exact some blank
    | later run => exact nomatch run.1
  rintro ⟨es,f,run⟩
  cases j with
  | goto | breakTo | continueTo => exact alone _ _ es f (of_decide_eq_true bare) run
  | _ => contradiction

theorem endsConcat (x : List (Tree String)) (t : Tree String) : Tree.endsInJump (x ++ [t]) = t.isJump := by
  induction x with
  | nil => rfl
  | cons u x ih =>
    cases x with
    | nil => rfl
    | cons v x => exact ih

/-- No run of code that is a jump goes on to what follows, wherever the run begins. A jump behind such code may
be left out of any code, and what is run otherwise than such code may stand behind the branch. -/
theorem jumpsSound (t : Tree String) (jump : t.isJump = true) :
    (∀ w es, ¬Back (ofTree t) w es .through) ∧
    (∀ j, bareJump j = true → Alike [t,j] [t]) ∧
    ∀ l n c x b, Alike [.branch l n c (x ++ [t]) (some b)] (.branch l n c (x ++ [t]) none :: b) := by
  refine ⟨neverBack (neverJump t jump),fun j bare => ?_,fun l n c x b => ?_⟩
  · have last : Tree.endsInJump [t] = true := jump
    exact omitted last (bareClosed bare)
  · exact lifted ((endsConcat x t).trans jump)

def givingUp : Stmt := ⟨0,.ret none⟩

def rescue : Tree String :=
  .guarded "" 0 [.branch "" 1 default [.goto "" "label2"] (some [.breakTo "" ""])]
    [(⟨[],none,2⟩,[.stmts "label2" 2 [givingUp]])] none

theorem jumpsSoundRescue : rescue.isJump = true ∧
    Back (ofTree rescue) .top [.test 1 (some default) true,.stmt 2 givingUp] .returned ∧
    (∀ w es, ¬Back (ofTree rescue) w es .through) ∧ Alike [rescue,.goto "" "label7"] [rescue] := by
  have jump : rescue.isJump = true := by decide
  have jumps : ofTree rescue .top [.test 1 (some default) true] (.jumped "label2") :=
    .inl (.body (.stops (.inl (.onTrue (.stops (.inl ⟨rfl,rfl,.inl rfl⟩) nofun))) nofun))
  have handles : ofTree rescue (.inside "label2") [.stmt 2 givingUp] .returned :=
    .inl (.within (List.mem_singleton_self _)
      (.stops (.inr ⟨by decide,rfl,rfl,.returns rfl []⟩) nofun))
  have sound := jumpsSound rescue jump
  exact ⟨jump,.back jumps (.ends handles nofun),sound.1,sound.2.1 _ rfl⟩

end

end Behaviour

namespace Tree

variable {α β : Type} (f : α → β)

mutual

theorem jumpRelabel : (t : Tree α) → (t.relabel f).isJump = t.isJump
  | block _ body => endsRelabel body
  | stmts _ _ _ => rfl
  | branch _ _ _ _ none => rfl
  | branch _ _ _ a (some b) => by simp only [relabel,isJump,endsRelabel a,endsRelabel b]
  | loop _ _ _ _ _ _ | switch _ _ _ _ => rfl
  | guarded _ _ body cs none => by simp only [relabel,isJump,endsRelabel body,catchesRelabel cs]
  | guarded _ _ body cs (some z) => by simp only [relabel,isJump,endsRelabel body,catchesRelabel cs,endsRelabel z]
  | goto _ _ | breakTo _ _ | continueTo _ _ => rfl

theorem endsRelabel : (ts : List (Tree α)) → endsInJump (relabelAll f ts) = endsInJump ts
  | [] => rfl
  | [t] => jumpRelabel t
  | _ :: t :: ts => endsRelabel (t :: ts)

theorem catchesRelabel : (cs : List (CatchHead × List (Tree α))) →
    catchesEndInJump (relabelCatches f cs) = catchesEndInJump cs
  | [] => rfl
  | (_,body) :: rest => by simp only [relabelCatches,catchesEndInJump,endsRelabel body,catchesRelabel rest]

end

end Tree

namespace Recovery

open RegCode.Tree

section

variable {p : Plan} {e : Emit} {f : Frame} {s s' : State} (name : Key → String)

theorem goOnAlike (blank : name .none = "") (aims : ∀ n, name (.aim n) = "") (out : List Piece) (t : NodeId) :
    Behaviour.Alike (relabelAll name ((goOn p e f out (some t)).from s).1)
      (relabelAll name (out ++ ((go p e f (some t)).from s).1)) := by
  rw [goOnAt]
  by_cases jump : endsInJump out = true
  · by_cases way : route p s f t = .inline
    · simp only [if_pos jump,goAt,way]
      exact .refl _
    · rw [if_pos jump,if_neg way,relabelAllMap name (out ++ _),List.map_append,← relabelAllMap,← relabelAllMap]
      refine (Behaviour.omitted ((endsRelabel name out).trans jump) fun k => ?_).symm
      rw [goAt]
      cases here : route p s f t with
      | inline => exact absurd here way
      | done => exact fun ⟨_,_,run⟩ => nomatch run.1
      | breakTo scope | continueTo scope => exact Behaviour.bareClosed (by simp [relabel,Behaviour.bareJump,blank]) k
      | goto => exact Behaviour.bareClosed (by simp [State.goto,relabel,Behaviour.bareJump,aims]) k
  · rw [if_neg jump]
    exact .refl _

theorem branchAlike (key : Key) (n : NodeId) (cond : Test) (meets : Bool) {onTrue : List Piece}
    (onFalse : List Piece) (jump : endsInJump onTrue = true) :
    Behaviour.Alike (relabelAll name (branchPieces key n cond meets onTrue onFalse))
      (relabelAll name [.branch key n cond onTrue (some onFalse)]) := by
  unfold branchPieces
  split
  · rename_i none
    rw [List.isEmpty_iff.mp none]
    exact Behaviour.alike rfl
  · split
    · rename_i none
      rw [List.isEmpty_iff.mp none] at jump
      contradiction
    · split
      · exact (Behaviour.lifted ((endsRelabel name onTrue).trans jump)).symm
      · exact .refl _

end

section

variable {p : Plan} {n : NodeId} {s s' : State}

def Tidy : Piece → Prop
  | .guarded _ _ _ _ (some z) => ∃ n ss, z = [.stmts .none n ss]
  | _ => True

def TidyAll (ts : List Piece) : Prop := ∀ t ∈ ts, Tidy t

theorem tidyJoin {ts us : List Piece} : TidyAll (ts ++ us) ↔ TidyAll ts ∧ TidyAll us := List.forall_mem_append

theorem tidyMore {t : Piece} {ts : List Piece} : TidyAll (t :: ts) ↔ Tidy t ∧ TidyAll ts := List.forall_mem_cons

theorem tidyNone : TidyAll [] := fun _ inside => absurd inside List.not_mem_nil

theorem tidyStatement (n : NodeId) (ss : List Stmt) (s : State) : TidyAll (partsAll [(s.statement n ss).1]) :=
  tidyMore.mpr ⟨trivial,tidyNone⟩

theorem tidyLead {lead : List Piece} {ss : List Stmt} (start : s.lead n ss = (lead,s')) :
    TidyAll (partsAll lead) := by
  unfold State.lead at start
  split at start
  · cases start
    exact tidyNone
  · cases start
    exact tidyStatement _ _ _

theorem tidyRepeat (g : Graph) (c : Clauses) (s : State) : TidyAll (partsCatches ((repeatClauses g c).from s).1) := by
  cases c with
  | cleanup entry => exact tidyMore.mpr ⟨trivial,tidyNone⟩
  | catches heads =>
    have jumps : ∀ s, TidyAll (partsCatches ((jumpClauses heads).from s).1) := by
      induction heads with
      | nil => exact fun _ => tidyNone
      | cons h heads ih => exact fun s => tidyMore.mpr ⟨trivial,ih _⟩
    exact jumps s

theorem Writes.tidy {job : Job} (writes : Writes p job s s') : TidyAll (partsAll job.written) := by
  induction writes with
  | nowhere | falls | nothing | ends | never => exact tidyNone
  | inline _ _ ih | behind _ _ _ ih | on _ _ ih => exact ih
  | breaks | continues | jumps => exact tidyMore.mpr ⟨trivial,tidyNone⟩
  | each _ _ ihFirst ihRest =>
    rw [Job.written,List.flatten_cons,partsAppend]
    exact tidyJoin.mpr ⟨ihFirst,ihRest⟩
  | last => exact tidyStatement _ _ _
  | plain _ _ _ _ ih => exact tidyMore.mpr ⟨trivial,ih⟩
  | @branch f n cond first second lead onTrue onFalse more s s₀ s₁ s₂ s₃ bare kind sides start left
      right rest ihLeft ihRight ihRest =>
    obtain ⟨c,x,y,-,pieces⟩ := partsBranch (s₀.key "") n cond (p.branchFollows.get? n).isSome onTrue onFalse
    rw [Job.written,partsAppend,partsAppend,pieces]
    have sides := tidyJoin.mpr ⟨ihLeft,ihRight⟩
    exact tidyJoin.mpr ⟨tidyJoin.mpr ⟨tidyLead start,tidyMore.mpr ⟨trivial,sides⟩⟩,ihRest⟩
  | @switch f n lead bodies more s s₀ s₁ s₂ bare kind start arms rest ihArms ihRest =>
    rw [Job.written,← partsSwitch arms] at ihArms
    rw [Job.written,partsAppend,partsAppend]
    have body : TidyAll (partsArms (writtenArms p f n bodies)) := fun t inside => ihArms t (partsDropBreak _ inside)
    have whole := tidyJoin.mpr ⟨body,tidyNone⟩
    exact tidyJoin.mpr ⟨tidyJoin.mpr ⟨tidyLead start,tidyMore.mpr ⟨trivial,whole⟩⟩,ihRest⟩
  | pretest _ _ _ _ _ _ ihInner ihRest | posttest _ _ _ _ _ _ _ ihInner ihRest
  | endless _ _ _ _ _ _ _ ihInner ihRest =>
    exact tidyMore.mpr ⟨trivial,tidyJoin.mpr ⟨fun t inside => ihInner t (partsDropContinue _ inside),ihRest⟩⟩
  | cleanup _ _ _ _ _ ihInner ihRest =>
    refine tidyMore.mpr ⟨⟨_,_,rfl⟩,tidyJoin.mpr ⟨?_,ihRest⟩⟩
    exact tidyJoin.mpr ⟨ihInner,tidyMore.mpr ⟨trivial,tidyNone⟩⟩
  | @catches f n r heads body bodies more s s₀ s₁ s₂ s₃ outside first noCleanup clauses inner handlers
      rest ihInner ihHandlers ihRest =>
    have same : bodies.length = heads.length := by rw [bodiesLength handlers,List.length_map]
    rw [Job.written,← partsZipCatches heads bodies same] at ihHandlers
    exact tidyMore.mpr ⟨trivial,tidyJoin.mpr ⟨tidyJoin.mpr ⟨ihInner,ihHandlers⟩,ihRest⟩⟩
  | @again f n r c catches body more s s₀ s₁ s₂ outside known clauses inner rest ihInner ihRest =>
    have repeated := tidyRepeat p.graph c (s.openGuard n (followOfRegion p s f r []))
    rw [clauses] at repeated
    exact tidyMore.mpr ⟨trivial,tidyJoin.mpr ⟨tidyJoin.mpr ⟨ihInner,repeated⟩,ihRest⟩⟩

theorem Remains.tidy {ns : List NodeId} {out : List Piece} (remains : Remains p ns out s s') :
    TidyAll (partsAll out) := by
  induction remains with
  | none => exact tidyNone
  | met _ _ ih => exact ih
  | more _ here _ ih =>
    rw [partsAppend]
    exact tidyJoin.mpr ⟨here.tidy,ih⟩

end

end Recovery

theorem Graph.recoverCleanup (g : Graph) (d : Dominators) (policy : Policy) : ∃ r, g.recover d policy = .ok r ∧
    ∀ l q body cs z, .guarded l q body cs (some z) ∈ r.root.parts → ∃ n ss, z = [.stmts "" n ss] := by
  obtain ⟨r,code,root,made⟩ := g.recoverWritten d policy
  have blank := (g.wholeWritten d policy).rootBlank
  have tidy : Recovery.TidyAll (Tree.partsAll (g.written d policy).body) := by
    obtain none | ⟨⟨entry,out,rest,s,here,remains,body⟩,-⟩ := made
    · rw [none]
      exact Recovery.tidyNone
    · rw [body,Tree.partsAppend]
      exact Recovery.tidyJoin.mpr ⟨here.tidy,remains.tidy⟩
  refine ⟨r,code,fun l q body cs z inside => ?_⟩
  rw [root,Tree.partsRelabel] at inside
  obtain ⟨t,member,same⟩ := List.mem_map.mp inside
  rcases List.mem_cons.mp member with rfl | member
  · contradiction
  have shape := tidy t member
  cases t with
  | guarded l' q' body' cs' z' =>
    cases z' with
    | none => simp [Tree.relabel] at same
    | some z' =>
      obtain ⟨n,ss,rfl⟩ := shape
      simp only [Tree.relabel,Tree.relabelAll,Tree.guarded.injEq,Option.some.injEq] at same
      exact ⟨n,ss,by rw [← same.2.2.2.2]; exact congrArg (fun x => [Tree.stmts x n ss]) blank⟩
  | branch _ _ _ _ b => cases b <;> simp [Tree.relabel] at same
  | _ => simp [Tree.relabel] at same

end RegCode
