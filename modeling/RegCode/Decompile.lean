import RegCode.Chains
import RegCode.Chains.Declaration
import RegCode.Config
import RegCode.Diagnostic
import RegCode.Flow.Build
import RegCode.Flow.Simplify
import RegCode.Recovery
import RegCode.Tree.Dump
import RegCode.Verify

/-! From the code of a method to its tree. -/
namespace RegCode

/-- Why a method has no tree. -/
inductive DecompileFault where
  | verify (fault : VerifyFault)
  | build (fault : BuildFault)
  | invariant (vars : VarTable) (fault : InvariantFault)
  | recovery (fault : RecoveryFault)
  deriving Repr

namespace DecompileFault

def message : DecompileFault → String
  | verify f => f.message
  | build (.lower f) => f.message
  | build (.noBlock offset) => "no block at " ++ Text.offsetText offset
  | invariant vars f => f.message vars
  | recovery f => f.message

def code : DecompileFault → Code
  | verify _ => .malformed
  | build (.lower ⟨_, .unsupported _⟩) => .unsupported
  | build (.lower _) => .malformed
  | build (.noBlock _) | invariant _ _ | recovery _ => .invariant

end DecompileFault

def Graph.dump (g : Graph) : String :=
  let nodeText (i : NodeId) : String :=
    let n := g.node i
    g.name i ++ " #" ++ Text.intText n.num ++
      (n.region.map fun r => " try" ++ Text.natText r).getD "" ++
      (if n.handler then " handler" else "") ++ " ->" ++
      String.join (n.succs.map fun s => " " ++ g.name s) ++
      String.join (n.catchSuccs.map fun s => " !" ++ g.name s) ++ "\n" ++
      String.join (n.stmts.map fun s => "    " ++ Text.intText s.loc ++ ": " ++ s.text g.vars ++ "\n")
  String.join (g.rpo.map nodeText)

/-- What a stage has made of a method. -/
structure StageDump where
  method : String
  stage : String
  text : String
  deriving DecidableEq, Repr, Inhabited

/-- The graph of a method, and its tree when there is code. -/
structure Decompiled where
  graph : Graph
  tree : Option Recovered
  deriving Repr, Inhabited

namespace Decompile

abbrev Stages := ExceptT DecompileFault (StateM (List StageDump))

def liftFault {ε α : Type} (f : ε → DecompileFault) : Except ε α → Stages α
  | .ok a => pure a
  | .error e => throw (f e)

def note (c : Config) (m : Method) (stage : String) (text : Unit → String) : Stages Unit :=
  if c.dumpStages then modify (· ++ [⟨m.fullName, stage, text ()⟩]) else pure ()

def refine (c : Config) (g : Graph) : Stages Analysed := do
  let chains ← liftFault (.invariant g.vars) (Chains.ofGraph g)
  let a : Analysed := ⟨g, chains⟩
  let a ← if c.splitLifetimes then liftFault (.invariant g.vars) a.splitLifetimes else pure a
  let (a, _) := a.eliminateDeadCode
  if c.propagate then
    let (a, _) := a.propagate c.propagateOptions
    return a.eliminateDeadCode.1
  else return a

def declare (a : Analysed) : Graph :=
  let a := a.inferTypes
  let d := Dominators.ofGraph a.graph
  (a.placeDeclarations d (LoopForest.ofGraph a.graph d)).1.graph

def run (c : Config) (m : Method) : Stages Decompiled := do
  liftFault .verify m.verify
  let g ← liftFault .build (Graph.ofMethod m)
  if g.isEmpty then return ⟨g, none⟩
  note c m "graph" fun _ => g.dump
  let a ← refine c g
  let g := (declare a).splitTests.simplify
  note c m "simplify" fun _ => g.dump
  let r ← liftFault .recovery (g.recover (Dominators.ofGraph g) c.policy)
  note c m "structure" fun _ => (r.root.toJson g.vars).pretty "  "
  return ⟨g, some r⟩

end Decompile

def Method.decompile (m : Method) (c : Config) : Except DecompileFault Decompiled × List StageDump :=
  (Decompile.run c m).run []

end RegCode
