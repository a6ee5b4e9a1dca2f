import RegCode.Flow.Graph

/-! Dominators over normal and exceptional edges, by iteration in reverse postorder, and the
dominance frontier. -/
namespace RegCode

/-- Immediate dominators by node; the entry stands for its own. -/
structure Dominators where
  entry : Option NodeId
  idoms : Array (Option NodeId)
  nums : Array Int
  deriving Repr, Inhabited

namespace Dominators

def link (d : Dominators) (n : NodeId) : Option NodeId := (d.idoms[n]?).join

def num (d : Dominators) (n : NodeId) : Int := d.nums[n]?.getD (-1)

def meet (d : Dominators) : Nat → NodeId → NodeId → NodeId
  | 0, a, _ => a
  | fuel + 1, a, b =>
    if a = b then a
    else if d.num a > d.num b then meet d fuel ((d.link a).getD a) b
    else meet d fuel a ((d.link b).getD b)

def reach (d : Dominators) : Nat := 2 * d.idoms.size + 2

def joinPreds (d : Dominators) (preds : List NodeId) : Option NodeId :=
  preds.foldl (fun acc p =>
    if (d.link p).isNone || d.num p < 0 then acc
    else
      match acc with
      | none => some p
      | some q => some (d.meet d.reach p q)) none

def updateNode (g : Graph) (d : Dominators) (b : NodeId) : Dominators × Bool :=
  if g.entry == some b then (d, false)
  else
    match d.joinPreds (g.node b).allPreds with
    | none => (d, false)
    | some p =>
      if d.link b == some p then (d, false)
      else ({ d with idoms := d.idoms.setIfInBounds b (some p) }, true)

def round (g : Graph) (d : Dominators) : Dominators × Bool :=
  g.rpo.foldl (fun (d, changed) b =>
    let (d, c) := updateNode g d b
    (d, changed || c)) (d, false)

def rounds (g : Graph) : Nat → Dominators → Dominators
  | 0, d => d
  | fuel + 1, d =>
    let (d, changed) := round g d
    if changed then rounds g fuel d else d

def ofGraph (g : Graph) : Dominators :=
  let blank : Dominators :=
    { entry := g.entry
      idoms := Array.replicate g.store.size none
      nums := g.store.map (·.num) }
  match g.entry with
  | none => blank
  | some e =>
    rounds g (g.store.size * g.store.size + 2)
      { blank with idoms := blank.idoms.setIfInBounds e (some e) }

def idom? (d : Dominators) (n : NodeId) : Option NodeId :=
  if d.entry == some n then none else d.link n

def children (d : Dominators) (order : List NodeId) (n : NodeId) : List NodeId :=
  order.filter fun b => d.idom? b == some n

def chain (d : Dominators) : Nat → NodeId → List NodeId
  | 0, n => [n]
  | fuel + 1, n =>
    match d.idom? n with
    | some p => n :: chain d fuel p
    | none => [n]

def above (d : Dominators) (n : NodeId) : List NodeId := d.chain d.idoms.size n

def dominates (d : Dominators) (a b : NodeId) : Bool := (d.above b).contains a

def common (d : Dominators) (a b : NodeId) : NodeId := d.meet d.reach a b

def commonAll (d : Dominators) : List NodeId → Option NodeId
  | [] => none
  | n :: rest => some (rest.foldl d.common n)

def runners (d : Dominators) (b p : NodeId) : List NodeId :=
  (d.above p).takeWhile fun r => d.link b != some r

def frontierOwners (g : Graph) (d : Dominators) (b : NodeId) : List NodeId :=
  let preds := (g.node b).allPreds
  if preds.length < 2 then [] else preds.flatMap (d.runners b)

def frontier (g : Graph) (d : Dominators) (n : NodeId) : List NodeId :=
  g.rpo.filter fun b => (frontierOwners g d b).contains n

end Dominators

/-! Natural loops: a header, the nodes with an edge back to it, and everything that reaches those
without leaving the dominance of the header. -/

structure Loop where
  header : NodeId
  latches : List NodeId
  body : List NodeId
  deriving Repr, Inhabited

def Loop.contains (l : Loop) (n : NodeId) : Bool := l.body.contains n

/-- Loops with larger bodies first, and the edges back to a node that does not dominate their
source. -/
structure LoopForest where
  loops : List Loop
  irreducible : List (NodeId × NodeId)
  deriving Repr, Inhabited

namespace LoopForest

def gather (g : Graph) (d : Dominators) (header : NodeId) :
    Nat → List NodeId → List NodeId → List NodeId
  | 0, _, body => body
  | _, [], body => body
  | fuel + 1, n :: work, body =>
    if body.contains n || !d.dominates header n then gather g d header fuel work body
    else gather g d header fuel ((g.node n).allPreds.reverse ++ work) (n :: body)

def edgeCount (g : Graph) : Nat :=
  sumOf (fun i => (g.node i).allPreds.length + 1) g.rpo + 1

def addLatch (g : Graph) (d : Dominators) (header latch : NodeId) : List Loop → List Loop
  | [] => [⟨header, [latch], gather g d header (edgeCount g) [latch] [header]⟩]
  | l :: rest =>
    if l.header = header then
      { l with
        latches := l.latches ++ [latch]
        body := gather g d header (edgeCount g) [latch] l.body } :: rest
    else l :: addLatch g d header latch rest

def addEdge (g : Graph) (d : Dominators) (f : LoopForest) (n s : NodeId) : LoopForest :=
  if (g.node s).num > (g.node n).num then f
  else if !d.dominates s n then { f with irreducible := f.irreducible ++ [(n, s)] }
  else { f with loops := addLatch g d s n f.loops }

def ofGraph (g : Graph) (d : Dominators) : LoopForest :=
  let found := g.rpo.foldl (fun f n => (g.node n).succs.foldl (fun f s => addEdge g d f n s) f) ⟨[], []⟩
  { found with loops := found.loops.mergeSort fun a b => decide (b.body.length ≤ a.body.length) }

def headed? (f : LoopForest) (n : NodeId) : Option Loop := f.loops.find? (·.header == n)

def innermost? (f : LoopForest) (n : NodeId) : Option Loop := f.loops.reverse.find? (·.contains n)

def parentIn (header : NodeId) (before : List Loop) : Option Loop := before.find? (·.contains header)

def parentsFrom : List Loop → List Loop → List (Option NodeId)
  | _, [] => []
  | before, l :: rest => (parentIn l.header before).map (·.header) :: parentsFrom (l :: before) rest

def parents (f : LoopForest) : List (Option NodeId) := parentsFrom [] f.loops

def parent? (f : LoopForest) (header : NodeId) : Option NodeId :=
  ((f.loops.map (·.header)).zip f.parents).lookup header |>.join

end LoopForest

def Loop.ordered (g : Graph) (l : Loop) : List NodeId := g.rpo.filter l.contains

end RegCode
