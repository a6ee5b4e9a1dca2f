/-! Exception tables. Catch directives may overlap; normalising cuts the code into disjoint
ranges, each with the handlers that apply in it. -/
namespace RegCode

/-- Where an exception of a type goes; the empty type stands for every exception. -/
structure Handler where
  type : String
  target : Int
  deriving DecidableEq, Repr, Inhabited

def Handler.catchesAll (h : Handler) : Bool := h.type == ""

/-- Code from `start` up to before `stop`, with its handlers in order of preference. -/
structure TryRange where
  start : Int
  stop : Int
  handlers : List Handler
  deriving DecidableEq, Repr, Inhabited

def TryRange.covers (t : TryRange) (offset : Int) : Bool := t.start ≤ offset && offset < t.stop

structure CatchDirective where
  start : Int
  stop : Int
  type : String
  handler : Int
  deriving DecidableEq, Repr, Inhabited

namespace TryTable

def ascending (xs : List Int) : List Int := (xs.mergeSort (· ≤ ·)).eraseReps

def bounds (ds : List CatchDirective) : List Int :=
  ascending (ds.flatMap fun d => [d.start, d.stop])

def firstOfType : List Handler → List Handler
  | [] => []
  | h :: hs => h :: (firstOfType hs).filter (·.type != h.type)

def handlersOver (ds : List CatchDirective) (lo hi : Int) : List Handler :=
  firstOfType ((ds.filter fun d => d.start ≤ lo && hi ≤ d.stop).map fun d => ⟨d.type, d.handler⟩)

def segments (ds : List CatchDirective) : List Int → List TryRange
  | lo :: hi :: rest =>
    match handlersOver ds lo hi with
    | [] => segments ds (hi :: rest)
    | hs => ⟨lo, hi, hs⟩ :: segments ds (hi :: rest)
  | _ => []

def joinTouching : List TryRange → List TryRange
  | [] => []
  | t :: ts =>
    match joinTouching ts with
    | [] => [t]
    | u :: us =>
      if t.stop = u.start ∧ t.handlers = u.handlers then ⟨t.start, u.stop, t.handlers⟩ :: us
      else t :: u :: us

def normalize (ds : List CatchDirective) : List TryRange :=
  joinTouching (segments ds (bounds ds))

def crosses (a b : CatchDirective) : Bool :=
  !(a.stop ≤ b.start || b.stop ≤ a.start) &&
  !((a.start ≤ b.start && b.stop ≤ a.stop) || (b.start ≤ a.start && a.stop ≤ b.stop))

def crossings : List CatchDirective → List Int
  | [] => []
  | a :: rest => ((rest.filter (crosses a)).map fun b => max a.start b.start) ++ crossings rest

def partialOverlaps (ds : List CatchDirective) : List Int := ascending (crossings ds)

end TryTable

end RegCode
