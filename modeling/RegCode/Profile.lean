import RegCode.Decimal
import RegCode.Json
import RegCode.Text.Cut
import RegCode.Text.Numeral

/-! What a run took: lengths of time in nanoseconds, time spent in each stage of the work, and memory. Sums of
times wrap at 64 bits, rounding stops at the largest and least length. -/
namespace RegCode

structure Duration where
  ns : Int := 0
  deriving DecidableEq, Repr, Inhabited

namespace Duration

def microsecond : Nat := 1000

def millisecond : Nat := 1000000

def second : Nat := 1000000000

def add (a b : Duration) : Duration := ⟨Text.wrap64 (a.ns + b.ns)⟩

def clamp (ns : Int) : Duration := ⟨max Text.minInt64 (min Text.maxInt64 ns)⟩

def round (d : Duration) (unit : Nat) : Duration :=
  let n := d.ns.natAbs
  let r := n % unit
  let m : Nat := if 2 * r < unit then n - r else n + unit - r
  clamp (if d.ns < 0 then -(m : Int) else m)

def fractionText (places n : Nat) : String :=
  let ds := Text.natDigits 10 (n % Nat.pow 10 places)
  let filled := List.replicate (places - ds.length) '0' ++ ds
  match (filled.reverse.dropWhile (· == '0')).reverse with
  | [] => ""
  | kept => String.ofList ('.' :: kept)

def decimalText (places n : Nat) (unit : String) : String :=
  Text.natText (n / Nat.pow 10 places) ++ fractionText places n ++ unit

def sizeText (n : Nat) : String :=
  if n = 0 then "0s"
  else if n < microsecond then decimalText 0 n "ns"
  else if n < millisecond then decimalText 3 n "µs"
  else if n < second then decimalText 6 n "ms"
  else
    let minutes := n / (60 * second)
    let hours := minutes / 60
    (if hours > 0 then Text.natText hours ++ "h" else "") ++
      (if minutes > 0 then Text.natText (minutes % 60) ++ "m" else "") ++
      decimalText 9 (n % (60 * second)) "s"

def text (d : Duration) : String :=
  if d.ns < 0 then "-" ++ sizeText d.ns.natAbs else sizeText d.ns.natAbs

end Duration

structure StageTime where
  stage : String
  calls : Int := 0
  total : Duration := {}
  max : Duration := {}
  deriving DecidableEq, Repr, Inhabited

namespace StageTime

def record (s : StageTime) (d : Duration) : StageTime :=
  { s with
    calls := s.calls + 1
    total := s.total.add d
    max := if s.max.ns < d.ns then d else s.max }

def average (s : StageTime) : Duration :=
  if s.calls = 0 then {} else ⟨Text.wrap64 (s.total.ns.tdiv s.calls)⟩

def toJson (s : StageTime) : Json.Value :=
  .obj [("stage", .str s.stage), ("calls", .int s.calls), ("total_ns", .str s.total.text),
    ("max_ns", .str s.max.text)]

end StageTime

/-- Stages in the order in which they were first recorded. -/
structure Profile where
  enabled : Bool := false
  stages : List StageTime := []
  deriving DecidableEq, Repr, Inhabited

namespace Profile

def recordIn (stage : String) (d : Duration) : List StageTime → List StageTime
  | [] => [({ stage } : StageTime).record d]
  | s :: rest => if s.stage = stage then s.record d :: rest else s :: recordIn stage d rest

def record (p : Profile) (stage : String) (d : Duration) : Profile :=
  if p.enabled then { p with stages := recordIn stage d p.stages } else p

def reset (p : Profile) : Profile := { p with stages := [] }

def slowest (p : Profile) (n : Int) : List StageTime :=
  let sorted := p.stages.mergeSort fun a b => decide (b.total.ns ≤ a.total.ns)
  if n > 0 then sorted.take n.toNat else sorted

def columns (stage calls total : String) : String :=
  Text.padRight 16 stage ++ " " ++ Text.padLeft 8 calls ++ " " ++ Text.padLeft 12 total

def timeText (d : Duration) : String := (d.round Duration.microsecond).text

def stageLine (s : StageTime) : String :=
  columns s.stage (Text.intText s.calls) (timeText s.total) ++ " " ++
    Text.padLeft 12 (timeText s.average) ++ " " ++ Text.padLeft 12 (timeText s.max) ++ "\n"

def text (p : Profile) : String :=
  let total := p.stages.foldl (fun t s => t.add s.total) ({} : Duration)
  columns "stage" "calls" "total" ++ " " ++ Text.padLeft 12 "avg" ++ " " ++ Text.padLeft 12 "max" ++
    "\n" ++ String.join (p.stages.map stageLine) ++ columns "total" "" (timeText total) ++ "\n"

def toJson (p : Profile) : Json.Value := .arr (p.stages.map StageTime.toJson)

end Profile

/-- State of the heap at a time, or the change from one state to a later one. -/
structure Memory where
  time : Duration := {}
  allocated : Int := 0
  objects : Int := 0
  heap : Int := 0
  collections : Nat := 0
  deriving DecidableEq, Repr, Inhabited

namespace Memory

def since (now before : Memory) : Memory :=
  { time := Duration.clamp (now.time.ns - before.time.ns)
    allocated := Text.wrap64 (now.allocated - before.allocated)
    objects := Text.wrap64 (now.objects - before.objects)
    heap := Text.wrap64 (now.heap - before.heap)
    collections := ((now.collections : Int) - before.collections).emod 4294967296 |>.toNat }

def sizeIn (n unit : Nat) : String :=
  let value := match (Decimal.double.nearest? n 1).map Decimal.double.decode with
    | some (.finite _ m e) => if 0 ≤ e then m * Nat.pow 2 e.toNat else m / Nat.pow 2 (-e).toNat
    | _ => n
  let hundredths := Decimal.Format.roundHalfEven (value * 100) unit
  Text.natText (hundredths / 100) ++ "." ++ Text.natText (hundredths % 100 / 10) ++
    Text.natText (hundredths % 10)

def sizeText (bytes : Int) : String :=
  if bytes ≥ 1073741824 then sizeIn bytes.toNat 1073741824 ++ " GB"
  else if bytes ≥ 1048576 then sizeIn bytes.toNat 1048576 ++ " MB"
  else if bytes ≥ 1024 then sizeIn bytes.toNat 1024 ++ " KB"
  else Text.intText bytes ++ " B"

def signedText (n : Int) : String := if n < 0 then Text.intText n else "+" ++ Text.intText n

def text (m : Memory) : String :=
  "elapsed " ++ (m.time.round Duration.millisecond).text ++ ", allocated " ++ sizeText m.allocated ++
    " in " ++ Text.intText m.objects ++ " objects, heap " ++ signedText m.heap ++ " B, " ++
    Text.natText m.collections ++ " GC\n"

end Memory

end RegCode
