import RegCode.Digest.Blake2b
import RegCode.Json.Reader
import RegCode.Method
import RegCode.Table

/-! Results of earlier runs, found again by a digest of the method and of the settings. -/
namespace RegCode

open Text (Bytes)

/-- Result of a method: its text and counts. -/
structure CacheEntry where
  source : String
  gotos : Int
  loops : Int
  deriving DecidableEq, Repr, Inhabited

structure Cache where
  entries : Table Bytes CacheEntry := .empty
  hits : Nat := 0
  misses : Nat := 0
  deriving Repr, Inhabited

namespace Cache

def get (c : Cache) (key : Bytes) : Option CacheEntry × Cache :=
  match c.entries.get? key with
  | some e => (some e, { c with hits := c.hits + 1 })
  | none => (none, { c with misses := c.misses + 1 })

def put (c : Cache) (key : Bytes) (e : CacheEntry) : Cache :=
  { c with entries := c.entries.insert key e }

def reopen (c : Cache) : Cache := { entries := c.entries }

def field (s : String) : Bytes :=
  let bs := Text.bytesOf s
  let n := bs.length
  [n.toUInt8, (n / 256).toUInt8, (n / 65536).toUInt8, (n / 16777216).toUInt8] ++ bs

def tryFields (t : TryRange) : List String :=
  ("try " ++ Text.offsetText t.start ++ "-" ++ Text.offsetText t.stop) ::
    t.handlers.map fun h => "catch " ++ h.type ++ " " ++ Text.offsetText h.target

def methodFields (m : Method) : List String :=
  [m.fullName, Text.natText m.access.bits.toNat ++ "/" ++ Text.intText m.registers] ++
    m.code.map (fun i => Text.offsetText i.offset ++ " " ++ i.text) ++ m.tries.flatMap tryFields

def fingerprint (m : Method) : Bytes := Digest.blake2b ((methodFields m).flatMap field)

def key (m : Method) (settings : String) : Bytes :=
  Digest.blake2b (field "v1" ++ field settings ++ fingerprint m)

open Json (Value)

def keyText (key : Bytes) : String := String.join (key.map fun b => Text.hexFilled 2 b.toNat)

def readKey? : List Char → Option Bytes
  | [] => some []
  | a :: b :: rest => do
    let n ← Text.readDigits? 16 [a, b]
    return n.toUInt8 :: (← readKey? rest)
  | _ => none

def toJson (c : Cache) : Value :=
  .obj (c.entries.entries.map fun (k, e) =>
    (keyText k, .obj [("source", .str e.source), ("gotos", .int e.gotos), ("loops", .int e.loops)]))

def readEntry? : String × Value → Option (Bytes × CacheEntry)
  | (k, .obj [("source", .str source), ("gotos", .int gotos), ("loops", .int loops)]) => do
    return (← readKey? k.toList, ⟨source, gotos, loops⟩)
  | _ => none

def ofJson : Value → Cache
  | .obj ms => { entries := ⟨ms.filterMap readEntry?⟩ }
  | _ => {}

def ofText (text : String) : Cache := ((Json.parse? text).map ofJson).getD {}

end Cache

end RegCode
