import RegCode.Table
import RegCode.Toml

/-! Which keys of a document are defined. A key has one value and a table one head; a table that a
dotted key made is closed when the next head comes. -/
namespace RegCode.Toml

/-- How a key was defined: as what, whether by a head, and whether by a dotted key under the present
head. -/
structure KeyEntry where
  kind : KeyKind
  explicit : Bool
  dotted : Bool
  deriving DecidableEq, Repr, Inhabited

/-- Entries by full key, and the key of the present head. -/
structure Keys where
  entries : Table (List String) KeyEntry := .empty
  current : List String := []
  deriving Repr, Inhabited

namespace Keys

def isBelow (k j : List String) : Bool := k.length < j.length && k == j.take k.length

def close (ks : Keys) : Keys :=
  { ks with entries := ⟨ks.entries.entries.map fun (k, e) =>
      if isBelow ks.current k && e.dotted then (k, { e with explicit := true, dotted := false })
      else (k, e)⟩ }

def enter (ks : Keys) (parent : List String) : List String → Except Fault Keys
  | [] => .ok ks
  | part :: rest =>
    let path := parent ++ [part]
    match ks.entries.get? path with
    | none =>
      enter { ks with entries := ks.entries.insert path ⟨.table, false, false⟩ } path rest
    | some e => if e.kind = .value then .error (.expectedTable part e.kind) else enter ks path rest

def addTable (ks : Keys) (key : List String) : Except Fault Keys := do
  let ks ← ks.close.enter [] key.dropLast
  let name := key.getLastD ""
  match ks.entries.get? key with
  | none =>
    return { entries := ks.entries.insert key ⟨.table, true, false⟩, current := key }
  | some e =>
    if e.kind ≠ .table then throw (.shouldBeTable name e.kind)
    if e.explicit then throw (.tableAgain name)
    return { entries := ks.entries.insert key { e with explicit := true }, current := key }

def addListTable (ks : Keys) (key : List String) : Except Fault Keys := do
  let ks ← ks.close.enter [] key.dropLast
  match ks.entries.get? key with
  | none =>
    return { entries := ks.entries.insert key ⟨.listTable, true, false⟩, current := key }
  | some e =>
    if e.kind ≠ .listTable then throw (.shouldBeListTable (key.getLastD "") e.kind)
    return { entries := ⟨ks.entries.entries.filter fun (k, _) => !isBelow key k⟩, current := key }

def addKey (ks : Keys) (parent : List String) : List String → Except Fault Keys
  | [] => .ok ks
  | part :: rest =>
    let path := parent ++ [part]
    match ks.entries.get? path with
    | none =>
      let kind := if rest.isEmpty then KeyKind.value else .table
      addKey { ks with entries := ks.entries.insert path ⟨kind, false, true⟩ } path rest
    | some e =>
      if rest.isEmpty then .error (.keyAgain part)
      else if e.kind ≠ .table then .error (.expectedTable part e.kind)
      else if e.explicit then .error (.tableClosed part)
      else addKey ks path rest

mutual

def checkValue : Value → Except Fault Unit
  | .table pairs => checkPairs {} pairs
  | .array items => checkItems items
  | _ => .ok ()

def checkPairs (ks : Keys) : List (List String × Value) → Except Fault Unit
  | [] => .ok ()
  | (k, v) :: rest => do
    let ks ← ks.addKey [] k
    checkValue v
    checkPairs ks rest

def checkItems : List Value → Except Fault Unit
  | [] => .ok ()
  | v :: rest => do
    checkValue v
    checkItems rest

end

def addPair (ks : Keys) (key : List String) (v : Value) : Except Fault Keys := do
  let ks ← ks.addKey ks.current key
  checkValue v
  return ks

end Keys

end RegCode.Toml
