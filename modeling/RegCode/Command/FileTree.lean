import RegCode.Command.Host

/-! Files in memory: a system on which commands can be run and reasoned about. -/
namespace RegCode.Command

/-- Files and caches by the components of their paths, directories that nothing need lie in, and the
working directory. -/
structure FileTree where
  directory : List String
  files : Table (List String) String := .empty
  directories : List (List String) := []
  caches : Table (List String) Cache := .empty
  deriving Inhabited

namespace FileTree

def pathText (parts : List String) : String := "/" ++ "/".intercalate parts

def kindAt (t : FileTree) (parts : List String) : Option FileKind :=
  if t.files.contains parts then some .file
  else if parts.isPrefixOf t.directory || t.files.keys.any parts.isPrefixOf ||
      t.directories.any parts.isPrefixOf then some .directory
  else none

def maxName : Nat := 255

def maxPath : Nat := 4096

def enter (t : FileTree) (parts : List String) (p : String) : Except FileCause (List String) :=
  match t.kindAt parts with
  | none => .error .noEntry
  | some .file => .error .notDirectory
  | some .directory =>
    if p = "" ∨ p = "." then .ok parts
    else if p = ".." then .ok parts.dropLast
    else if maxName < p.utf8ByteSize then .error .nameTooLong
    else .ok (parts ++ [p])

def follow (t : FileTree) (parts components : List String) : Except FileCause (List String) :=
  components.foldlM t.enter parts

def split (t : FileTree) (path : String) : Except FileCause (List String × List String) :=
  if path.toList.contains '\x00' then .error .invalid
  else if path = "" then .error .noEntry
  else if maxPath ≤ path.utf8ByteSize then .error .nameTooLong
  else .ok (if Text.startsWith "/" path then [] else t.directory, Text.pieces '/' path)

def resolve (t : FileTree) (path : String) : Except FileCause (List String) := do
  let (start, components) ← t.split path
  t.follow start components

def kind (t : FileTree) (path : String) : Except FileCause (FileKind × List String) := do
  let parts ← t.resolve path
  match t.kindAt parts with
  | some k => return (k, parts)
  | none => throw .noEntry

def failing {α : Type} (operation path : String) (cause : FileCause) : Except FileFault α :=
  .error ⟨operation, path, cause⟩

def read (t : FileTree) (path : String) : Except FileFault String :=
  match t.kind path with
  | .error c => failing "open" path c
  | .ok (.directory, _) => failing "read" path .isDirectory
  | .ok (.file, parts) => .ok (t.files.getD parts "")

def list (t : FileTree) (path : String) : Except FileFault (List String) :=
  match t.kind path with
  | .error c => failing "open" path c
  | .ok (.file, _) => failing "readdirent" path .notDirectory
  | .ok (.directory, parts) =>
    let names := (t.files.keys ++ t.directories).filterMap fun k =>
      if parts.isPrefixOf k then k[parts.length]? else none
    .ok (names.eraseDups.mergeSort fun a b => decide (a ≤ b))

def write (t : FileTree) (path text : String) : Except FileFault FileTree :=
  match t.resolve path with
  | .error c => failing "open" path c
  | .ok parts =>
    if t.kindAt parts = some .directory then failing "open" path .isDirectory
    else .ok { t with files := t.files.insert parts text }

def make (t : FileTree) (path : String) : Except FileCause FileTree := do
  let (start, components) ← t.split path
  let components := components.filter (· ≠ "")
  let parent ← t.follow start components.dropLast
  let name := components.getLastD "."
  let parts ← t.enter parent name
  if name = "." ∨ name = ".." ∨ (t.kindAt parts).isSome then throw .alreadyThere
  return { t with directories := t.directories ++ [parts] }

def parentPart (path : String) : String :=
  String.ofList ((path.toList.reverse.dropWhile (· == '/')).dropWhile (· != '/')).reverse

/-- Makes a directory and those that it lies in, unless they are there; the bound counts the
characters. -/
def makeAll : Nat → FileTree → String → Except FileFault FileTree
  | 0, t, _ => .ok t
  | fuel + 1, t, path =>
    match t.kind path with
    | .ok (.directory, _) => .ok t
    | .ok (.file, _) => failing "mkdir" path .notDirectory
    | .error _ => do
      let parent := parentPart path
      let t ← if parent = "" then pure t else makeAll fuel t parent
      match t.make path with
      | .ok t => return t
      | .error c =>
        match t.kind path with
        | .ok (.directory, _) => return t
        | _ => failing "mkdir" path c

def openCache (t : FileTree) (path : String) : Except FileFault (Cache × FileTree) := do
  let t ← makeAll (path.length + 1) t path
  match t.resolve path with
  | .error c => failing "open" path c
  | .ok parts =>
    let cache := (t.caches.getD parts {}).reopen
    return (cache, { t with caches := t.caches.insert parts cache })

def closeCache (t : FileTree) (path : String) (c : Cache) : FileTree :=
  match t.resolve path with
  | .ok parts => { t with caches := t.caches.insert parts c }
  | .error _ => t

/-- The tree as a system. Nobody answers a browser on it. -/
def host : Host (StateM FileTree) where
  directory := do return pathText (← get).directory
  speaksChinese := return false
  kind path := do
    match (← get).kind path with
    | .ok (k, _) => return .ok k
    | .error c => return failing "stat" path c
  read path := do return (← get).read path
  list path := do return (← get).list path
  write path text := do
    match (← get).write path text with
    | .ok t => set t; return .ok ()
    | .error f => return .error f
  openCache path := do
    match (← get).openCache path with
    | .ok (c, t) => set t; return .ok c
    | .error f => return .error f
  closeCache path c := modify fun t => t.closeCache path c
  browse b := return b.work
  memory := return {}

end FileTree

end RegCode.Command
