import RegCode.Browser
import RegCode.Profile

/-! What a command needs of the system that it runs on. -/
namespace RegCode.Command

inductive FileCause where
  | noEntry | notDirectory | isDirectory | alreadyThere | nameTooLong | invalid
  | other (text : String)
  deriving DecidableEq, Repr

def FileCause.text : FileCause → String
  | noEntry => "no such file or directory"
  | notDirectory => "not a directory"
  | isDirectory => "is a directory"
  | alreadyThere => "file exists"
  | nameTooLong => "file name too long"
  | invalid => "invalid argument"
  | other text => text

/-- A failed operation on a path. -/
structure FileFault where
  operation : String
  path : String
  cause : FileCause
  deriving DecidableEq, Repr

def FileFault.message (f : FileFault) : String :=
  f.operation ++ " " ++ f.path ++ ": " ++ f.cause.text

inductive FileKind where
  | file | directory
  deriving DecidableEq, Repr, Inhabited

/-- Operations of a system. Names of a directory are listed in order. -/
structure Host (m : Type → Type) where
  directory : m String
  speaksChinese : m Bool
  kind : String → m (Except FileFault FileKind)
  read : String → m (Except FileFault String)
  list : String → m (Except FileFault (List String))
  write : String → String → m (Except FileFault Unit)
  openCache : String → m (Except FileFault Cache)
  closeCache : String → Cache → m Unit
  browse : Browser → m Workspace
  memory : m Memory

def cleanParts (rooted : Bool) : List String → List String → List String
  | acc, [] => acc.reverse
  | acc, p :: rest =>
    if p = "" ∨ p = "." then cleanParts rooted acc rest
    else if p = ".." then
      match acc with
      | q :: acc' =>
        if q = ".." then cleanParts rooted (".." :: q :: acc') rest else cleanParts rooted acc' rest
      | [] => cleanParts rooted (if rooted then [] else [".."]) rest
    else cleanParts rooted (p :: acc) rest

def cleanPath (path : String) : String :=
  let rooted := Text.startsWith "/" path
  let body := "/".intercalate (cleanParts rooted [] (Text.pieces '/' path))
  if rooted then "/" ++ body else if body = "" then "." else body

def joinPath (dir name : String) : String := cleanPath (dir ++ "/" ++ name)

def ancestors (dir : String) : List String :=
  let parts := (Text.pieces '/' (cleanPath dir)).filter (· ≠ "")
  (List.range (parts.length + 1)).map fun n =>
    "/" ++ "/".intercalate (parts.take (parts.length - n))

end RegCode.Command
