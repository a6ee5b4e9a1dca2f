import RegCode.Cache
import RegCode.Command

/-! The program: the command on the files and the terminal of this system. -/
namespace RegCode.Command

def causeOf : IO.Error → FileCause
  | .noFileOrDirectory .. => .noEntry
  | .inappropriateType .. => .notDirectory
  | e => .other (toString e)

def attempt {α : Type} (operation path : String) (action : IO α) : IO (Except FileFault α) := do
  try return .ok (← action)
  catch e => return .error ⟨operation, path, causeOf e⟩

def cacheFile (dir : String) : String := joinPath dir "entries.json"

/-- Asks and answers until the browser is left or the input ends. -/
partial def browse (b : Browser) : IO Workspace := do
  let output ← IO.getStdout
  output.putStr b.question
  output.flush
  let line ← (← IO.getStdin).getLine
  if line.isEmpty then
    output.putStr "\n"
    return b.work
  match b.answer line with
  | (text, some next) =>
    output.putStr text
    browse next
  | (text, none) =>
    output.putStr text
    return b.work

def speaksChinese : IO Bool := do
  let values ← ["LANG", "LANGUAGE", "LC_ALL", "LC_MESSAGES"].mapM fun name => IO.getEnv name
  return values.any fun value =>
    let lowered := Text.lower (value.getD "")
    Text.hasInfix "zh" lowered || Text.hasInfix "chinese" lowered

/-- This system. -/
def system : Host IO where
  directory := return toString (← IO.currentDir)
  speaksChinese
  kind path := attempt "stat" path do
    let data ← ((← IO.currentDir) / path).metadata
    return if data.type == .dir then .directory else .file
  read path := attempt "open" path do
    return Text.ofBytes (← IO.FS.readBinFile ((← IO.currentDir) / path)).toList
  list path := attempt "open" path do
    let entries ← ((← IO.currentDir) / path).readDir
    return (entries.toList.map (·.fileName)).mergeSort fun a b => decide (a ≤ b)
  write path text := attempt "open" path (do IO.FS.writeFile ((← IO.currentDir) / path) text)
  openCache path := attempt "mkdir" path do
    IO.FS.createDirAll ((← IO.currentDir) / path)
    let file := (← IO.currentDir) / cacheFile path
    if ← file.pathExists then return Cache.ofText (← IO.FS.readFile file) else return {}
  closeCache path c := do
    IO.FS.writeFile ((← IO.currentDir) / cacheFile path) c.toJson.compact
  browse
  memory := return { time := ⟨← IO.monoNanosNow⟩ }

end RegCode.Command

def main (args : List String) : IO UInt32 := do
  let outcome ← RegCode.Command.run RegCode.Command.system args
  (← IO.getStdout).putStr outcome.out
  (← IO.getStderr).putStr outcome.err
  return outcome.code.toUInt32
