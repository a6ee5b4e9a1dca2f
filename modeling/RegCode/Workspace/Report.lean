import RegCode.Profile
import RegCode.Workspace

/-! What a run did, how long it took and how much memory it used. -/
namespace RegCode

open Json (Value)

def Stats.toJson (s : Stats) : Value :=
  .obj [("methods", .int s.methods), ("failed", .int s.failed), ("gotos", .int s.gotos),
    ("loops", .int s.loops), ("cache_hits", .int s.cacheHits)]

namespace Workspace

def stageText (v : Voice) (s : StageTime) : String :=
  v.say .stageTime [.text s.stage, .num s.calls, .text s.total.text] ++ "\n"

def reportText (w : Workspace) (p : Profile) (m : Memory) : String :=
  if w.config.isJson then w.stats.toJson.compact ++ "\n" ++ documentText p.toJson
  else
    w.stats.text w.voice ++ "\n" ++ String.join (p.stages.map (stageText w.voice)) ++ m.text

end Workspace

end RegCode
