import RegCode.Text.Cut
import RegCode.Text.Lowercase
import RegCode.Text.Numeral

/-! Messages in two languages. A message is a template whose marks take arguments in turn. -/
namespace RegCode

inductive Language where
  | english | chinese
  deriving DecidableEq, Repr, Inhabited

namespace Language

def code : Language → String
  | english => "en" | chinese => "zh"

def ofName (name : String) : Language :=
  if ["zh", "zh-cn", "zh_cn", "zh-tw", "zh-hk", "chinese"].contains (Text.lower name) then .chinese
  else .english

def choose (option config : String) (chineseSystem : Bool) : String :=
  if option ≠ "" then option
  else if config ≠ "" then config
  else if chineseSystem then "zh"
  else "en"

end Language

inductive Message where
  | usage | loadFailed | noClasses | classNotFound | methodNotFound | classList | methodList
  | promptClass | promptMethod | configFailed | configWritten | cacheDisabled | stats | stageTime
  | summary | invalidSelector
  | malformed | invariant | unsupported | residualGoto | unresolved | overlappingTry
  | hintMalformed | hintInvariant | hintUnsupported | hintResidualGoto | hintLoopPolicy
  | hintUnresolved | hintDidYouMean
  deriving DecidableEq, Repr, Inhabited

/-- An argument of a message. -/
inductive Arg where
  | num (n : Int)
  | text (s : String)
  deriving DecidableEq, Repr, Inhabited

namespace Arg

def plain : Arg → String
  | num n => Text.intText n
  | text s => s

def hex (width : Nat) : Arg → String
  | num n =>
    if n < 0 then "-" ++ Text.hexFilled (width - 1) n.natAbs else Text.hexFilled width n.natAbs
  | text s => s

end Arg

namespace Message

def all : List Message :=
  [usage, loadFailed, noClasses, classNotFound, methodNotFound, classList, methodList, promptClass,
    promptMethod, configFailed, configWritten, cacheDisabled, stats, stageTime, summary,
    invalidSelector, malformed, invariant, unsupported, residualGoto, unresolved, overlappingTry,
    hintMalformed, hintInvariant, hintUnsupported, hintResidualGoto, hintLoopPolicy, hintUnresolved,
    hintDidYouMean]

def id : Message → String
  | usage => "cli.usage"
  | loadFailed => "cli.load_failed"
  | noClasses => "cli.no_classes"
  | classNotFound => "cli.class_not_found"
  | methodNotFound => "cli.method_not_found"
  | classList => "cli.class_list"
  | methodList => "cli.method_list"
  | promptClass => "cli.prompt_class"
  | promptMethod => "cli.prompt_method"
  | configFailed => "cli.config_failed"
  | configWritten => "cli.config_written"
  | cacheDisabled => "cli.cache_disabled"
  | stats => "cli.stats"
  | stageTime => "cli.stage_time"
  | summary => "cli.summary"
  | invalidSelector => "cli.invalid_selector"
  | malformed => "diag.malformed"
  | invariant => "diag.invariant"
  | unsupported => "diag.unsupported"
  | residualGoto => "diag.residual_goto"
  | unresolved => "diag.unresolved"
  | overlappingTry => "diag.overlapping_try"
  | hintMalformed => "hint.malformed"
  | hintInvariant => "hint.invariant"
  | hintUnsupported => "hint.unsupported"
  | hintResidualGoto => "hint.residual_goto"
  | hintLoopPolicy => "hint.loop_policy"
  | hintUnresolved => "hint.unresolved"
  | hintDidYouMean => "hint.did_you_mean"

def ofId? (id : String) : Option Message := all.find? (·.id == id)

def english : Message → String
  | usage => "usage: dexdec [flags] file.smali|dir ..."
  | loadFailed => "failed to load %s: %v"
  | noClasses => "no classes loaded"
  | classNotFound => "class not found: %s"
  | methodNotFound => "method not found: %s"
  | classList => "Classes:"
  | methodList => "Methods of %s:"
  | promptClass => "class (name fragment, * for all, empty to quit)> "
  | promptMethod => "method (index or name, * for all, empty to go back)> "
  | configFailed => "failed to load config %s: %v"
  | configWritten => "default configuration written to %s"
  | cacheDisabled => "cache disabled: %v"
  | stats => "%d methods, %d failed, %d gotos, %d cache hits"
  | stageTime => "%-14s %8d calls %12s"
  | summary => "%d error(s), %d warning(s)"
  | invalidSelector => "invalid selection: %s"
  | malformed => "malformed bytecode: %v"
  | invariant => "internal invariant violated: %v"
  | unsupported => "unsupported instruction: %v"
  | residualGoto => "%d jump(s) could not be structured and were emitted as goto"
  | unresolved => "unresolved reference %s"
  | overlappingTry => "try ranges overlap at %04x"
  | hintMalformed => "the method body is skipped; other methods of the class are still decompiled"
  | hintInvariant => "this is a decompiler bug, please report the method together with its bytecode"
  | hintUnsupported => "only a subset of the Dalvik instruction set is lowered"
  | hintResidualGoto =>
    "the control flow graph is irreducible or uses jumps that have no structured form"
  | hintLoopPolicy => "try structure.loop_policy = \"posttest-first\" in the configuration"
  | hintUnresolved => "the referenced member is not declared in the loaded class"
  | hintDidYouMean => "did you mean %s?"

def chinese : Message → String
  | usage => "用法: dexdec [选项] 文件.smali|目录 ..."
  | loadFailed => "加载 %s 失败: %v"
  | noClasses => "没有加载任何类"
  | classNotFound => "找不到类: %s"
  | methodNotFound => "找不到方法: %s"
  | classList => "类列表:"
  | methodList => "%s 的方法:"
  | promptClass => "类（名称片段，* 表示全部，空行退出）> "
  | promptMethod => "方法（序号或名称，* 表示全部，空行返回）> "
  | configFailed => "加载配置 %s 失败: %v"
  | configWritten => "默认配置已写入 %s"
  | cacheDisabled => "缓存已禁用: %v"
  | stats => "%d 个方法，%d 个失败，%d 个 goto，缓存命中 %d 次"
  | stageTime => "%-14s %8d 次 %12s"
  | summary => "%d 个错误，%d 个警告"
  | invalidSelector => "无效的选择: %s"
  | malformed => "字节码格式错误: %v"
  | invariant => "内部不变量被破坏: %v"
  | unsupported => "不支持的指令: %v"
  | residualGoto => "%d 处跳转无法结构化，以 goto 输出"
  | unresolved => "无法解析的引用 %s"
  | overlappingTry => "try 范围在 %04x 处重叠"
  | hintMalformed => "跳过该方法体，类中的其他方法仍会反编译"
  | hintInvariant => "这是反编译器的缺陷，请连同字节码一起报告该方法"
  | hintUnsupported => "目前只翻译 Dalvik 指令集的一个子集"
  | hintResidualGoto => "控制流图不可归约，或者存在没有结构化形式的跳转"
  | hintLoopPolicy => "可以在配置中尝试 structure.loop_policy = \"posttest-first\""
  | hintUnresolved => "被引用的成员没有在已加载的类中声明"
  | hintDidYouMean => "是否是指 %s？"

def template : Language → Message → String
  | .english, m => m.english
  | .chinese, m => m.chinese

/-- A mark in a template: which side is filled with blanks up to a width, and whether the number is
written in hexadecimal. -/
structure Mark where
  toLeft : Bool
  width : Nat
  hex : Bool
  deriving DecidableEq, Repr, Inhabited

def Mark.read (cs : List Char) : Mark × List Char :=
  let toLeft := cs.head? == some '-'
  let cs := if toLeft then cs.drop 1 else cs
  let digits := cs.takeWhile Text.isDecimalDigit
  let rest := cs.dropWhile Text.isDecimalDigit
  (⟨toLeft, (Text.readDigits? 10 digits).getD 0, rest.head? == some 'x'⟩, rest.drop 1)

def Mark.apply (m : Mark) (a : Arg) : String :=
  if m.hex then a.hex m.width
  else if m.toLeft then Text.padRight m.width a.plain
  else Text.padLeft m.width a.plain

def fillChars : Nat → List Char → List Arg → String
  | 0, _, _ => ""
  | _, [], _ => ""
  | fuel + 1, '%' :: rest, args =>
    let (mark, rest) := Mark.read rest
    ((args.head?.map mark.apply).getD "") ++ fillChars fuel rest args.tail
  | fuel + 1, c :: rest, args => c.toString ++ fillChars fuel rest args

def text (lang : Language) (m : Message) (args : List Arg) : String :=
  let t := m.template lang
  if args.isEmpty then t else fillChars t.length t.toList args

def textOfId (lang : Language) (id : String) (args : List Arg) : String :=
  match ofId? id with
  | some m => m.text lang args
  | none => id

end Message

end RegCode
