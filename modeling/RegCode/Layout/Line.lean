import RegCode.Text.Cut

/-! Source text as lines with a depth each, and the options of their layout. -/
namespace RegCode.Layout

structure Options where
  tabs : Bool := false
  indent : Nat := 4
  braceOnNewLine : Bool := false
  chainElseIf : Bool := true
  showCode : Bool := false
  trimLines : Bool := true
  endWithNewline : Bool := true
  deriving DecidableEq, Repr, Inhabited

def Options.unit (o : Options) : String := if o.tabs then "\t" else Text.copies o.indent " "

structure Line where
  depth : Nat
  text : String
  deriving DecidableEq, Repr, Inhabited

namespace Line

def blank : Line := ⟨0, ""⟩

def render (o : Options) (l : Line) : String := Text.copies l.depth o.unit ++ l.text ++ "\n"

end Line

def opening (o : Options) (depth : Nat) (head : String) : List Line :=
  if o.braceOnNewLine then [⟨depth, head⟩, ⟨depth, "\x7b"⟩] else [⟨depth, head ++ " \x7b"⟩]

def closing (depth : Nat) (tail : String) : List Line := [⟨depth, "\x7d" ++ tail⟩]

def closingBefore (o : Options) (depth : Nat) : List Line :=
  if o.braceOnNewLine then closing depth "" else []

def nextHead (o : Options) (head : String) : String :=
  if o.braceOnNewLine then head else "\x7d " ++ head

def reopening (o : Options) (depth : Nat) (head : String) : List Line :=
  closingBefore o depth ++ opening o depth (nextHead o head)

def trimLineEnds (s : String) : String :=
  let trim (l : String) : String :=
    String.ofList ((l.toList.reverse.dropWhile fun c => c == ' ' || c == '\t').reverse)
  "\n".intercalate ((Text.pieces '\n' s).map trim)

def finish (o : Options) (s : String) : String :=
  let s := if o.trimLines then trimLineEnds s else s
  if o.endWithNewline && s != "" && !Text.endsWith "\n" s then s ++ "\n" else s

def render (o : Options) (ls : List Line) : String :=
  finish o (String.join (ls.map (Line.render o)))

end RegCode.Layout
