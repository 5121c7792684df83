import YamlQuery.Value.Basic
import YamlQuery.Value.YamlScalar
/-!
YAML text in block style. A writer keeps track of the column and of what stands on the line so far, so that a
collection can begin on the line of the indicator before it.
-/
namespace YamlQuery.YamlText

structure Writer where
  text : String := ""
  column : Nat := 0
  spaced : Bool := true
  /-- The line has nothing but indentation and indicators so far. -/
  fresh : Bool := true

namespace Writer

def put (w : Writer) (c : Char) : Writer := { w with text := w.text.push c, column := w.column + 1 }

def putAll (w : Writer) (cs : List Char) : Writer := cs.foldl put w

def putBreak (w : Writer) (c : Char) : Writer := { w with text := w.text.push c, column := 0 }

def goTo (w : Writer) (indent : Nat) : Writer :=
  let w := if !w.fresh || w.column > indent || (w.column = indent && !w.spaced) then w.putBreak '\n' else w
  { w.putAll (List.replicate (indent - w.column) ' ') with spaced := true, fresh := true }

def indicator (w : Writer) (cs : List Char) (needsSpace spaced fresh : Bool) : Writer :=
  let w := if needsSpace && !w.spaced then w.put ' ' else w
  { w.putAll cs with spaced := spaced, fresh := w.fresh && fresh }

def plain (w : Writer) (cs : List Char) : Writer :=
  let w := if !w.spaced && !cs.isEmpty then w.put ' ' else w
  { w.putAll cs with spaced := false, fresh := false }

/-- The lines of a text at an indentation: every line that is not empty is indented. `atStart` says that the next
character is the first of its line. -/
def lines (indent : Nat) (char : Char → List Char) (w : Writer) (atStart : Bool) : List Char → Writer × Bool
  | [] => (w, atStart)
  | c :: cs =>
    if isBreak c then lines indent char { w.putBreak c with fresh := true } true cs
    else
      let w := if atStart then w.goTo indent else w
      lines indent char { w.putAll (char c) with fresh := false } false cs

def singleQuoted (w : Writer) (indent : Nat) (cs : List Char) : Writer :=
  let w := w.indicator ['\''] true false false
  let (w, atStart) := w.lines indent (fun c => if c = '\'' then ['\'', '\''] else [c]) false cs
  let w := if atStart then w.goTo indent else w
  { w.indicator ['\''] false false false with spaced := false, fresh := false }

def doubleQuoted (w : Writer) (cs : List Char) : Writer :=
  let w := w.indicator ['"'] true false false
  let w := w.putAll (cs.flatMap quotedChar)
  { w.indicator ['"'] false false false with spaced := false, fresh := false }

/-- The signs behind a block indicator: the indentation, where the text itself starts with a gap, and what becomes of
the breaks at its end. -/
def blockHints (cs : List Char) : List Char :=
  let first := match cs.head? with
    | some c => if c = ' ' || isBreak c then ['2'] else []
    | none => []
  let last := match cs.reverse with
    | [] => ['-']
    | [c] => if isBreak c then ['+'] else ['-']
    | c :: d :: _ => if !isBreak c then ['-'] else if isBreak d then ['+'] else []
  first ++ last

def literal (w : Writer) (indent : Nat) (cs : List Char) : Writer :=
  let w := (w.indicator ['|'] true false false).indicator (blockHints cs) false false false
  let w := { w.putBreak '\n' with spaced := true, fresh := true }
  (w.lines indent (fun c => [c]) true cs).1

def scalar (w : Writer) (indent : Nat) (v : ScalarValue) : Writer :=
  let (text, style) := scalarText v
  let cs := text.toList
  match style with
  | .plain => w.plain cs
  | .singleQuoted => w.singleQuoted indent cs
  | .doubleQuoted => w.doubleQuoted cs
  | .literal | .folded => w.literal indent cs

end Writer

def maxSimpleKey : Nat := 128

def isSimpleKey : YamlValue → Bool
  | .scalar v =>
    let text := (scalarText v).1
    !(text.toList.any isBreak) && text.utf8ByteSize ≤ maxSimpleKey
  | .sequence items => items.isEmpty
  | .mapping pairs => pairs.isEmpty

def step : Nat := 2

def nested : Option Nat → Nat
  | none => 0
  | some n => n + step

def continued : Option Nat → Nat
  | none => step
  | some n => n + step

mutual

/-- Writes a value inside a collection indented to `indent`. A sequence right behind a simple key stays at the
indentation of the key. -/
def write (indent : Option Nat) (inMapping : Bool) (w : Writer) : YamlValue → Writer
  | .scalar v => w.scalar (continued indent) v
  | .sequence items =>
    if items.isEmpty then (w.indicator ['['] true true false).indicator [']'] false false false
    else writeItems (if inMapping && !w.fresh then indent.getD 0 else nested indent) w items
  | .mapping pairs =>
    if pairs.isEmpty then (w.indicator ['\x7b'] true true false).indicator ['\x7d'] false false false
    else writePairs (nested indent) w pairs

def writeItems (indent : Nat) (w : Writer) : List YamlValue → Writer
  | [] => w
  | v :: vs =>
    let w := (w.goTo indent).indicator ['-'] true false true
    writeItems indent (write (some indent) false w v) vs

def writePairs (indent : Nat) (w : Writer) : List (YamlValue × YamlValue) → Writer
  | [] => w
  | (k, v) :: ps =>
    let w := w.goTo indent
    let w :=
      if isSimpleKey k then (write (some indent) true w k).indicator [':'] false false false
      else
        let w := write (some indent) true (w.indicator ['?'] true false true) k
        (w.goTo indent).indicator [':'] true false true
    writePairs indent (write (some indent) true w v) ps

end

def ofValue (v : YamlValue) : String := ((write none false {} v).goTo 0).text

end YamlQuery.YamlText
