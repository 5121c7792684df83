import YamlQuery.Text.Integer
import YamlQuery.Number.Binary64
import YamlQuery.Document.Basic
/-!
The typed value of a scalar. Quoted scalars and those tagged as strings are strings; a plain one is null, a boolean, an
integer or a float where its text is written like one.
-/
namespace YamlQuery

inductive ScalarValue
  | null
  | bool (b : Bool)
  | int (n : Int64)
  | float (x : Binary64)
  | string (text : String)
  deriving DecidableEq

namespace ScalarValue
open CharClass

/-- An integer behind a sign or radix of its own: hexadecimal, octal, or a plus sign. What follows may have another
sign. -/
def marked? : List Char → Option Int64
  | '0' :: 'x' :: cs => Integer.int64? 16 cs
  | '0' :: 'o' :: cs => Integer.int64? 8 cs
  | '+' :: cs => Integer.int64? 10 cs
  | _ => none

def word? (text : String) : Option ScalarValue :=
  if text = "" || text = "~" || text = "null" then some .null
  else if text = "true" || text = "True" || text = "TRUE" then some (.bool true)
  else if text = "false" || text = "False" || text = "FALSE" then some (.bool false)
  else none

def float? (text : String) : Option Binary64 :=
  if [".inf", ".Inf", ".INF", "+.inf", "+.Inf", "+.INF"].contains text then some .positiveInfinity
  else if ["-.inf", "-.Inf", "-.INF"].contains text then some .negativeInfinity
  else if [".nan", ".NaN", ".NAN"].contains text then some .nan
  else if text.toList.any isDigit then Binary64.ofText? text.toList
  else none

def ofPlain (text : String) : ScalarValue :=
  let cs := text.toList
  match marked? cs with
  | some n => .int n
  | none =>
    match word? text with
    | some v => v
    | none =>
      match Integer.int64? 10 cs with
      | some n => .int n
      | none =>
        match float? text with
        | some x => .float x
        | none => .string text

def isStringTag (tag : String) : Bool := tag.endsWith ":str" || tag == "!"

def resolve (text : String) (style : ScalarStyle) (tag : Option String) : ScalarValue :=
  if style = .plain && !(tag.map isStringTag).getD false then ofPlain text else .string text

end ScalarValue
end YamlQuery
