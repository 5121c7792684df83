import YamlQuery.Text.Escape
import YamlQuery.Number.Shortest
import YamlQuery.Value.Basic
/-!
JSON text, in one line or with a line for every item.
-/
namespace YamlQuery.JsonValue

def escapeChar (c : Char) : List Char :=
  match c with
  | '"' => ['\\', '"']
  | '\\' => ['\\', '\\']
  | '\x08' => ['\\', 'b']
  | '\x0c' => ['\\', 'f']
  | '\n' => ['\\', 'n']
  | '\r' => ['\\', 'r']
  | '\t' => ['\\', 't']
  | c => if c.toNat < 0x20 then '\\' :: 'u' :: Escape.hexDigits 4 c.toNat else [c]

def quote (text : String) : String := "\"" ++ String.ofList (text.toList.flatMap escapeChar) ++ "\""

def exponentStyle : Binary64.ExponentStyle := ⟨true, 2⟩

def scalarText : ScalarValue → String
  | .null => "null"
  | .bool b => if b then "true" else "false"
  | .int n => toString n.toInt
  | .float x => x.text exponentStyle
  | .string text => quote text

mutual

def compact : JsonValue → String
  | scalar v => scalarText v
  | array items => "[" ++ ",".intercalate (compactItems items) ++ "]"
  | object fields => "\x7b" ++ ",".intercalate (compactFields fields) ++ "\x7d"

def compactItems : List JsonValue → List String
  | [] => []
  | v :: vs => compact v :: compactItems vs

def compactFields : List (String × JsonValue) → List String
  | [] => []
  | (k, v) :: fs => (quote k ++ ":" ++ compact v) :: compactFields fs

end

def indentText (depth : Nat) : String := String.ofList (List.replicate (2 * depth) ' ')

def bracketLines (opening closing : String) (depth : Nat) (items : List String) : String :=
  if items.isEmpty then opening ++ closing
  else opening ++ "\n" ++ ",\n".intercalate (items.map (indentText (depth + 1) ++ ·)) ++ "\n" ++
    indentText depth ++ closing

mutual

def pretty (depth : Nat) : JsonValue → String
  | scalar v => scalarText v
  | array items => bracketLines "[" "]" depth (prettyItems (depth + 1) items)
  | object fields => bracketLines "\x7b" "\x7d" depth (prettyFields (depth + 1) fields)

def prettyItems (depth : Nat) : List JsonValue → List String
  | [] => []
  | v :: vs => pretty depth v :: prettyItems depth vs

def prettyFields (depth : Nat) : List (String × JsonValue) → List String
  | [] => []
  | (k, v) :: fs => (quote k ++ ": " ++ pretty depth v) :: prettyFields depth fs

end

end YamlQuery.JsonValue
