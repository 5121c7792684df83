import YamlQuery.Text.Utf8
import YamlQuery.Gzip.Member
import YamlQuery.Document.Read
/-!
Loading documents from files and from standard input. Files are unpacked if their name says so, standard input if it
starts like a gzip file.
-/
namespace YamlQuery.Source

inductive LoadError
  | unreadable (name : String)
  | unopened
  | damagedFile
  | damagedInput
  | inputNotText
  | malformed (e : Yaml.SyntaxError)
  | malformedInput (e : Yaml.SyntaxError)
  deriving DecidableEq

def LoadError.message : LoadError → String
  | unreadable name => "Failed to read file " ++ name
  | unopened => "Failed to open gzipped file"
  | damagedFile => "Failed to decompress gzipped file - file may be corrupted"
  | damagedInput => "Failed to decompress gzipped input"
  | inputNotText => "Invalid UTF-8 in input"
  | malformed _ => "Failed to parse YAML"
  | malformedInput _ => "Failed to parse YAML from stdin"

def segments (path : String) : List String := (path.splitOn "/").filter fun s => s ≠ "" ∧ s ≠ "."

/-- The part of a file name after its last dot. A name with no dot, or none but the first character, has none. -/
def extension? (path : String) : Option String := do
  let name ← (segments path).getLast?
  if name = ".." then none
  let after := name.toList.reverse.takeWhile (· ≠ '.')
  if after.length + 1 < name.length then some (String.ofList after.reverse) else none

def namesGzip (path : String) : Bool := extension? path = some "gz"

def unpack? (bytes : List UInt8) : Option String := (Gzip.decompress? bytes).bind Utf8.text?

def inputText (bytes : List UInt8) : Except LoadError String :=
  if Gzip.hasMagic bytes then
    match unpack? bytes with
    | some text => .ok text
    | none => .error .damagedInput
  else match Utf8.text? bytes with
    | some text => .ok text
    | none => .error .inputNotText

def fileText (name : String) (contents : Option (List UInt8)) : Except LoadError String :=
  if namesGzip name then
    match contents with
    | none => .error .unopened
    | some bytes =>
      match unpack? bytes with
      | some text => .ok text
      | none => .error .damagedFile
  else match contents.bind Utf8.text? with
    | some text => .ok text
    | none => .error (.unreadable name)

def parse (text : String) : Except LoadError Document := (Document.read text).mapError .malformed

def loadFile (name : String) (contents : Option (List UInt8)) : Except LoadError Document :=
  (fileText name contents).bind parse

def loadInput (bytes : List UInt8) : Except LoadError Document := do
  let text ← inputText bytes
  (Document.read text).mapError .malformedInput

end YamlQuery.Source
