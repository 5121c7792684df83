import YamlQuery.Value.YamlText
import YamlQuery.Path.OfNode
import YamlQuery.Path.Query
import YamlQuery.Settings.File
import YamlQuery.Source.Load
import YamlQuery.Command.Arguments
/-!
The command: settings, then the expression, then the document, then its matches.
-/
namespace YamlQuery.Command

structure Host (m : Type → Type) where
  file : String → m (Option (List UInt8))
  homeSettings : m (Option (List UInt8))
  atTerminal : m Bool
  input : m (List UInt8)

inductive Outcome
  | printed (text : String)
  | failed (message : String) (cause : Option String)
  | rejected
  deriving DecidableEq

def Outcome.exitCode : Outcome → Nat
  | printed _ => 0
  | failed .. => 1
  | rejected => 2

def yamlOutput (values : List YamlValue) : String :=
  let head := if values.length > 1 then "---\n" else ""
  String.join (values.map fun v => head ++ YamlText.ofValue v)

def output (s : Settings) (d : Document) (found : List NodeId) : String :=
  if s.showPaths then String.join (found.map fun id => d.pathOf id ++ "\n")
  else match s.format with
    | .json => (JsonValue.array (found.map d.jsonValue)).pretty 0 ++ "\n"
    | .yaml => yamlOutput (found.map d.yamlValue)

def usage : String :=
  "Usage: ypath [OPTIONS] <EXPRESSION> [FILE]\n"

def help : String :=
  "Run a path query against a YAML document\n\n" ++ usage ++
  "\nArguments:\n" ++
  "  <EXPRESSION>  Path expression, e.g. /servers/*/host\n" ++
  "  [FILE]        YAML file to query (omit or use \"-\" to read from stdin)\n" ++
  "\nOptions:\n" ++
  "      --no-follow-aliases  Report aliases as aliases instead of their anchored nodes\n" ++
  "      --max-depth <N>      Evaluation depth limit\n" ++
  "  -f, --format <FORMAT>    Output format for matched nodes [possible values: yaml, json]\n" ++
  "      --json               Shorthand for --format json\n" ++
  "  -p, --paths              Print the path of each match instead of its content\n" ++
  "      --dump               Print the compiled expression tree and exit\n" ++
  "      --config <PATH>      Read settings from this file instead of ~/.config/ypath/config.toml\n" ++
  "  -h, --help               Print help\n" ++
  "  -V, --version            Print version\n"

def version : String := "ypath 0.1.0\n"

def evaluate (s : Settings) (expression : String) (p : Path.Parsed) (d : Document) : Outcome :=
  match d.root with
  | none => .printed ""
  | some root =>
    match p.expr.execute d root s.evalOptions with
    | .ok found => .printed (output s d found)
    | .error e => .failed ("Failed to evaluate '" ++ expression ++ "'") (some e.message)

variable {m : Type → Type} [Monad m]

/-- The settings of a request: a file that is named must be right, the one at home need not. -/
def settings (host : Host m) (r : Request) : m (Except Settings.LoadError Settings) := do
  match r.config with
  | some path => return (Settings.load path (← host.file path)).map r.override
  | none => return .ok (r.override (Settings.loadOrDefault (← host.homeSettings)))

def document (host : Host m) (r : Request) : m (Except String Document) := do
  match r.file with
  | some "-" => return (Source.loadInput (← host.input)).mapError (·.message)
  | some name => return (Source.loadFile name (← host.file name)).mapError (·.message)
  | none =>
    if ← host.atTerminal then return .error "No input: pass a YAML file or pipe a document on stdin"
    else return (Source.loadInput (← host.input)).mapError (·.message)

def runRequest (host : Host m) (r : Request) : m Outcome := do
  match ← settings host r with
  | .error e => return .failed e.message none
  | .ok s =>
    match Path.Parsed.ofText r.expression with
    | .error e => return .failed ("Invalid path expression '" ++ r.expression ++ "'") (some e.message)
    | .ok p =>
      if r.has .dump then return .printed p.expr.display
      else
        match ← document host r with
        | .error message => return .failed message none
        | .ok d => return evaluate s r.expression p d

def run (host : Host m) (args : List String) : m Outcome := do
  match Invocation.read? args with
  | none => return .rejected
  | some .help => return .printed help
  | some .version => return .printed version
  | some (.query r) => runRequest host r

end YamlQuery.Command
