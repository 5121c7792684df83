import YamlQuery.Number.Power
import YamlQuery.Text.Integer
import YamlQuery.Settings.Basic
/-!
The arguments of the command: a path expression, a file, and options before, between or after them.
-/
namespace YamlQuery.Command

inductive Flag
  | noFollowAliases
  | json
  | paths
  | dump
  deriving DecidableEq

inductive Setting
  | maxDepth (n : Nat)
  | format (f : OutputFormat)
  | config (path : String)

inductive ValueOption
  | maxDepth
  | format
  | config
  deriving DecidableEq

inductive Named
  | flag (f : Flag)
  | value (v : ValueOption)
  | help
  | version

def longName? : String → Option Named
  | "no-follow-aliases" => some (.flag .noFollowAliases)
  | "max-depth" => some (.value .maxDepth)
  | "format" => some (.value .format)
  | "json" => some (.flag .json)
  | "paths" => some (.flag .paths)
  | "dump" => some (.flag .dump)
  | "config" => some (.value .config)
  | "help" => some .help
  | "version" => some .version
  | _ => none

def shortName? : Char → Option Named
  | 'f' => some (.value .format)
  | 'p' => some (.flag .paths)
  | 'h' => some .help
  | 'V' => some .version
  | _ => none

def maxLimit : Nat := twoTo 64 - 1

def limit? (s : String) : Option Nat :=
  let n := match s.toList with
    | '+' :: cs => Integer.nat? 10 cs
    | cs => Integer.nat? 10 cs
  n.filter (· ≤ maxLimit)

def ValueOption.read? (v : ValueOption) (s : String) : Option Setting :=
  match v with
  | maxDepth => (limit? s).map .maxDepth
  | format => (OutputFormat.ofName? s).map .format
  | config => some (.config s)

structure Request where
  expression : String
  file : Option String := none
  flags : List Flag := []
  maxDepth : Option Nat := none
  format : Option OutputFormat := none
  config : Option String := none

namespace Request

def has (r : Request) (f : Flag) : Bool := r.flags.contains f

def override (r : Request) (s : Settings) : Settings where
  followAliases := s.followAliases && !r.has .noFollowAliases
  maxDepth := r.maxDepth.getD s.maxDepth
  format := if r.has .json then .json else r.format.getD s.format
  showPaths := s.showPaths || r.has .paths

end Request

structure Given where
  positional : List String := []
  flags : List Flag := []
  maxDepth : Option Nat := none
  format : Option OutputFormat := none
  config : Option String := none

namespace Given

def position? (g : Given) (s : String) : Option Given :=
  if g.positional.length < 2 then some { g with positional := g.positional ++ [s] } else none

def flag? (g : Given) (f : Flag) : Option Given :=
  if g.flags.contains f then none else some { g with flags := g.flags ++ [f] }

def value? (g : Given) (v : ValueOption) (s : String) : Option Given := do
  match ← v.read? s with
  | .maxDepth n => if g.maxDepth.isSome then none else some { g with maxDepth := some n }
  | .format f => if g.format.isSome then none else some { g with format := some f }
  | .config p => if g.config.isSome then none else some { g with config := some p }

def request? (g : Given) : Option Request := do
  let expression ← g.positional.head?
  if g.flags.contains .json ∧ g.format.isSome then none
  return ⟨expression, g.positional[1]?, g.flags, g.maxDepth, g.format, g.config⟩

end Given

inductive Invocation
  | query (r : Request)
  | help
  | version

inductive Next
  | go (g : Given)
  | value (g : Given) (v : ValueOption)
  | stop (i : Invocation)

/-- Short options written together; one with a value takes the rest as its value, behind an equals sign or not. -/
def cluster? (g : Given) : List Char → Option Next
  | [] => some (.go g)
  | c :: cs =>
    match shortName? c with
    | none => none
    | some .help => some (.stop .help)
    | some .version => some (.stop .version)
    | some (.flag f) => (g.flag? f).bind fun g => cluster? g cs
    | some (.value v) =>
      match cs with
      | [] => some (.value g v)
      | '=' :: cs => (g.value? v (String.ofList cs)).map .go
      | cs => (g.value? v (String.ofList cs)).map .go

def long? (g : Given) (cs : List Char) : Option Next := do
  let name := cs.takeWhile (· ≠ '=')
  let attached := cs.drop name.length
  match ← longName? (String.ofList name), attached with
  | .value v, '=' :: value => (g.value? v (String.ofList value)).map .go
  | .value v, [] => some (.value g v)
  | .flag f, [] => (g.flag? f).map .go
  | .help, [] => some (.stop .help)
  | .version, [] => some (.stop .version)
  | _, _ => none

def isOption (s : String) : Bool := s.startsWith "-" && s ≠ "-"

def argument? (g : Given) (s : String) : Option Next :=
  match s.toList with
  | '-' :: '-' :: cs => long? g cs
  | '-' :: c :: cs => cluster? g (c :: cs)
  | _ => (g.position? s).map .go

/-- Reads all arguments from the left; none if they are not understood. A value that is still due is `pending`. Behind
two dashes every argument is positional. -/
def readFrom? (pending : Option ValueOption) (g : Given) : List String → Option Invocation
  | [] => if pending.isSome then none else g.request?.map .query
  | s :: rest =>
    match pending with
    | some v => if isOption s then none else (g.value? v s).bind fun g => readFrom? none g rest
    | none =>
      if s = "--" then (rest.foldlM Given.position? g).bind fun g => g.request?.map .query
      else
        match argument? g s with
        | none => none
        | some (.go g) => readFrom? none g rest
        | some (.value g v) => readFrom? (some v) g rest
        | some (.stop i) => some i

def Invocation.read? (args : List String) : Option Invocation := readFrom? none {} args

end YamlQuery.Command
