import YamlQuery.Path.Parse
import YamlQuery.Path.Eval
/-!
Queries: a path expression read from text and executed from the root of a document.
-/
namespace YamlQuery.Path

inductive QueryError
  | parse (e : ParseError)
  | eval (e : EvalError)

def QueryError.message : QueryError → String
  | parse e => "parse error: " ++ e.message
  | eval e => "execution error: " ++ e.message

def query (doc : Document) (text : String) : Except QueryError (List NodeId) :=
  match Parsed.ofText text with
  | .error e => .error (.parse e)
  | .ok p => (p.expr.executeAtRoot doc {}).mapError .eval

/-- The results of the last run of an expression, kept with the options it ran under. -/
structure Session where
  options : EvalOptions
  results : List NodeId := []

namespace Session

def execute (s : Session) (e : Expr) (doc : Document) (start : NodeId) : Session × Walk.Result :=
  let r := e.execute doc start s.options
  ({ s with results := match r with
      | .ok found => found
      | .error _ => [] }, r)

def takeResults (s : Session) : Session × List NodeId := ({ s with results := [] }, s.results)

def reset (s : Session) : Session := { s with results := [] }

end Session
end YamlQuery.Path
