import YamlQuery.Path.Expr
/-!
How a combinator merges the results of its operands. Operands are evaluated from left to right, and no further than
needed to know the outcome; duplicates are kept.
-/
namespace YamlQuery.Path.Combinator

variable {m : Type → Type} [Monad m] {γ α : Type}

def union (eval : γ → List α → m (List α)) (input : List α) : List γ → m (List α)
  | [] => return []
  | c :: cs => do
    let here ← eval c input
    return here ++ (← union eval input cs)

/-- Each operand on the results of the one before; none is evaluated on an empty list. -/
def thread (eval : γ → List α → m (List α)) : List α → List γ → m (List α)
  | input, [] => return input
  | input, c :: cs => if input.isEmpty then return input else do thread eval (← eval c input) cs

def firstNonEmpty (eval : γ → List α → m (List α)) (input : List α) : List γ → m (List α)
  | [] => return []
  | c :: cs => do
    let here ← eval c input
    if here.isEmpty then firstNonEmpty eval input cs else return here

def allOrNothing (eval : γ → List α → m (List α)) (input : List α) : List α → List γ → m (List α)
  | last, [] => return last
  | _, c :: cs => do
    let here ← eval c input
    if here.isEmpty then return [] else allOrNothing eval input here cs

def merge (c : Combinator) (operands : List γ) (input : List α) (eval : γ → List α → m (List α)) : m (List α) :=
  match c with
  | multi => union eval input operands
  | chain => thread eval input operands
  | or => firstNonEmpty eval input operands
  | and => allOrNothing eval input [] operands

end YamlQuery.Path.Combinator
