import YamlQuery.Value.Scalar
/-!
Values for output. A YAML value keeps mappings in order, with any value as key; a JSON value has text as keys, in
ascending order.
-/
namespace YamlQuery

inductive YamlValue
  | scalar (v : ScalarValue)
  | sequence (items : List YamlValue)
  | mapping (pairs : List (YamlValue × YamlValue))

inductive JsonValue
  | scalar (v : ScalarValue)
  | array (items : List JsonValue)
  | object (fields : List (String × JsonValue))

namespace ScalarValue

/-- Equality of values: floats compare as numbers, an integer is no float. -/
def same : ScalarValue → ScalarValue → Bool
  | float x, float y => x.same y
  | a, b => a == b

end ScalarValue

namespace YamlValue

mutual

def same : YamlValue → YamlValue → Bool
  | scalar a, scalar b => a.same b
  | sequence xs, sequence ys => sameItems xs ys
  | mapping xs, mapping ys => xs.length == ys.length && within xs ys
  | _, _ => false

def sameItems : List YamlValue → List YamlValue → Bool
  | [], [] => true
  | x :: xs, y :: ys => same x y && sameItems xs ys
  | _, _ => false

def within : List (YamlValue × YamlValue) → List (YamlValue × YamlValue) → Bool
  | [], _ => true
  | (k, v) :: xs, ys => ys.any (fun p => same k p.1 && same v p.2) && within xs ys

end

def insert (pairs : List (YamlValue × YamlValue)) (key value : YamlValue) : List (YamlValue × YamlValue) :=
  match pairs with
  | [] => [(key, value)]
  | p :: rest => if p.1.same key then (p.1, value) :: rest else p :: insert rest key value

def ofPairs (pairs : List (YamlValue × YamlValue)) : YamlValue :=
  mapping (pairs.foldl (fun m p => insert m p.1 p.2) [])

end YamlValue

namespace JsonValue

def insert (fields : List (String × JsonValue)) (key : String) (value : JsonValue) : List (String × JsonValue) :=
  match fields with
  | [] => [(key, value)]
  | f :: rest =>
    if key < f.1 then (key, value) :: f :: rest
    else if f.1 = key then (key, value) :: rest
    else f :: insert rest key value

def ofFields (fields : List (String × JsonValue)) : JsonValue :=
  object (fields.foldl (fun m f => insert m f.1 f.2) [])

def ofScalar : ScalarValue → JsonValue
  | .float x => scalar (if x.isFinite then .float x else .null)
  | v => scalar v

end JsonValue
end YamlQuery
