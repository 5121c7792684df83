/-!
What a TOML document holds: named items, some of which hold named items themselves. A table remembers how it came to
be, because that decides what may still be added to it.
-/
namespace YamlQuery.Toml

inductive Origin
  | implicit
  | dotted
  | stated
  deriving DecidableEq

inductive Item
  | string (text : String)
  | integer (n : Int64)
  | float
  | boolean (b : Bool)
  | moment
  | array (items : List Item)
  | inline (entries : List (String × Item))
  | table (origin : Origin) (entries : List (String × Item))
  /-- An array of tables: its last one can still grow. -/
  | tables (earlier : List (List (String × Item))) (last : List (String × Item))

abbrev Entries := List (String × Item)

namespace Entries

def replace (es : Entries) (key : String) (item : Item) : Entries :=
  es.map fun e => if e.1 = key then (key, item) else e

def add? (es : Entries) (key : String) (item : Item) : Option Entries :=
  if (es.lookup key).isSome then none else some (es ++ [(key, item)])

/-- Changes the table at the end of a path, and makes the tables that are missing on the way. Dotted keys may not lead
through a table that has a header. -/
def within (byDots : Bool) (f : Origin → Entries → Option Entries) : List String → Origin → Entries → Option Entries
  | [], origin, es => f origin es
  | key :: path, _, es =>
    match es.lookup key with
    | none =>
      let origin : Origin := if byDots then .dotted else .implicit
      (within byDots f path origin []).map fun inner => es ++ [(key, .table origin inner)]
    | some (.table origin inner) =>
      if byDots ∧ origin = .stated then none
      else (within byDots f path origin inner).map fun inner => es.replace key (.table origin inner)
    | some (.tables earlier last) =>
      (within byDots f path .stated last).map fun last => es.replace key (.tables earlier last)
    | some _ => none

def assign? (path : List String) (key : String) (item : Item) (es : Entries) : Option Entries :=
  within true (fun origin inner => if path ≠ [] ∧ origin ≠ .dotted then none else inner.add? key item) path .stated es

def assignUnder? (header path : List String) (key : String) (item : Item) (es : Entries) : Option Entries :=
  within false (fun _ inner => inner.assign? path key item) header .stated es

/-- Opens a table by its header. A table may have one header only, and none after keys with dots made it. -/
def openTable? (path : List String) (key : String) (es : Entries) : Option Entries :=
  within false (fun _ inner =>
    match inner.lookup key with
    | none => some (inner ++ [(key, .table .stated [])])
    | some (.table .implicit old) => some (inner.replace key (.table .stated old))
    | some _ => none) path .stated es

def openNext? (path : List String) (key : String) (es : Entries) : Option Entries :=
  within false (fun _ inner =>
    match inner.lookup key with
    | none => some (inner ++ [(key, .tables [] [])])
    | some (.tables earlier last) => some (inner.replace key (.tables (earlier ++ [last]) []))
    | some _ => none) path .stated es

end Entries
end YamlQuery.Toml
