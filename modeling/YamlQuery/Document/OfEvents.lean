import YamlQuery.Document.Basic
import YamlQuery.Yaml.Event
/-!
Building a document from events. A collection is added when it opens and filled when it closes, so ids follow the
order of the opening events.
-/
namespace YamlQuery
open Yaml

inductive Frame
  | sequence (id : NodeId) (items : List NodeId)
  | mapping (id : NodeId) (pairs : List (NodeId × NodeId)) (pendingKey : Option NodeId)

structure Assembly where
  doc : Document := .empty
  frames : List Frame := []
  finished : Bool := false

namespace Assembly

/-- The name of an anchor by its number; one that the list does not reach is named after its number. -/
def anchorName (names : List String) (id : AnchorId) : String :=
  match id with
  | 0 => "anchor-0"
  | n + 1 => names.getD n s!"anchor-{n + 1}"

def decorate (names : List String) (anchor : AnchorId) (tag : Option Tag) (id : NodeId) (d : Document) : Document :=
  let named := if anchor > 0 then d.setAnchor id (anchorName names anchor) else d
  match tag with
  | some t => named.setTag id t.text
  | none => named

def attach (id : NodeId) (a : Assembly) : Assembly :=
  match a.frames with
  | [] => if a.doc.root.isNone then { a with doc := a.doc.setRoot id } else a
  | .sequence owner items :: fs => { a with frames := .sequence owner (id :: items) :: fs }
  | .mapping owner pairs none :: fs => { a with frames := .mapping owner pairs (some id) :: fs }
  | .mapping owner pairs (some key) :: fs => { a with frames := .mapping owner ((key, id) :: pairs) none :: fs }

def close (a : Assembly) : Assembly :=
  match a.frames with
  | [] => a
  | .sequence id items :: fs =>
    attach id { a with doc := a.doc.fill id (.sequence items.reverse), frames := fs }
  | .mapping id pairs _ :: fs =>
    attach id { a with doc := a.doc.fill id (.mapping pairs.reverse), frames := fs }

def take (names : List String) (a : Assembly) (e : Event) : Assembly :=
  if a.finished then a
  else
    let id := a.doc.size
    match e with
    | .documentStart => a
    | .documentEnd => { a with finished := true }
    | .scalar text style anchor tag =>
      attach id { a with doc := decorate names anchor tag id (a.doc.add (.scalar text style)) }
    | .reference anchor => attach id { a with doc := a.doc.add (.reference (anchorName names anchor)) }
    | .sequenceStart anchor tag =>
      { a with
        doc := decorate names anchor tag id (a.doc.add (.sequence []))
        frames := .sequence id [] :: a.frames }
    | .mappingStart anchor tag =>
      { a with
        doc := decorate names anchor tag id (a.doc.add (.mapping []))
        frames := .mapping id [] none :: a.frames }
    | .sequenceEnd | .mappingEnd => close a

end Assembly

def Document.ofEvents (names : List String) (events : List Event) : Document :=
  (events.foldl (Assembly.take names) {}).doc

end YamlQuery
