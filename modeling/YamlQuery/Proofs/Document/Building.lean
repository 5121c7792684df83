import YamlQuery.Document.OfEvents
import YamlQuery.Proofs.Document.Edits
/-!
Building a document from events takes three kinds of changes: a node that holds nothing yet is added with its anchor and
tag, a collection is filled, and a node becomes the root. What all of them keep holds of the document of any events.
-/
namespace YamlQuery.Assembly
open Yaml

variable {P : Document → Prop} {names : List String} {a : Assembly}

theorem keeps_attach (hroot : ∀ d id, P d → P (d.setRoot id)) (h : P a.doc) (id : NodeId) : P (attach id a).doc := by
  unfold attach
  split
  · split
    · exact hroot a.doc id h
    · exact h
  · exact h
  · exact h
  · exact h

theorem keeps_close (hroot : ∀ d id, P d → P (d.setRoot id)) (hfill : ∀ d id c, P d → P (d.fill id c)) (h : P a.doc) :
    P a.close.doc := by
  unfold close
  split
  · exact h
  · exact keeps_attach hroot (hfill _ _ _ h) _
  · exact keeps_attach hroot (hfill _ _ _ h) _

section
variable (hadd : ∀ (d : Document) (c : Content) (anchor : AnchorId) (tag : Option Tag), c.members = [] → P d →
    P (decorate names anchor tag d.size (d.add c)))
  (hroot : ∀ d id, P d → P (d.setRoot id)) (hfill : ∀ d id c, P d → P (d.fill id c))
include hadd hroot hfill

theorem keeps_take (h : P a.doc) (e : Event) : P (take names a e).doc := by
  unfold take
  split
  · exact h
  · cases e with
    | documentStart | documentEnd => exact h
    | scalar text style anchor tag => exact keeps_attach hroot (hadd a.doc (.scalar text style) anchor tag rfl h) _
    | reference anchor =>
      exact keeps_attach hroot (hadd a.doc (.reference (anchorName names anchor)) 0 none rfl h) _
    | sequenceStart anchor tag => exact hadd a.doc (.sequence []) anchor tag rfl h
    | mappingStart anchor tag => exact hadd a.doc (.mapping []) anchor tag rfl h
    | sequenceEnd | mappingEnd => exact keeps_close hroot hfill h

theorem keeps_run (h : P a.doc) (es : List Event) : P (es.foldl (take names) a).doc := by
  induction es generalizing a with
  | nil => exact h
  | cons e es ih => exact ih (keeps_take hadd hroot hfill h e)

theorem keeps_ofEvents (h : P .empty) (es : List Event) : P (Document.ofEvents names es) :=
  keeps_run hadd hroot hfill (a := {}) h es

end

end YamlQuery.Assembly
