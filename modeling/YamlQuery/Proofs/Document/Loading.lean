import YamlQuery.Proofs.Document.EventTree
/-!
Loading a well-nested stream of events gives the nodes that its tree describes.
-/
namespace YamlQuery
open Yaml

def Frame.receive (f : Frame) (id : NodeId) : Frame :=
  match f with
  | sequence owner items => sequence owner (id :: items)
  | mapping owner pairs none => mapping owner pairs (some id)
  | mapping owner pairs (some key) => mapping owner ((key, id) :: pairs) none

theorem Frame.receive_sequence (owner : NodeId) (items ids : List NodeId) :
    ids.foldl receive (sequence owner items) = sequence owner (ids.reverse ++ items) := by
  induction ids generalizing items with
  | nil => rfl
  | cons id ids ih =>
    rw [List.foldl_cons, receive, ih]
    simp

namespace Assembly

def attachAll (ids : List NodeId) (a : Assembly) : Assembly := ids.foldl (fun a id => attach id a) a

theorem attach_receive (id : NodeId) (d : Document) (f : Frame) (fs : List Frame) (finished : Bool) :
    attach id ⟨d, f :: fs, finished⟩ = ⟨d, f.receive id :: fs, finished⟩ := by
  cases f with
  | sequence => rfl
  | mapping _ _ key => cases key <;> rfl

theorem attachAll_receive (ids : List NodeId) (d : Document) (f : Frame) (fs : List Frame) (finished : Bool) :
    attachAll ids ⟨d, f :: fs, finished⟩ = ⟨d, ids.foldl Frame.receive f :: fs, finished⟩ := by
  unfold attachAll
  induction ids generalizing f with
  | nil => rfl
  | cons id ids ih => rw [List.foldl_cons, attach_receive, ih, List.foldl_cons]

end Assembly

namespace Document

def ofList (ns : List Node) (root : Option NodeId) (r : Registry) : Document := ⟨ns.toArray, root, r⟩

variable {root : Option NodeId} {r : Registry}

theorem size_ofList (ns : List Node) : (ofList ns root r).size = ns.length := rfl

theorem update_ofList (ns : List Node) (id : NodeId) (f : Node → Node) :
    (ofList ns root r).update id f = ofList (ns.modify id f) root r := by
  simp [ofList, update]

theorem add_ofList {c : Content} (h : c.members = []) (ns : List Node) :
    (ofList ns root r).add c = ofList (ns ++ [{ content := c }]) root r := by
  rw [add_eq_push h]
  simp [ofList]

theorem modify_middle (pre post : List Node) (n : Node) (f : Node → Node) :
    (pre ++ n :: post).modify pre.length f = pre ++ f n :: post := by
  induction pre with
  | nil => rfl
  | cons m pre ih => simp [ih]

end Document

namespace Yaml.Tree
open Document Assembly

variable {s : Shape} {names : List String}

/-- The parent is all that a node at the top takes from outside. -/
theorem nodes_node (names : List String) (t : Tree .node) (base : Nat) :
    ∃ (n : Node) (ns : List Node), n.parent = none ∧ ∀ parent,
      t.nodes names parent base = { n with parent := parent } :: ns := by
  cases t with
  | scalar text style anchor tag =>
    exact ⟨⟨.scalar text style, none, anchorOf? names anchor, tag.map Tag.text⟩, [], rfl, fun _ => rfl⟩
  | reference anchor => exact ⟨⟨.reference (anchorName names anchor), none, none, none⟩, [], rfl, fun _ => rfl⟩
  | sequence anchor tag items =>
    exact ⟨⟨.sequence (items.tops (base + 1)), none, anchorOf? names anchor, tag.map Tag.text⟩, _, rfl, fun _ => rfl⟩
  | mapping anchor tag pairs =>
    exact ⟨⟨.mapping (paired (pairs.tops (base + 1))), none, anchorOf? names anchor, tag.map Tag.text⟩, _, rfl,
      fun _ => rfl⟩

/-- Adopting the nodes at the top. -/
theorem adopt_tops (names : List String) (t : Tree s) (owner : NodeId) (pre post : List Node) (root : Option NodeId) (r : Registry) :
    (ofList (pre ++ (t.nodes names none pre.length ++ post)) root r).adopt owner (t.tops pre.length) =
      ofList (pre ++ (t.nodes names (some owner) pre.length ++ post)) root r := by
  have hnode : ∀ (t : Tree .node) (pre post : List Node),
      (ofList (pre ++ (t.nodes names none pre.length ++ post)) root r).adopt owner [pre.length] =
        ofList (pre ++ (t.nodes names (some owner) pre.length ++ post)) root r := by
    intro t pre post
    obtain ⟨n, ns, _, hn⟩ := t.nodes_node names pre.length
    simp [adopt, update_ofList, hn, modify_middle]
  have hcons : ∀ (d : Document) (id : NodeId) (ids : List NodeId),
      d.adopt owner (id :: ids) = (d.adopt owner [id]).adopt owner ids := fun _ _ _ => rfl
  have hfirst : ∀ {s : Shape} (first : Tree .node) (rest : Tree s) (pre : List Node),
      (∀ pre, (ofList (pre ++ (rest.nodes names none pre.length ++ post)) root r).adopt owner (rest.tops pre.length) =
        ofList (pre ++ (rest.nodes names (some owner) pre.length ++ post)) root r) →
      (ofList (pre ++ ((first.nodes names none pre.length ++ rest.nodes names none (pre.length + first.size)) ++ post))
          root r).adopt owner (pre.length :: rest.tops (pre.length + first.size)) =
        ofList (pre ++ ((first.nodes names (some owner) pre.length ++
          rest.nodes names (some owner) (pre.length + first.size)) ++ post)) root r := by
    intro s first rest pre ih
    have hlen : (pre ++ first.nodes names (some owner) pre.length).length = pre.length + first.size := by
      simp [length_nodes]
    have hrest := ih (pre ++ first.nodes names (some owner) pre.length)
    rw [hlen] at hrest
    rw [hcons, List.append_assoc, hnode]
    simpa using hrest
  induction t generalizing pre with
  | scalar text style anchor tag => exact hnode (.scalar text style anchor tag) pre post
  | reference anchor => exact hnode (.reference anchor) pre post
  | sequence anchor tag items => exact hnode (.sequence anchor tag items) pre post
  | mapping anchor tag pairs => exact hnode (.mapping anchor tag pairs) pre post
  | noItems | noPairs => rfl
  | item first rest _ ih | key first rest _ ih | value first rest _ ih => exact hfirst first rest pre ih

/-- Filling an open collection with the nodes behind it. -/
theorem fill_tops (t : Tree s) {c : Content} (pre : List Node) (n : Node) (root : Option NodeId) (r : Registry)
    (hc : c.members = t.tops (pre.length + 1)) :
    (ofList (pre ++ n :: t.nodes names none (pre.length + 1)) root r).fill pre.length c =
      ofList (pre ++ { n with content := c } :: t.nodes names (some pre.length) (pre.length + 1)) root r := by
  have hlen : (pre ++ [n]).length = pre.length + 1 := by simp
  have hadopt := t.adopt_tops names pre.length (pre ++ [n]) [] root r
  rw [hlen] at hadopt
  simp only [List.append_nil, List.append_assoc, List.singleton_append] at hadopt
  unfold fill
  rw [hc, hadopt, update_ofList, modify_middle]

theorem paired_tops (t : Tree .pairs) (base : Nat) :
    (Content.mapping (paired (t.tops base))).members = t.tops base := by
  match t with
  | .noPairs => rfl
  | .key k (.value v rest) =>
    have hrest := rest.paired_tops (base + k.size + v.size)
    simp only [Content.members] at hrest ⊢
    simp [tops, paired, hrest]

theorem receive_pairs (t : Tree .pairs) (base : Nat) (owner : NodeId) (pairs : List (NodeId × NodeId)) :
    (t.tops base).foldl Frame.receive (.mapping owner pairs none) =
      .mapping owner ((paired (t.tops base)).reverse ++ pairs) none := by
  match t with
  | .noPairs => rfl
  | .key k (.value v rest) =>
    have hrest := rest.receive_pairs (base + k.size + v.size) owner ((base, base + k.size) :: pairs)
    simp only [tops, List.foldl_cons, Frame.receive, hrest]
    simp [paired]

end Yaml.Tree

namespace Assembly
open Document Yaml.Tree

variable {s : Shape} {names : List String} {root : Option NodeId} {r : Registry}

theorem decorate_ofList (anchor : AnchorId) (tag : Option Tag) (pre : List Node) (c : Content) :
    decorate names anchor tag pre.length (ofList (pre ++ [{ content := c }]) root r) =
      ofList (pre ++ [⟨c, none, anchorOf? names anchor, tag.map Tag.text⟩]) root
        (register names anchor pre.length r) := by
  have hanchor : ∀ (n : Node) (name : String), (ofList (pre ++ [n]) root r).setAnchor pre.length name =
      ofList (pre ++ [{ n with anchor := some name }]) root (r.insert name pre.length) := by
    intro n name
    unfold setAnchor
    rw [update_ofList, modify_middle]
    rfl
  have htag : ∀ (n : Node) (r : Registry) (t : String), (ofList (pre ++ [n]) root r).setTag pre.length t =
      ofList (pre ++ [{ n with tag := some t }]) root r := by
    intro n r t
    unfold setTag
    rw [update_ofList, modify_middle]
  unfold decorate register anchorOf?
  by_cases h : anchor > 0
  · cases tag with
    | none => simp only [h, ↓reduceIte, hanchor, Option.map_none]
    | some t => simp only [h, ↓reduceIte, hanchor, htag, Option.map_some]
  · cases tag with
    | none => simp only [h, ↓reduceIte, Option.map_none]
    | some t => simp only [h, ↓reduceIte, htag, Option.map_some]

/-- A node that opens, with its anchor and tag. -/
theorem decorate_add {c : Content} (h : c.members = []) (anchor : AnchorId) (tag : Option Tag) (pre : List Node) :
    decorate names anchor tag (ofList pre root r).size ((ofList pre root r).add c) =
      ofList (pre ++ [⟨c, none, anchorOf? names anchor, tag.map Tag.text⟩]) root
        (register names anchor pre.length r) := by
  rw [size_ofList, add_ofList h, decorate_ofList]

/-- The events append the nodes of the tree, and hand those at the top to the innermost frame. -/
def Loads (names : List String) (root : Option NodeId) (t : Tree s) : Prop :=
  ∀ (pre : List Node) (r : Registry) (frames : List Frame), (frames = [] → s = .node) →
    t.events.foldl (take names) ⟨ofList pre root r, frames, false⟩ =
      attachAll (t.tops pre.length)
        ⟨ofList (pre ++ t.nodes names none pre.length) root (t.register names pre.length r), frames, false⟩

/-- A collection, from its start to its end. -/
theorem run_collection {t : Tree s} {pre : List Node} {n : Node} {r r' : Registry} {frames : List Frame} {f f' : Frame}
    {start stop : Event} {c : Content} (ih : Loads names root t)
    (hstart : take names ⟨ofList pre root r, frames, false⟩ start = ⟨ofList (pre ++ [n]) root r', f :: frames, false⟩)
    (hreceive : (t.tops (pre.length + 1)).foldl Frame.receive f = f')
    (hstop : ∀ d, take names ⟨d, f' :: frames, false⟩ stop = attach pre.length ⟨d.fill pre.length c, frames, false⟩)
    (hc : c.members = t.tops (pre.length + 1)) :
    (start :: (t.events ++ [stop])).foldl (take names) ⟨ofList pre root r, frames, false⟩ =
      attach pre.length
        ⟨ofList (pre ++ { n with content := c } :: t.nodes names (some pre.length) (pre.length + 1)) root
          (t.register names (pre.length + 1) r'), frames, false⟩ := by
  have hlen : (pre ++ [n]).length = pre.length + 1 := by simp
  have hinner := ih (pre ++ [n]) r' (f :: frames) (by simp)
  rw [hlen, attachAll_receive, hreceive, List.append_assoc, List.singleton_append] at hinner
  rw [List.foldl_cons, hstart, List.foldl_append, hinner, List.foldl_cons, List.foldl_nil, hstop, t.fill_tops pre n root _ hc]

/-- A node in front of more of its collection. -/
theorem run_first {first : Tree .node} {rest : Tree s} (ih : Loads names root first) (ih' : Loads names root rest)
    (pre : List Node) (r : Registry) (f : Frame) (fs : List Frame) :
    (first.events ++ rest.events).foldl (take names) ⟨ofList pre root r, f :: fs, false⟩ =
      attachAll (pre.length :: rest.tops (pre.length + first.size))
        ⟨ofList (pre ++ (first.nodes names none pre.length ++ rest.nodes names none (pre.length + first.size))) root
          (rest.register names (pre.length + first.size) (first.register names pre.length r)), f :: fs, false⟩ := by
  have hlen : (pre ++ first.nodes names none pre.length).length = pre.length + first.size := by
    simp [length_nodes]
  have hfirst := ih pre r (f :: fs) (by simp)
  have hrest := ih' (pre ++ first.nodes names none pre.length) (first.register names pre.length r)
    (f.receive pre.length :: fs) (by simp)
  rw [tops_node, attachAll_receive, List.foldl_cons, List.foldl_nil] at hfirst
  rw [hlen, attachAll_receive, List.append_assoc] at hrest
  rw [List.foldl_append, hfirst, hrest, attachAll_receive, List.foldl_cons]

theorem loads (names : List String) (root : Option NodeId) (t : Tree s) : Loads names root t := by
  induction t with
  | scalar text style anchor tag =>
    intro pre r frames _
    simp only [events, List.foldl_cons, List.foldl_nil, take, Bool.false_eq_true, ↓reduceIte]
    rw [decorate_add rfl]
    rfl
  | reference anchor =>
    intro pre r frames _
    simp only [events, List.foldl_cons, List.foldl_nil, take, Bool.false_eq_true, ↓reduceIte]
    rw [add_ofList rfl]
    rfl
  | sequence anchor tag items ih =>
    intro pre r frames _
    have hstart : take names ⟨ofList pre root r, frames, false⟩ (.sequenceStart anchor tag) =
        ⟨ofList (pre ++ [⟨.sequence [], none, anchorOf? names anchor, tag.map Tag.text⟩]) root
          (register names anchor pre.length r), .sequence pre.length [] :: frames, false⟩ := by
      simp only [take, Bool.false_eq_true, ↓reduceIte]
      rw [decorate_add rfl]
      rfl
    have hreceive := Frame.receive_sequence pre.length [] (items.tops (pre.length + 1))
    have hstop : ∀ d, take names ⟨d, .sequence pre.length ((items.tops (pre.length + 1)).reverse ++ []) :: frames, false⟩
        .sequenceEnd = attach pre.length ⟨d.fill pre.length (.sequence (items.tops (pre.length + 1))), frames, false⟩ := by
      intro d
      simp [take, close]
    have hrun := run_collection ih hstart hreceive hstop rfl
    exact hrun
  | mapping anchor tag pairs ih =>
    intro pre r frames _
    have hstart : take names ⟨ofList pre root r, frames, false⟩ (.mappingStart anchor tag) =
        ⟨ofList (pre ++ [⟨.mapping [], none, anchorOf? names anchor, tag.map Tag.text⟩]) root
          (register names anchor pre.length r), .mapping pre.length [] none :: frames, false⟩ := by
      simp only [take, Bool.false_eq_true, ↓reduceIte]
      rw [decorate_add rfl]
      rfl
    have hreceive := pairs.receive_pairs (pre.length + 1) pre.length []
    have hstop : ∀ d, take names
        ⟨d, .mapping pre.length ((paired (pairs.tops (pre.length + 1))).reverse ++ []) none :: frames, false⟩ .mappingEnd =
        attach pre.length ⟨d.fill pre.length (.mapping (paired (pairs.tops (pre.length + 1)))), frames, false⟩ := by
      intro d
      simp [take, close]
    have hrun := run_collection ih hstart hreceive hstop (pairs.paired_tops _)
    exact hrun
  | noItems | noPairs =>
    intro pre r frames _
    simp [events, Yaml.Tree.nodes, tops, attachAll, Yaml.Tree.register]
  | item first rest ih ih' | key first rest ih ih' | value first rest ih ih' =>
    intro pre r frames hs
    cases frames with
    | nil => exact absurd (hs rfl) (by simp)
    | cons f fs => exact run_first ih ih' pre r f fs

theorem take_finished (d : Document) (frames : List Frame) (es : List Event) :
    es.foldl (take names) ⟨d, frames, true⟩ = ⟨d, frames, true⟩ := by
  induction es with
  | nil => rfl
  | cons e es ih =>
    rw [List.foldl_cons, take, if_pos rfl]
    exact ih

end Assembly

def Yaml.Tree.stream (t : Tree .node) (rest : List Event) : List Event :=
  .documentStart :: (t.events ++ .documentEnd :: rest)

theorem Assembly.run_stream (names : List String) (t : Tree .node) (rest : List Event) :
    (t.stream rest).foldl (take names) {} =
      ⟨Document.ofList (t.nodes names none 0) (some 0) (t.register names 0 {}), [], true⟩ := by
  have hstart : take names {} .documentStart = ⟨Document.ofList [] none {}, [], false⟩ := rfl
  have hrun := loads names none t [] {} [] (fun _ => rfl)
  have hroot : (Document.ofList (t.nodes names none 0) none (t.register names 0 {})).setRoot 0 =
      Document.ofList (t.nodes names none 0) (some 0) (t.register names 0 {}) := by
    obtain ⟨n, ns, hp, hn⟩ := t.nodes_node names 0
    unfold Document.setRoot
    rw [Document.update_ofList, hn, List.modify_zero_cons]
    rfl
  rw [List.length_nil, List.nil_append, Yaml.Tree.tops_node] at hrun
  have hattach : attachAll [0] ⟨Document.ofList (t.nodes names none 0) none (t.register names 0 {}), [], false⟩ =
      ⟨Document.ofList (t.nodes names none 0) (some 0) (t.register names 0 {}), [], false⟩ := by
    rw [← hroot]
    rfl
  have hend : ∀ d, take names ⟨d, [], false⟩ .documentEnd = ⟨d, [], true⟩ := fun _ => rfl
  rw [Yaml.Tree.stream, List.foldl_cons, hstart, List.foldl_append, hrun, hattach, List.foldl_cons, hend, take_finished]

/-- The document of a well-nested stream. -/
theorem Document.ofEvents_stream (names : List String) (t : Tree .node) (rest : List Event) :
    ofEvents names (t.stream rest) = ofList (t.nodes names none 0) (some 0) (t.register names 0 {}) := by
  rw [ofEvents, Assembly.run_stream]

end YamlQuery
