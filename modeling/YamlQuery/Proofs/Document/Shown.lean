import YamlQuery.Document.Equality
import YamlQuery.Proofs.Document.Comparison
import YamlQuery.Proofs.Yaml.JsonEvents
/-!
Nodes that show a JSON value: untagged, with the text of a scalar as it is written, and with the fields of an object in any
order. A comparison cannot tell one such node from another.
-/
namespace YamlQuery
open JsonValue Yaml

def Content.agreesValue (text? : NodeId → Option String) (same : NodeId → JsonValue → Bool) : Content → JsonValue → Bool
  | scalar text _, .scalar v => text == readText v
  | sequence xs, .array vs => xs.length == vs.length && (xs.zip vs).all fun p => same p.1 p.2
  | mapping ps, .object fs => ps.length == fs.length && fs.all fun f => ps.any fun p => text? p.1 == some f.1 && same p.2 f.2
  | _, _ => false

namespace Document

/-- Node `y` shows a value. Every member of a collection is listed with what it shows. -/
inductive Shows (b : Document) : NodeId → JsonValue → Prop
  | scalar {y : NodeId} {v : ScalarValue} {style : ScalarStyle} (hc : b.content? y = some (.scalar (readText v) style))
    (ht : b.tag? y = none) : Shows b y (.scalar v)
  | array {y : NodeId} (shown : List (NodeId × JsonValue)) (hc : b.content? y = some (.sequence (shown.map (·.1))))
    (ht : b.tag? y = none) (h : ∀ s ∈ shown, Shows b s.1 s.2) : Shows b y (.array (shown.map (·.2)))
  | object {y : NodeId} {pairs : List (NodeId × NodeId)} (shown : List ((NodeId × NodeId) × (String × JsonValue)))
    (hc : b.content? y = some (.mapping pairs)) (ht : b.tag? y = none) (hp : (shown.map (·.1)).Perm pairs)
    (hkey : ∀ s ∈ shown, b.text? s.1.1 = some s.2.1 ∧ b.tag? s.1.1 = none) (h : ∀ s ∈ shown, Shows b s.1.2 s.2.2) :
    Shows b y (.object (shown.map (·.2)))

def equalsValue (a : Document) : Nat → NodeId → JsonValue → Bool
  | 0, _, _ => false
  | levels + 1, x, v => ((a.content? x).map fun c => c.agreesValue a.text? (equalsValue a levels) v).getD false

variable {a b : Document} {x y : NodeId} {levels : Nat}

theorem equalWithin_untagged (ht : b.tag? y = none) {c : Content} (hc : b.content? y = some c) :
    equalWithin a b (levels + 1) x y = ((a.content? x).map fun m => m.agrees (equalWithin a b levels) c).getD false := by
  obtain ⟨n, hn, rfl⟩ := Option.map_eq_some_iff.1 hc
  rw [tag?, hn, Option.bind_some] at ht
  cases hm : a.node? x with
  | none => simp [equalWithin, content?, hm]
  | some m => simp [equalWithin_succ hm hn, content?, hm, Node.agrees, ht]

theorem equalWithin_text (ht : b.tag? y = none) {text : String} (hy : b.text? y = some text) :
    equalWithin a b (levels + 1) x y = (a.text? x == some text) := by
  obtain ⟨c, hc, htext⟩ := Option.bind_eq_some_iff.1 hy
  rw [equalWithin_untagged ht hc, text?]
  cases c with
  | sequence | mapping | reference => simp [Content.text?] at htext
  | scalar t style =>
    obtain rfl : t = text := by simpa [Content.text?] using htext
    cases a.content? x with
    | none => rfl
    | some m => cases m <;> simp [Content.agrees, Content.text?]

/-- The value that a node shows is all that a comparison with it looks at. -/
theorem Shows.equalWithin_eq {v : JsonValue} (h : b.Shows y v) (levels : Nat) (x : NodeId) :
    equalWithin a b levels x y = a.equalsValue levels x v := by
  induction h generalizing levels x with
  | scalar hc ht =>
    cases levels with
    | zero => rfl
    | succ levels =>
      rw [equalWithin_untagged ht hc, equalsValue]
      cases a.content? x with
      | none => rfl
      | some m => cases m <;> rfl
  | array shown hc ht _ ih =>
    cases levels with
    | zero => rfl
    | succ levels =>
      rw [equalWithin_untagged ht hc, equalsValue]
      cases a.content? x with
      | none => rfl
      | some m =>
        cases m with
        | scalar | reference | mapping => rfl
        | sequence xs =>
          have hall : ((xs.zip (shown.map (·.1))).all fun p => equalWithin a b levels p.1 p.2) =
              (xs.zip (shown.map (·.2))).all fun p => a.equalsValue levels p.1 p.2 := by
            rw [List.zip_map_right, List.zip_map_right, List.all_map, List.all_map]
            apply all_congr_of_mem
            intro p hp
            exact ih p.2 (List.of_mem_zip hp).2 levels p.1
          simp only [Option.map_some, Option.getD_some, Content.agrees, Content.agreesValue, hall, List.length_map]
  | @object y pairs shown hc ht hp hkey _ ih =>
    cases levels with
    | zero => rfl
    | succ levels =>
      rw [equalWithin_untagged ht hc, equalsValue]
      cases a.content? x with
      | none => rfl
      | some m =>
        cases m with
        | scalar | reference | sequence => rfl
        | mapping xs =>
          have hall : (pairs.all fun q => xs.any fun p => equalWithin a b levels p.1 q.1 && equalWithin a b levels p.2 q.2) =
              (shown.map (·.2)).all fun f => xs.any fun p => a.text? p.1 == some f.1 && a.equalsValue levels p.2 f.2 := by
            rw [← hp.all_eq, List.all_map, List.all_map]
            apply all_congr_of_mem
            intro s hs
            apply any_congr_of_mem
            intro p _
            cases levels with
            | zero => simp [equalWithin, equalsValue]
            | succ levels => rw [equalWithin_text (hkey s hs).2 (hkey s hs).1, ih s hs]
          have hlen := hp.length_eq
          rw [List.length_map] at hlen
          simp only [Option.map_some, Option.getD_some, Content.agrees, Content.agreesValue, hall, List.length_map, hlen]

def Contains (b : Document) (names : List String) (base : Nat) {s : Shape} (t : Tree s) : Prop :=
  ∃ pre post parent, b.nodes.toList = pre ++ (t.nodes names parent pre.length ++ post) ∧ pre.length = base

variable {names : List String} {base : Nat}

theorem node?_of_middle {pre post : List Node} {n : Node} (h : b.nodes.toList = pre ++ n :: post) :
    b.node? pre.length = some n := by
  rw [node?, ← Array.getElem?_toList, h]
  simp

theorem Contains.scalar {text : String} {style : ScalarStyle} (h : b.Contains names base (.scalar text style 0 none)) :
    b.content? base = some (.scalar text style) ∧ b.tag? base = none := by
  obtain ⟨pre, post, parent, hb, rfl⟩ := h
  simp [content?, tag?, node?_of_middle hb]

/-- A collection and what it holds. -/
theorem Contains.collection {s : Shape} {c : Nat → Content} {t : Tree .node} {inner : Tree s} (h : b.Contains names base t)
    (ht : ∀ parent base, t.nodes names parent base = ⟨c base, parent, none, none⟩ :: inner.nodes names (some base) (base + 1)) :
    b.content? base = some (c base) ∧ b.tag? base = none ∧ b.Contains names (base + 1) inner := by
  obtain ⟨pre, post, parent, hb, rfl⟩ := h
  rw [ht] at hb
  have hnode := node?_of_middle hb
  refine ⟨by simp [content?, hnode], by simp [tag?, hnode], pre ++ [⟨c pre.length, parent, none, none⟩], post,
    some pre.length, ?_, by simp⟩
  rw [hb]
  simp

/-- A part that is a node and the part behind it. -/
theorem Contains.split {s s' : Shape} {first : Tree .node} {rest : Tree s} {t : Tree s'} (h : b.Contains names base t)
    (ht : ∀ parent base, t.nodes names parent base =
      first.nodes names parent base ++ rest.nodes names parent (base + first.size)) :
    b.Contains names base first ∧ b.Contains names (base + first.size) rest := by
  obtain ⟨pre, post, parent, hb, rfl⟩ := h
  rw [ht] at hb
  constructor
  · exact ⟨pre, _, parent, by rw [hb, List.append_assoc], rfl⟩
  · refine ⟨pre ++ first.nodes names parent pre.length, post, parent, ?_, by simp [Tree.length_nodes]⟩
    rw [hb]
    simp [Tree.length_nodes]

/-- The nodes of a value show it. -/
theorem Contains.shows {v : JsonValue} (h : b.Contains names base v.tree) : b.Shows base v := by
  have hitems : ∀ vs : List JsonValue, (∀ v ∈ vs, ∀ base, b.Contains names base v.tree → b.Shows base v) →
      ∀ base, b.Contains names base (itemTree vs) →
      ∃ shown : List (NodeId × JsonValue), (itemTree vs).tops base = shown.map (·.1) ∧ vs = shown.map (·.2) ∧
        ∀ s ∈ shown, b.Shows s.1 s.2 := by
    intro vs ih
    induction vs with
    | nil => exact fun base _ => ⟨[], rfl, rfl, by simp⟩
    | cons v vs ihvs =>
      intro base h
      rw [itemTree] at h
      obtain ⟨hv, hvs⟩ := h.split fun _ _ => rfl
      obtain ⟨shown, htops, hvalues, hshown⟩ := ihvs (fun w hw => ih w (by simp [hw])) _ hvs
      refine ⟨(base, v) :: shown, ?_, by simp [← hvalues], ?_⟩
      · rw [itemTree, Tree.tops, htops]
        rfl
      · exact List.forall_mem_cons.2 ⟨ih v (by simp) base hv, hshown⟩
  have hfields : ∀ fs : List (String × JsonValue), (∀ f ∈ fs, ∀ base, b.Contains names base f.2.tree → b.Shows base f.2) →
      ∀ base, b.Contains names base (fieldTree fs) →
      ∃ shown : List ((NodeId × NodeId) × (String × JsonValue)), Tree.paired ((fieldTree fs).tops base) = shown.map (·.1) ∧
        fs = shown.map (·.2) ∧ ∀ s ∈ shown, (b.text? s.1.1 = some s.2.1 ∧ b.tag? s.1.1 = none) ∧ b.Shows s.1.2 s.2.2 := by
    intro fs ih
    induction fs with
    | nil => exact fun base _ => ⟨[], rfl, rfl, by simp⟩
    | cons f fs ihfs =>
      intro base h
      obtain ⟨k, v⟩ := f
      rw [fieldTree] at h
      obtain ⟨hk, hrest⟩ := h.split fun _ _ => rfl
      obtain ⟨hv, hfs⟩ := hrest.split fun _ _ => rfl
      obtain ⟨shown, htops, hvalues, hshown⟩ := ihfs (fun g hg => ih g (by simp [hg])) _ hfs
      obtain ⟨hcontent, htag⟩ := hk.scalar
      refine ⟨((base, base + 1), (k, v)) :: shown, ?_, by simp [← hvalues], ?_⟩
      · rw [fieldTree, Tree.tops, Tree.tops, Tree.paired, htops]
        rfl
      · refine List.forall_mem_cons.2 ⟨⟨⟨?_, htag⟩, ih (k, v) (by simp) _ hv⟩, hshown⟩
        simp [text?, hcontent, Content.text?]
  induction v using induct generalizing base with
  | scalar v =>
    obtain ⟨hc, ht⟩ := Contains.scalar h
    exact .scalar hc ht
  | array items ih =>
    obtain ⟨hc, ht, hin⟩ := Contains.collection h fun _ _ => rfl
    obtain ⟨shown, htops, hvalues, hshown⟩ := hitems items (fun v hv _ => ih v hv) _ hin
    rw [htops] at hc
    rw [hvalues]
    exact .array shown hc ht hshown
  | object fields ih =>
    obtain ⟨hc, ht, hin⟩ := Contains.collection h fun _ _ => rfl
    obtain ⟨shown, htops, hvalues, hshown⟩ := hfields fields (fun f hf _ => ih f hf) _ hin
    rw [htops] at hc
    rw [hvalues]
    exact .object shown hc ht (.refl _) (fun s hs => (hshown s hs).1) fun s hs => (hshown s hs).2

/-- The document that is read from compact JSON text shows the value. -/
theorem shows_of_read_compact {v : JsonValue} (h : v.depth ≤ 255) :
    ∃ b, read v.compact = .ok b ∧ b.root = some 0 ∧ b.Shows 0 v := by
  obtain ⟨names, hread⟩ := read_compact h
  exact ⟨_, hread, rfl, Contains.shows ⟨[], [], none, (List.append_nil _).symm, rfl⟩⟩

end Document
end YamlQuery
