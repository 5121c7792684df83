import YamlQuery.Document.Basic
/-!
What each operation of a document changes, node by node.
-/
namespace YamlQuery

namespace Registry

theorem lookup_map_replace (es : List (String × NodeId)) (name x : String) (id : NodeId) :
    (es.map fun e => if e.1 == name then (name, id) else e).lookup x =
      if x = name then (es.lookup x).map fun _ => id else es.lookup x := by
  induction es with
  | nil => simp
  | cons e es ih =>
    obtain ⟨key, target⟩ := e
    by_cases hk : key = name
    · subst hk
      by_cases hx : x = key
      · subst hx
        simp
      · have hne : (x == key) = false := beq_false_of_ne hx
        simpa [List.lookup_cons, hx, hne] using ih
    · by_cases hx : x = key
      · subst hx
        simp [hk]
      · have hne : (x == key) = false := beq_false_of_ne hx
        simpa [List.lookup_cons, hk, hne] using ih

theorem lookup_append (es fs : List (String × NodeId)) (x : String) :
    (es ++ fs).lookup x = (es.lookup x).or (fs.lookup x) := by
  induction es with
  | nil => rfl
  | cons e es ih =>
    obtain ⟨key, target⟩ := e
    by_cases hx : (x == key) = true
    · simp [List.lookup_cons, hx]
    · simp [List.lookup_cons, hx, ih]

theorem lookup_eq_none {es : List (String × NodeId)} {name : String} (h : es.any (·.1 == name) = false) :
    es.lookup name = none := by
  rw [List.lookup_eq_none_iff]
  intro e he
  have hne := List.any_eq_false.1 h e he
  simp only [beq_iff_eq] at hne
  simpa using fun hc => hne hc.symm

theorem lookup_isSome {es : List (String × NodeId)} {name : String} (h : es.any (·.1 == name) = true) :
    ∃ id, es.lookup name = some id := by
  rw [← Option.isSome_iff_exists, Option.isSome_iff_ne_none]
  intro hn
  obtain ⟨e, he, hname⟩ := List.any_eq_true.1 h
  have hne := List.lookup_eq_none_iff.1 hn e he
  simp only [beq_iff_eq] at hname
  simp [hname] at hne

theorem get?_insert (r : Registry) (name x : String) (id : NodeId) :
    (r.insert name id).get? x = if x = name then some id else r.get? x := by
  unfold insert get?
  by_cases hany : r.entries.any (·.1 == name) = true
  · rw [if_pos hany]
    dsimp only
    rw [lookup_map_replace]
    by_cases hx : x = name
    · subst hx
      obtain ⟨old, hold⟩ := lookup_isSome hany
      simp [hold]
    · simp [hx]
  · rw [if_neg hany]
    dsimp only
    rw [lookup_append]
    by_cases hx : x = name
    · subst hx
      have hnone := lookup_eq_none (Bool.not_eq_true _ ▸ hany)
      simp [hnone]
    · have hne : (x == name) = false := beq_false_of_ne hx
      simp [hx, List.lookup_cons, hne]

end Registry

namespace Document

def members (d : Document) (id : NodeId) : List NodeId := ((d.content? id).map (·.members)).getD []

theorem node?_lt {d : Document} {x : NodeId} {n : Node} (h : d.node? x = some n) : x < d.size :=
  (Array.getElem?_eq_some_iff.1 h).1

theorem node?_none {d : Document} {x : NodeId} (h : d.size ≤ x) : d.node? x = none :=
  Array.getElem?_eq_none h

theorem node?_update (d : Document) (id x : NodeId) (f : Node → Node) :
    (d.update id f).node? x = if x = id then (d.node? x).map f else d.node? x := by
  unfold update node?
  rw [Array.getElem?_modify]
  by_cases hx : x = id
  · subst hx
    simp
  · have hne : id ≠ x := fun he => hx he.symm
    simp [hx, hne]

theorem size_update (d : Document) (id : NodeId) (f : Node → Node) : (d.update id f).size = d.size :=
  Array.size_modify

theorem node?_adopt (d : Document) (owner : NodeId) (ids : List NodeId) (x : NodeId) :
    (d.adopt owner ids).node? x =
      if x ∈ ids then (d.node? x).map fun n => { n with parent := some owner } else d.node? x := by
  unfold adopt
  induction ids generalizing d with
  | nil => simp
  | cons id ids ih =>
    rw [List.foldl_cons, ih, node?_update]
    by_cases hx : x = id
    · subst hx
      by_cases hmem : x ∈ ids
      · simp [hmem, Function.comp_def]
      · simp [hmem]
    · simp [hx]

theorem size_adopt (d : Document) (owner : NodeId) (ids : List NodeId) : (d.adopt owner ids).size = d.size := by
  unfold adopt
  induction ids generalizing d with
  | nil => rfl
  | cons id ids ih => rw [List.foldl_cons, ih, size_update]

theorem adopt_frame (d : Document) (owner : NodeId) (ids : List NodeId) :
    (d.adopt owner ids).root = d.root ∧ (d.adopt owner ids).anchors = d.anchors := by
  unfold adopt
  induction ids generalizing d with
  | nil => exact ⟨rfl, rfl⟩
  | cons id ids ih => exact ih _

theorem add_eq_push {d : Document} {c : Content} (h : c.members = []) :
    d.add c = { d with nodes := d.nodes.push { content := c } } := by
  unfold add
  rw [h]
  rfl

theorem node?_add {d : Document} {c : Content} (h : c.members = []) (x : NodeId) :
    (d.add c).node? x = if x = d.size then some { content := c } else d.node? x := by
  rw [add_eq_push h]
  exact Array.getElem?_push

theorem size_add {d : Document} {c : Content} (h : c.members = []) : (d.add c).size = d.size + 1 := by
  rw [add_eq_push h]
  exact Array.size_push _

theorem node?_fill (d : Document) (id : NodeId) (c : Content) (x : NodeId) :
    (d.fill id c).node? x = (d.node? x).map fun n =>
      { n with
        parent := if x ∈ c.members then some id else n.parent
        content := if x = id then c else n.content } := by
  unfold fill
  rw [node?_update, node?_adopt]
  cases d.node? x with
  | none => simp
  | some n =>
    by_cases hx : x = id
    · subst hx
      by_cases hmem : x ∈ c.members <;> simp [hmem]
    · by_cases hmem : x ∈ c.members <;> simp [hx, hmem]

theorem size_fill (d : Document) (id : NodeId) (c : Content) : (d.fill id c).size = d.size := by
  unfold fill
  rw [size_update, size_adopt]

theorem fill_frame (d : Document) (id : NodeId) (c : Content) :
    (d.fill id c).root = d.root ∧ (d.fill id c).anchors = d.anchors := adopt_frame d id c.members

theorem parent?_lt {d : Document} {x p : NodeId} (h : d.parent? x = some p) : x < d.size := by
  obtain ⟨n, hn, _⟩ := Option.bind_eq_some_iff.1 h
  exact node?_lt hn

theorem anchor?_lt {d : Document} {x : NodeId} {name : String} (h : d.anchor? x = some name) : x < d.size := by
  obtain ⟨n, hn, _⟩ := Option.bind_eq_some_iff.1 h
  exact node?_lt hn

theorem parent?_add {d : Document} {c : Content} (h : c.members = []) (x : NodeId) :
    (d.add c).parent? x = d.parent? x := by
  unfold parent?
  rw [node?_add h]
  by_cases hx : x = d.size
  · simp [hx, node?_none (Nat.le_refl d.size)]
  · simp [hx]

theorem members_add {d : Document} {c : Content} (h : c.members = []) (x : NodeId) :
    (d.add c).members x = d.members x := by
  unfold members content?
  rw [node?_add h]
  by_cases hx : x = d.size
  · simp [hx, h, node?_none (Nat.le_refl d.size)]
  · simp [hx]

theorem anchor?_add {d : Document} {c : Content} (h : c.members = []) (x : NodeId) :
    (d.add c).anchor? x = d.anchor? x := by
  unfold anchor?
  rw [node?_add h]
  by_cases hx : x = d.size
  · simp [hx, node?_none (Nat.le_refl d.size)]
  · simp [hx]

theorem parent?_fill {d : Document} {id : NodeId} {c : Content} (h : ∀ x ∈ c.members, x < d.size) (x : NodeId) :
    (d.fill id c).parent? x = if x ∈ c.members then some id else d.parent? x := by
  unfold parent?
  rw [node?_fill]
  by_cases hx : x ∈ c.members
  · obtain ⟨n, hn⟩ : ∃ n, d.node? x = some n := ⟨_, Array.getElem?_eq_getElem (h x hx)⟩
    simp [hn, hx]
  · cases d.node? x <;> simp [hx]

theorem members_fill {d : Document} {id : NodeId} (h : id < d.size) (c : Content) (x : NodeId) :
    (d.fill id c).members x = if x = id then c.members else d.members x := by
  unfold members content?
  rw [node?_fill]
  by_cases hx : x = id
  · obtain ⟨n, hn⟩ : ∃ n, d.node? id = some n := ⟨_, Array.getElem?_eq_getElem h⟩
    simp [hx, hn]
  · cases d.node? x <;> simp [hx]

theorem anchor?_fill (d : Document) (id : NodeId) (c : Content) (x : NodeId) :
    (d.fill id c).anchor? x = d.anchor? x := by
  unfold anchor?
  rw [node?_fill]
  cases d.node? x <;> simp

/-- A change of one node that is not about its place keeps all places. -/
theorem place_update {d : Document} {id : NodeId} {f : Node → Node} (hp : ∀ n, (f n).parent = n.parent)
    (hc : ∀ n, (f n).content = n.content) (x : NodeId) :
    (d.update id f).parent? x = d.parent? x ∧ (d.update id f).members x = d.members x := by
  unfold parent? members content?
  rw [node?_update]
  by_cases hx : x = id
  · cases d.node? x <;> simp [hx, hp, hc]
  · simp [hx]

theorem place_setAnchor (d : Document) (id : NodeId) (name : String) (x : NodeId) :
    (d.setAnchor id name).parent? x = d.parent? x ∧ (d.setAnchor id name).members x = d.members x :=
  @place_update d id (fun n => { n with anchor := some name }) (fun _ => rfl) (fun _ => rfl) x

theorem place_setTag (d : Document) (id : NodeId) (tag : String) (x : NodeId) :
    (d.setTag id tag).parent? x = d.parent? x ∧ (d.setTag id tag).members x = d.members x :=
  @place_update d id (fun n => { n with tag := some tag }) (fun _ => rfl) (fun _ => rfl) x

end Document
end YamlQuery
