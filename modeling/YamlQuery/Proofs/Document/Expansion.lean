import YamlQuery.Proofs.Path.Descent
import YamlQuery.Proofs.Document.Comparison
import YamlQuery.Value.OfNode
/-!
Trees without aliases. A node is expanded by going down what it holds and from every alias to the node that the alias stands
for. Where this comes to no broken alias and through no more aliases than may be expanded inside each other, there is a copy of
the node with a copy of its target in the place of every alias.
-/
namespace YamlQuery.Document
open Relation

/-- The expansion of `n` comes to `x` through `k` aliases. -/
inductive Unfolds (d : Document) (n : NodeId) : Nat → NodeId → Prop
  | here : Unfolds d n 0 n
  | member {k : Nat} {x y : NodeId} (h : Unfolds d n k x) (hy : d.Holds x y) : Unfolds d n k y
  | target {k : Nat} {x y : NodeId} (h : Unfolds d n k x) (hy : d.Refers x y) : Unfolds d n (k + 1) y

structure Expandable (d : Document) (n : NodeId) : Prop where
  bounded : ∀ k x, d.Unfolds n k x → k ≤ maxExpansions
  registered : ∀ k x name, d.Unfolds n k x → d.aliasName? x = some name → ∃ target, d.lookupAnchor? name = some target

/-- Node `y` of `e` is a copy of node `x` of `d`, with a copy of its target in the place of every alias. -/
inductive Copied (d e : Document) : NodeId → NodeId → Prop
  | scalar {x y : NodeId} {text : String} {style : ScalarStyle} (hx : d.content? x = some (.scalar text style))
    (hy : e.content? y = some (.scalar text style)) (ht : e.tag? y = d.tag? x) : Copied d e x y
  | sequence {x y : NodeId} (items : List (NodeId × NodeId)) (hx : d.content? x = some (.sequence (items.map (·.1))))
    (hy : e.content? y = some (.sequence (items.map (·.2)))) (ht : e.tag? y = d.tag? x)
    (h : ∀ i ∈ items, Copied d e i.1 i.2) : Copied d e x y
  | mapping {x y : NodeId} (pairs : List ((NodeId × NodeId) × (NodeId × NodeId)))
    (hx : d.content? x = some (.mapping (pairs.map (·.1)))) (hy : e.content? y = some (.mapping (pairs.map (·.2))))
    (ht : e.tag? y = d.tag? x) (hk : ∀ p ∈ pairs, Copied d e p.1.1 p.2.1) (hv : ∀ p ∈ pairs, Copied d e p.1.2 p.2.2) :
    Copied d e x y
  | target {x y t : NodeId} (hx : d.Refers x t) (h : Copied d e t y) : Copied d e x y

variable {d e e' : Document} {n x y : NodeId} {k : Nat}

/-- Whatever holds of `n` and is passed on by the steps of its expansion holds of all that it comes to. -/
theorem Unfolds.closed {P : Nat → NodeId → Prop} (h : d.Unfolds n k x) (hn : P 0 n)
    (hmember : ∀ k x y, P k x → d.Holds x y → P k y) (htarget : ∀ k x y, P k x → d.Refers x y → P (k + 1) y) : P k x := by
  induction h with
  | here => exact hn
  | member _ hy ih => exact hmember _ _ _ ih hy
  | target _ hy ih => exact htarget _ _ _ ih hy

theorem content?_of_aliasName? {name : String} (h : d.aliasName? x = some name) :
    d.content? x = some (.reference name) := by
  obtain ⟨c, hc, hname⟩ := Option.bind_eq_some_iff.1 h
  cases c with
  | scalar | sequence | mapping => simp [Content.aliasName?] at hname
  | reference other =>
    cases hname
    exact hc

theorem Copied.content (h : d.Copied e x y) : ∃ c, e.content? y = some c ∧ c.aliasName? = none := by
  induction h with
  | scalar _ hy _ | sequence _ _ hy _ _ | mapping _ _ hy _ _ _ => exact ⟨_, hy, rfl⟩
  | target _ _ ih => exact ih

theorem Copied.lt (h : d.Copied e x y) : y < e.size := by
  obtain ⟨c, hc, _⟩ := h.content
  obtain ⟨m, hm, _⟩ := Option.map_eq_some_iff.1 hc
  exact node?_lt hm

theorem Copied.aliasName?_eq_none (h : d.Copied e x y) : e.aliasName? y = none := by
  obtain ⟨c, hc, hname⟩ := h.content
  rw [aliasName?, hc, Option.bind_some, hname]

/-- A copy holds copies. -/
theorem Copied.holds (h : d.Copied e x y) {z : NodeId} (hz : e.Holds y z) : ∃ w, d.Copied e w z := by
  induction h with
  | scalar _ hy _ => simp [Holds, members, hy, Content.members] at hz
  | sequence items _ hy _ h _ =>
    have hmem : z ∈ items.map (·.2) := by simpa [Holds, members, hy, Content.members] using hz
    obtain ⟨i, hi, rfl⟩ := List.mem_map.1 hmem
    exact ⟨i.1, h i hi⟩
  | mapping pairs _ hy _ hk hv _ _ =>
    have hmem : z ∈ (Content.mapping (pairs.map (·.2))).members := by simpa [Holds, members, hy] using hz
    obtain ⟨q, hq, hz⟩ := List.mem_flatMap.1 hmem
    obtain ⟨p, hp, rfl⟩ := List.mem_map.1 hq
    rcases List.mem_pair.1 hz with rfl | rfl
    · exact ⟨p.1.1, hk p hp⟩
    · exact ⟨p.1.2, hv p hp⟩
  | target _ _ ih => exact ih hz

/-- The expansion of a copy comes to no alias. -/
theorem Copied.unfolds (h : d.Copied e x y) {z : NodeId} (hz : e.Unfolds y k z) : k = 0 ∧ e.aliasName? z = none := by
  have hcopy : k = 0 ∧ ∃ w, d.Copied e w z := by
    apply hz.closed (P := fun k z => k = 0 ∧ ∃ w, d.Copied e w z)
    case hn => exact ⟨rfl, x, h⟩
    case hmember =>
      intro k z z' hz hholds
      obtain ⟨hk, w, hw⟩ := hz
      exact ⟨hk, hw.holds hholds⟩
    case htarget =>
      intro k z z' hz hrefers
      obtain ⟨_, w, hw⟩ := hz
      exact absurd hrefers (not_refers_of_none hw.aliasName?_eq_none)
  obtain ⟨hk, w, hw⟩ := hcopy
  exact ⟨hk, hw.aliasName?_eq_none⟩

/-- A copy is one of the node at the end of the aliases. -/
theorem Copied.endsAt (h : d.Copied e x y) : ∃ t, d.EndsAt x t ∧ d.Copied e t y ∧ d.text? t = e.text? y := by
  induction h with
  | @scalar x y _ _ hx hy ht =>
    exact ⟨x, ⟨.refl, by simp [aliasName?, hx, Content.aliasName?]⟩, .scalar hx hy ht, by simp [text?, hx, hy]⟩
  | @sequence x y items hx hy ht h _ =>
    exact ⟨x, ⟨.refl, by simp [aliasName?, hx, Content.aliasName?]⟩, .sequence items hx hy ht h,
      by simp [text?, hx, hy, Content.text?]⟩
  | @mapping x y pairs hx hy ht hk hv _ _ =>
    exact ⟨x, ⟨.refl, by simp [aliasName?, hx, Content.aliasName?]⟩, .mapping pairs hx hy ht hk hv,
      by simp [text?, hx, hy, Content.text?]⟩
  | target hx _ ih =>
    obtain ⟨t, hends, hcopy, htext⟩ := ih
    exact ⟨t, ⟨hends.1.head hx, hends.2⟩, hcopy, htext⟩

def coversSteps (d : Document) (steps : List (Nat × NodeId)) : Bool :=
  steps.all fun s =>
    (d.members s.2).all (fun y => steps.contains (s.1, y)) &&
      (d.aliasName? s.2).all fun name => (d.lookupAnchor? name).any fun y => steps.contains (s.1 + 1, y)

variable {steps : List (Nat × NodeId)}

theorem Unfolds.mem_of_coversSteps (h : d.Unfolds n k x) (hsteps : d.coversSteps steps = true) (hn : (0, n) ∈ steps) :
    (k, x) ∈ steps := by
  apply h.closed (P := fun k x => (k, x) ∈ steps) hn
  case hmember =>
    intro k x y hx hy
    have hstep := (Bool.and_eq_true_iff.1 (List.all_eq_true.1 hsteps _ hx)).1
    simpa using List.all_eq_true.1 hstep y hy
  case htarget =>
    intro k x y hx hy
    obtain ⟨name, hname, hl⟩ := hy
    have hstep := (Bool.and_eq_true_iff.1 (List.all_eq_true.1 hsteps _ hx)).2
    simpa [hname, hl] using hstep

theorem expandable_of_coversSteps (hsteps : d.coversSteps steps = true) (hle : ∀ s ∈ steps, s.1 ≤ maxExpansions)
    (hn : (0, n) ∈ steps) : d.Expandable n where
  bounded := fun k x hx => hle _ (hx.mem_of_coversSteps hsteps hn)
  registered := by
    intro k x name hx hname
    have hmem := hx.mem_of_coversSteps hsteps hn
    have hstep := (Bool.and_eq_true_iff.1 (List.all_eq_true.1 hsteps _ hmem)).2
    rw [hname, Option.all_some] at hstep
    cases hl : d.lookupAnchor? name with
    | none => simp [hl] at hstep
    | some t => exact ⟨t, rfl⟩

structure Extends (e e' : Document) : Prop where
  size_le : e.size ≤ e'.size
  content : ∀ x < e.size, e'.content? x = e.content? x
  tag : ∀ x < e.size, e'.tag? x = e.tag? x

theorem Extends.refl (e : Document) : e.Extends e := ⟨Nat.le_refl _, fun _ _ => rfl, fun _ _ => rfl⟩

theorem Extends.trans {e'' : Document} (h : e.Extends e') (h' : e'.Extends e'') : e.Extends e'' where
  size_le := Nat.le_trans h.size_le h'.size_le
  content := fun x hx => (h'.content x (Nat.lt_of_lt_of_le hx h.size_le)).trans (h.content x hx)
  tag := fun x hx => (h'.tag x (Nat.lt_of_lt_of_le hx h.size_le)).trans (h.tag x hx)

theorem Copied.extend (h : d.Copied e x y) (he : e.Extends e') : d.Copied e' x y := by
  have hlt := h.lt
  induction h with
  | scalar hx hy ht => exact .scalar hx (he.content _ hlt ▸ hy) (he.tag _ hlt ▸ ht)
  | sequence items hx hy ht h ih =>
    exact .sequence items hx (he.content _ hlt ▸ hy) (he.tag _ hlt ▸ ht) fun i hi => ih i hi (h i hi).lt
  | mapping pairs hx hy ht hk hv ihk ihv =>
    exact .mapping pairs hx (he.content _ hlt ▸ hy) (he.tag _ hlt ▸ ht) (fun p hp => ihk p hp (hk p hp).lt)
      fun p hp => ihv p hp (hv p hp).lt
  | target hx _ ih => exact .target hx (ih hlt)

theorem extends_add (e : Document) (c : Content) : e.Extends (e.add c) ∧ (e.add c).content? e.size = some c ∧
    (e.add c).tag? e.size = none := by
  have hnode := node?_added e c
  refine ⟨⟨?_, ?_, ?_⟩, by simp [content?, hnode], by simp [tag?, hnode]⟩
  · rw [size_added]
    exact Nat.le_succ _
  · intro x hx
    rw [content?, content?, hnode, if_neg (Nat.ne_of_lt hx), node?_adopt]
    split
    · cases e.node? x <;> rfl
    · rfl
  · intro x hx
    rw [tag?, tag?, hnode, if_neg (Nat.ne_of_lt hx), node?_adopt]
    split
    · cases e.node? x <;> rfl
    · rfl

theorem content?_setTag (e : Document) (id : NodeId) (tag : String) (x : NodeId) :
    (e.setTag id tag).content? x = e.content? x := by
  rw [content?, content?, setTag, node?_update]
  split
  · cases e.node? x <;> rfl
  · rfl

theorem tag?_setTag (e : Document) (id : NodeId) (tag : String) (x : NodeId) :
    (e.setTag id tag).tag? x = if x = id then (e.content? x).map fun _ => tag else e.tag? x := by
  rw [tag?, tag?, content?, setTag, node?_update]
  split
  · cases e.node? x <;> rfl
  · rfl

/-- Any node whose members are there may be added with any tag. -/
theorem Made.exists_added (h : e.Made) {c : Content} (hc : ∀ m ∈ c.members, m < e.size) (tag : Option String) :
    ∃ e', e'.Made ∧ e.Extends e' ∧ e'.content? e.size = some c ∧ e'.tag? e.size = tag := by
  have hall : (Edit.add c).mentions.all e.contains = true :=
    List.all_eq_true.2 fun m hm => decide_eq_true (hc m hm)
  have hadd : (e.add c).Made := .edit (.add c) h (if_pos hall)
  obtain ⟨hext, hcontent, hnone⟩ := extends_add e c
  cases tag with
  | none => exact ⟨_, hadd, hext, hcontent, hnone⟩
  | some tag =>
    have hone : (Edit.tag e.size tag).mentions.all (e.add c).contains = true := by
      have hlt : e.size < (e.add c).size := by
        rw [size_added]
        exact Nat.lt_succ_self _
      exact List.all_eq_true.2 fun m hm => by
        obtain rfl := List.mem_singleton.1 hm
        exact decide_eq_true hlt
    refine ⟨_, .edit (.tag e.size tag) hadd (if_pos hone), ⟨?_, ?_, ?_⟩, ?_, ?_⟩
    · exact Nat.le_trans hext.size_le (Nat.le_of_eq (size_update _ _ _).symm)
    · intro x hx
      rw [content?_setTag]
      exact hext.content x hx
    · intro x hx
      rw [tag?_setTag, if_neg (Nat.ne_of_lt hx)]
      exact hext.tag x hx
    · rw [content?_setTag, hcontent]
    · rw [tag?_setTag, if_pos rfl, hcontent, Option.map_some]

/-- What can be copied one by one can be copied one behind the other. -/
theorem exists_all {α β : Type} {P : Document → α → β → Prop}
    (hP : ∀ {e e' : Document} {a b}, e.Extends e' → P e a b → P e' a b) {as : List α}
    (h : ∀ a ∈ as, ∀ e : Document, e.Made → ∃ e' b, e'.Made ∧ e.Extends e' ∧ P e' a b) (he : e.Made) :
    ∃ e', e'.Made ∧ e.Extends e' ∧ ∃ ps : List (α × β), ps.map (·.1) = as ∧ ∀ p ∈ ps, P e' p.1 p.2 := by
  induction as generalizing e with
  | nil => exact ⟨e, he, .refl e, [], rfl, by simp⟩
  | cons a as ih =>
    obtain ⟨e₁, b, he₁, hext₁, hb⟩ := h a (by simp) e he
    obtain ⟨e₂, he₂, hext₂, ps, hps, hall⟩ := ih (fun a ha => h a (by simp [ha])) he₁
    refine ⟨e₂, he₂, hext₁.trans hext₂, (a, b) :: ps, by simp [hps], ?_⟩
    exact List.forall_mem_cons.2 ⟨hP hext₂ hb, hall⟩

def Copyable (d : Document) (x : NodeId) : Prop :=
  ∀ e : Document, e.Made → ∃ e' y, e'.Made ∧ e.Extends e' ∧ d.Copied e' x y

/-- A node can be copied behind what it holds, and an alias as its target. -/
theorem copyable_step (hlt : x < d.size) (hmember : ∀ y, d.Holds x y → d.Copyable y)
    (htarget : ∀ name, d.aliasName? x = some name → ∃ t, d.Refers x t ∧ d.Copyable t) : d.Copyable x := by
  intro e he
  obtain ⟨m, hm⟩ : ∃ m, d.node? x = some m := ⟨_, Array.getElem?_eq_getElem hlt⟩
  have hheld : ∀ y ∈ m.content.members, d.Copyable y := fun y hy => hmember y (holds_of_node? hm hy)
  have hx : d.content? x = some m.content := by rw [content?, hm, Option.map_some]
  generalize m.content = c at hheld hx
  cases c with
  | scalar text style =>
    obtain ⟨e', he', hext, hcontent, htag⟩ := he.exists_added (c := .scalar text style) (by simp [Content.members]) (d.tag? x)
    exact ⟨e', _, he', hext, .scalar hx hcontent htag⟩
  | sequence items =>
    obtain ⟨e₁, he₁, hext₁, copies, rfl, hall⟩ := exists_all (P := d.Copied) (fun hext h => h.extend hext) hheld he
    have hlt₁ : ∀ y ∈ (Content.sequence (copies.map (·.2))).members, y < e₁.size := by
      intro y hy
      obtain ⟨i, hi, rfl⟩ := List.mem_map.1 hy
      exact (hall i hi).lt
    obtain ⟨e₂, he₂, hext₂, hcontent, htag⟩ := he₁.exists_added hlt₁ (d.tag? x)
    exact ⟨e₂, _, he₂, hext₁.trans hext₂, .sequence copies hx hcontent htag fun i hi => (hall i hi).extend hext₂⟩
  | mapping pairs =>
    have hpair : ∀ p ∈ pairs, ∀ e : Document, e.Made →
        ∃ (e' : Document) (q : NodeId × NodeId), e'.Made ∧ e.Extends e' ∧ d.Copied e' p.1 q.1 ∧ d.Copied e' p.2 q.2 := by
      intro p hp e he
      have hmem := Content.pair_mem_members hp
      obtain ⟨e₁, key, he₁, hext₁, hkey⟩ := hheld p.1 hmem.1 e he
      obtain ⟨e₂, value, he₂, hext₂, hvalue⟩ := hheld p.2 hmem.2 e₁ he₁
      exact ⟨e₂, (key, value), he₂, hext₁.trans hext₂, hkey.extend hext₂, hvalue⟩
    obtain ⟨e₁, he₁, hext₁, copies, rfl, hall⟩ :=
      exists_all (P := fun e (p q : NodeId × NodeId) => d.Copied e p.1 q.1 ∧ d.Copied e p.2 q.2)
        (fun hext h => ⟨h.1.extend hext, h.2.extend hext⟩) hpair he
    have hlt₁ : ∀ y ∈ (Content.mapping (copies.map (·.2))).members, y < e₁.size := by
      intro y hy
      obtain ⟨q, hq, hy⟩ := List.mem_flatMap.1 hy
      obtain ⟨p, hp, rfl⟩ := List.mem_map.1 hq
      rcases List.mem_pair.1 hy with rfl | rfl
      · exact (hall p hp).1.lt
      · exact (hall p hp).2.lt
    obtain ⟨e₂, he₂, hext₂, hcontent, htag⟩ := he₁.exists_added hlt₁ (d.tag? x)
    exact ⟨e₂, _, he₂, hext₁.trans hext₂, .mapping copies hx hcontent htag (fun p hp => (hall p hp).1.extend hext₂)
      fun p hp => (hall p hp).2.extend hext₂⟩
  | reference name =>
    obtain ⟨t, ht, hcopy⟩ := htarget name (by simp [aliasName?, hx, Content.aliasName?])
    obtain ⟨e', y, he', hext, hy⟩ := hcopy e he
    exact ⟨e', y, he', hext, .target ht hy⟩

/-- Between two aliases of the expansion copies are made from the bottom up. -/
theorem Expandable.copyable_of_targets (hn : d.Expandable n) (hd : d.Intact)
    (htarget : ∀ x t, d.Unfolds n k x → d.Refers x t → d.Copyable t) (hx : d.Unfolds n k x) (hlt : x < d.size) :
    d.Copyable x := by
  induction x using hd.holds_induction with
  | step x ih =>
    refine copyable_step hlt (fun y hy => ih y hy (hx.member hy) (hd.member_lt x y hy)) ?_
    intro name hname
    obtain ⟨t, ht⟩ := hn.registered k x name hx hname
    exact ⟨t, ⟨name, hname, ht⟩, htarget x t hx ⟨name, hname, ht⟩⟩

/-- All that the expansion of an expandable node comes to can be copied. -/
theorem Expandable.copyable (hn : d.Expandable n) (hd : d.Intact) {left : Nat} (hx : d.Unfolds n k x) (hlt : x < d.size)
    (hleft : k + left = maxExpansions) : d.Copyable x := by
  induction left generalizing k x with
  | zero =>
    refine hn.copyable_of_targets hd ?_ hx hlt
    intro y t hy ht
    have hle := hn.bounded _ t (hy.target ht)
    omega
  | succ left ih =>
    refine hn.copyable_of_targets hd ?_ hx hlt
    intro y t hy ht
    have hlt : t < d.size := by
      obtain ⟨name, _, hl⟩ := ht
      exact hd.lookup_lt hl
    exact ih (hy.target ht) hlt (by omega)

/-- Every expandable node has a copy, in a document made for it, and the copy comes to no alias. -/
theorem Expandable.exists_copied (hn : d.Expandable n) (hd : d.Intact) (hlt : n < d.size) :
    ∃ e y, e.Made ∧ d.Copied e n y ∧ ∀ k z, e.Unfolds y k z → e.aliasName? z = none := by
  obtain ⟨e, y, he, _, hy⟩ := hn.copyable hd .here hlt (Nat.zero_add _) .empty .empty
  exact ⟨e, y, he, hy, fun k z hz => (hy.unfolds hz).2⟩

end YamlQuery.Document
