import YamlQuery.Proofs.Document.Expansion
import YamlQuery.Proofs.Value.Rendering
/-!
Values do not show aliases. The YAML value of an expandable node is that of its copy without aliases. So is the JSON value,
as long as an alias that is the key of a pair stands for no scalar whose JSON text is not its own: such a key is written as
JSON text, where the key of the copy is written as it is.
-/
namespace YamlQuery.Document

variable {K V : Type} {r : Rendering K V} {d e : Document} {n x y : NodeId} {k left : Nat}

def KeepsKeys (r : Rendering K V) (d e : Document) (n : NodeId) : Prop :=
  ∀ k x pairs, d.Unfolds n k x → d.content? x = some (.mapping pairs) → ∀ p ∈ pairs, ∀ q, d.Copied e p.1 q → ∀ left,
    r.key (d.text? p.1) (e.rendered r left q) = r.key (e.text? q) (e.rendered r left q)

/-- A copy has the value of what it copies. -/
theorem Copied.rendered_eq (h : d.Copied e x y) (hd : d.Intact) (he : e.Intact) (hn : d.Expandable n)
    (hkeys : KeepsKeys r d e n) (hx : d.Unfolds n k x) (hleft : k + left = maxExpansions) (left' : Nat) :
    d.rendered r left x = e.rendered r left' y := by
  induction h generalizing k left with
  | scalar hcontent hy ht => rw [hd.rendered_scalar hcontent, he.rendered_scalar hy, ht]
  | sequence items hcontent hy _ _ ih =>
    have hitems : ∀ i ∈ items, d.rendered r left i.1 = e.rendered r left' i.2 := by
      intro i hi
      exact ih i hi (hx.member (holds_of_content? hcontent (List.mem_map_of_mem hi))) hleft
    rw [hd.rendered_sequence hcontent, he.rendered_sequence hy, List.map_map, List.map_map]
    exact congrArg r.sequence (List.map_congr_left hitems)
  | @mapping x y pairs hcontent hy _ hk _ ihk ihv =>
    have hheld : ∀ p ∈ pairs, d.Holds x p.1.1 ∧ d.Holds x p.1.2 := by
      intro p hp
      have hmem := Content.pair_mem_members (List.mem_map_of_mem (f := (·.1)) hp)
      exact ⟨holds_of_content? hcontent hmem.1, holds_of_content? hcontent hmem.2⟩
    rw [hd.rendered_mapping hcontent, he.rendered_mapping hy, List.map_map, List.map_map]
    apply congrArg r.mapping
    apply List.map_congr_left
    intro p hp
    have hkey := hkeys k x _ hx hcontent p.1 (List.mem_map_of_mem hp) p.2.1 (hk p hp) left'
    have hfirst := ihk p hp (hx.member (hheld p hp).1) hleft
    have hsecond := ihv p hp (hx.member (hheld p hp).2) hleft
    simp only [Function.comp_apply, hfirst, hsecond, hkey]
  | target hrefers _ ih =>
    have hle := hn.bounded _ _ (hx.target hrefers)
    obtain ⟨left, rfl⟩ : ∃ l, left = l + 1 := ⟨left - 1, by omega⟩
    obtain ⟨name, hname, hl⟩ := hrefers
    have hcontent := content?_of_aliasName? hname
    rw [hd.rendered_expanded hcontent hl]
    exact ih (hx.target ⟨name, hname, hl⟩) (by omega)

theorem keepsKeys_yaml (d e : Document) (n : NodeId) : KeepsKeys .yaml d e n := fun _ _ _ _ _ _ _ _ _ _ => rfl

def LiteralKeys (d : Document) (n : NodeId) : Prop :=
  ∀ k x pairs, d.Unfolds n k x → d.content? x = some (.mapping pairs) → ∀ p ∈ pairs, d.aliasName? p.1 ≠ none →
    ∀ t text, d.EndsAt p.1 t → d.text? t = some text → (d.jsonValue t).compact = text

/-- The copy of a scalar has its value, wherever the two are rendered. -/
theorem Copied.rendered_text (h : d.Copied e x y) (hd : d.Intact) (he : e.Intact) {text : String} (hx : d.text? x = some text)
    (left left' : Nat) : d.rendered r left x = e.rendered r left' y := by
  obtain ⟨c, hc, htext⟩ := Option.bind_eq_some_iff.1 hx
  cases h with
  | scalar hcontent hy ht => rw [hd.rendered_scalar hcontent, he.rendered_scalar hy, ht]
  | sequence _ hcontent | mapping _ hcontent =>
    cases hc.symm.trans hcontent
    cases htext
  | target hrefers =>
    obtain ⟨name, hname, _⟩ := hrefers
    cases hc.symm.trans (content?_of_aliasName? hname)
    cases htext

theorem LiteralKeys.keepsKeys (h : d.LiteralKeys n) (hd : d.Intact) (he : e.Intact) : KeepsKeys .json d e n := by
  intro k x pairs hx hcontent p hp q hq left
  obtain ⟨t, hends, hcopy, htext⟩ := hq.endsAt
  cases hname : d.aliasName? p.1 with
  | none =>
    have hself : p.1 = t := EndsAt.unique ⟨.refl, hname⟩ hends
    rw [← htext, hself]
  | some name =>
    have hnone : d.text? p.1 = none := by rw [text?, content?_of_aliasName? hname, Option.bind_some]; rfl
    cases ht : e.text? q with
    | none => rw [hnone]
    | some text =>
      rw [ht] at htext
      have hvalue : d.jsonValue t = e.rendered .json left q := by
        rw [jsonValue_eq_rendered, hcopy.rendered_text hd he htext maxExpansions left]
      have hliteral := h k x pairs hx hcontent p hp (by simp [hname]) t text hends htext
      rw [hvalue] at hliteral
      rw [hnone]
      exact hliteral

/-- In `d` node 2 is a mapping with an alias of a scalar as its key and, inside a list, as its value; in `e` node 0 is that
mapping without aliases. -/
def KeyedByAlias (text : String) (d e : Document) : Prop :=
  (d.coversSteps [(0, 2), (0, 3), (0, 4), (0, 5), (1, 1)] = true ∧ d.lookupAnchor? "k" = some 1) ∧
    (d.content? 1 = some (.scalar text .plain) ∧ d.content? 2 = some (.mapping [(3, 4)]) ∧ d.aliasName? 3 = some "k" ∧
      d.content? 4 = some (.sequence [5]) ∧ d.aliasName? 5 = some "k" ∧ ∀ i < 6, d.tag? i = none) ∧
    e.content? 0 = some (.mapping [(1, 2)]) ∧ e.content? 1 = some (.scalar text .plain) ∧ e.content? 2 = some (.sequence [3]) ∧
      e.content? 3 = some (.scalar text .plain) ∧ ∀ i < 4, e.tag? i = none

instance (text : String) (d e : Document) : Decidable (KeyedByAlias text d e) :=
  inferInstanceAs (Decidable ((_ ∧ _) ∧ (_ ∧ _ ∧ _ ∧ _ ∧ _ ∧ _) ∧ _ ∧ _ ∧ _ ∧ _ ∧ _))

theorem KeyedByAlias.expandable {text : String} (h : KeyedByAlias text d e) : d.Expandable 2 :=
  expandable_of_coversSteps h.1.1 (by decide) (by decide)

theorem KeyedByAlias.copied {text : String} (h : KeyedByAlias text d e) : d.Copied e 2 0 := by
  obtain ⟨⟨_, hl⟩, ⟨hscalar, hmapping, hkey, hsequence, hitem, htag⟩, hmapping', hkey', hsequence', hitem', htag'⟩ := h
  have hone : ∀ {y}, y < 4 → e.content? y = some (.scalar text .plain) → d.Copied e 1 y :=
    fun hlt hy => .scalar hscalar hy ((htag' _ hlt).trans (htag 1 (by decide)).symm)
  have hfirst : d.Copied e 3 1 := .target ⟨"k", hkey, hl⟩ (hone (by decide) hkey')
  have hlast : d.Copied e 5 3 := .target ⟨"k", hitem, hl⟩ (hone (by decide) hitem')
  have hlist : d.Copied e 4 2 :=
    .sequence [(5, 3)] hsequence hsequence' ((htag' 2 (by decide)).trans (htag 4 (by decide)).symm) (by simpa using hlast)
  exact .mapping [((3, 4), (1, 2))] hmapping hmapping' ((htag' 0 (by decide)).trans (htag 2 (by decide)).symm)
    (by simpa using hfirst) (by simpa using hlist)

theorem KeyedByAlias.literalKeys {text : String} (h : KeyedByAlias text d e) (hvalue : (d.jsonValue 1).compact = text) :
    d.LiteralKeys 2 := by
  obtain ⟨⟨hsteps, hl⟩, ⟨hscalar, hmapping, hkey, hsequence, hitem, _⟩, _⟩ := h
  have hends : d.EndsAt 3 1 :=
    ⟨.single ⟨"k", hkey, hl⟩, by simp [aliasName?, hscalar, Content.aliasName?]⟩
  intro k x pairs hx hcontent p hp _ t word ht hword
  have hmem := hx.mem_of_coversSteps hsteps (by decide)
  have hx : x = 2 := by
    simp only [List.mem_cons, Prod.mk.injEq, List.not_mem_nil, or_false] at hmem
    rcases hmem with ⟨_, rfl⟩ | ⟨_, rfl⟩ | ⟨_, rfl⟩ | ⟨_, rfl⟩ | ⟨_, rfl⟩
    · rfl
    · cases hcontent.symm.trans (content?_of_aliasName? hkey)
    · cases hcontent.symm.trans hsequence
    · cases hcontent.symm.trans (content?_of_aliasName? hitem)
    · cases hcontent.symm.trans hscalar
  subst hx
  cases hcontent.symm.trans hmapping
  obtain rfl := List.mem_singleton.1 hp
  obtain rfl := ht.unique hends
  obtain rfl : text = word := by simpa [text?, hscalar, Content.text?] using hword
  exact hvalue

/-- Coming to the YAML value of a node takes finitely many steps, and for an expandable node it is the value of every copy
without aliases. Such a copy there is. -/
theorem Made.yamlValue_unaliased (h : d.Made) (hlt : n < d.size) :
    (∀ v, Rendering.yaml.Renders d maxExpansions n v ↔ v = d.yamlValue n) ∧
      (d.Expandable n → (∃ e y, e.Made ∧ d.Copied e n y ∧ ∀ k z, e.Unfolds y k z → e.aliasName? z = none) ∧
        ∀ e y, e.Made → d.Copied e n y → d.yamlValue n = e.yamlValue y) := by
  refine ⟨fun v => ?_, fun hn => ⟨hn.exists_copied h.intact hlt, ?_⟩⟩
  · rw [yamlValue_eq_rendered]
    exact h.intact.renders_iff
  · intro e y he hy
    rw [yamlValue_eq_rendered, yamlValue_eq_rendered]
    exact hy.rendered_eq h.intact he.intact hn (keepsKeys_yaml d e n) .here (Nat.zero_add _) _

/-- A word as key and item. -/
theorem yamlValue_unaliased_word : ∃ d e, read "- &k a\n- {*k : [*k]}\n" = .ok d ∧ read "{a: [a]}" = .ok e ∧
    (2 < d.size ∧ d.Expandable 2 ∧ d.Copied e 2 0) ∧ Rendering.yaml.Renders d maxExpansions 2 (d.yamlValue 2) ∧
      d.yamlValue 2 = e.yamlValue 0 := by
  have hfacts : (read "- &k a\n- {*k : [*k]}\n").toOption.bind (fun d => (read "{a: [a]}").toOption.map fun e =>
      (d.size, decide (KeyedByAlias "a" d e))) = some (6, true) := by decide +kernel
  obtain ⟨d, hd, hfacts⟩ := Option.bind_eq_some_iff.1 hfacts
  obtain ⟨e, he, hfacts⟩ := Option.map_eq_some_iff.1 hfacts
  simp only [Prod.mk.injEq, decide_eq_true_eq] at hfacts
  obtain ⟨hsize, hkeyed⟩ := hfacts
  have hreadd := Outcome.eq_ok_of_toOption hd
  have hreade := Outcome.eq_ok_of_toOption he
  have hlt : 2 < d.size := by omega
  obtain ⟨hrenders, hcopies⟩ := Made.yamlValue_unaliased (.read hreadd) hlt
  exact ⟨d, e, hreadd, hreade, ⟨hlt, hkeyed.expandable, hkeyed.copied⟩, (hrenders _).2 rfl,
    (hcopies hkeyed.expandable).2 e 0 (.read hreade) hkeyed.copied⟩

/-- With keys that JSON writes as they are, the JSON value of an expandable node is that of every copy without aliases. -/
theorem Made.jsonValue_unaliased (h : d.Made) (hlt : n < d.size) (hn : d.Expandable n) (hkeys : d.LiteralKeys n) :
    (∃ e y, e.Made ∧ d.Copied e n y ∧ ∀ k z, e.Unfolds y k z → e.aliasName? z = none) ∧
      ∀ e y, e.Made → d.Copied e n y → d.jsonValue n = e.jsonValue y := by
  refine ⟨hn.exists_copied h.intact hlt, ?_⟩
  intro e y he hy
  rw [jsonValue_eq_rendered, jsonValue_eq_rendered]
  exact hy.rendered_eq h.intact he.intact hn (hkeys.keepsKeys h.intact he.intact) .here (Nat.zero_add _) _

/-- A number as key and item: JSON has no quotes for it. -/
theorem jsonValue_unaliased_number : ∃ d e, read "- &k 7\n- {*k : [*k]}\n" = .ok d ∧ read "{7: [7]}" = .ok e ∧
    (2 < d.size ∧ d.Expandable 2 ∧ d.LiteralKeys 2 ∧ d.Copied e 2 0) ∧ d.jsonValue 2 = e.jsonValue 0 := by
  have hfacts : (read "- &k 7\n- {*k : [*k]}\n").toOption.bind (fun d => (read "{7: [7]}").toOption.map fun e =>
      (d.size, (d.jsonValue 1).compact, decide (KeyedByAlias "7" d e))) = some (6, "7", true) := by decide +kernel
  obtain ⟨d, hd, hfacts⟩ := Option.bind_eq_some_iff.1 hfacts
  obtain ⟨e, he, hfacts⟩ := Option.map_eq_some_iff.1 hfacts
  simp only [Prod.mk.injEq, decide_eq_true_eq] at hfacts
  obtain ⟨hsize, hvalue, hkeyed⟩ := hfacts
  have hreadd := Outcome.eq_ok_of_toOption hd
  have hreade := Outcome.eq_ok_of_toOption he
  have hlt : 2 < d.size := by omega
  have hliteral := hkeyed.literalKeys hvalue
  obtain ⟨_, hcopies⟩ := Made.jsonValue_unaliased (.read hreadd) hlt hkeyed.expandable hliteral
  exact ⟨d, e, hreadd, hreade, ⟨hlt, hkeyed.expandable, hliteral, hkeyed.copied⟩, hcopies e 0 (.read hreade) hkeyed.copied⟩

/-- With an alias to a word as key, the JSON key has the quotes of JSON text, which that of the copy has not. -/
theorem jsonValue_word_key : ∃ d e, read "- &k a\n- {*k : [*k]}\n" = .ok d ∧ read "{a: [a]}" = .ok e ∧
    (2 < d.size ∧ d.Expandable 2 ∧ d.Copied e 2 0) ∧ (d.jsonValue 2).compact = "\x7b\"\\\"a\\\"\":[\"a\"]\x7d" ∧
      (e.jsonValue 0).compact = "\x7b\"a\":[\"a\"]\x7d" ∧ d.jsonValue 2 ≠ e.jsonValue 0 := by
  have hfacts : (read "- &k a\n- {*k : [*k]}\n").toOption.bind (fun d => (read "{a: [a]}").toOption.map fun e =>
      (d.size, (d.jsonValue 2).compact, (e.jsonValue 0).compact, decide (KeyedByAlias "a" d e))) =
      some (6, "\x7b\"\\\"a\\\"\":[\"a\"]\x7d", "\x7b\"a\":[\"a\"]\x7d", true) := by decide +kernel
  obtain ⟨d, hd, hfacts⟩ := Option.bind_eq_some_iff.1 hfacts
  obtain ⟨e, he, hfacts⟩ := Option.map_eq_some_iff.1 hfacts
  simp only [Prod.mk.injEq, decide_eq_true_eq] at hfacts
  obtain ⟨hsize, hvalue, hvalue', hkeyed⟩ := hfacts
  refine ⟨d, e, Outcome.eq_ok_of_toOption hd, Outcome.eq_ok_of_toOption he,
    ⟨by omega, hkeyed.expandable, hkeyed.copied⟩, hvalue, hvalue', ?_⟩
  intro hsame
  rw [hsame, hvalue'] at hvalue
  exact absurd hvalue (by decide)

end YamlQuery.Document
