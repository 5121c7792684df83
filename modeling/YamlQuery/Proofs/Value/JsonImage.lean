import Mathlib.Data.List.Induction
import Mathlib.Data.List.Nodup
import Mathlib.Data.List.Perm.Basic
import Mathlib.Data.String.Basic
import YamlQuery.Proofs.Document.Expansion
import YamlQuery.Proofs.Value.Rendering
/-!
The JSON value of a node is the image of its YAML value, where all keys are strings. Both keep the last value of a repeated
key; YAML lists it where the key stands first, JSON in the order of the keys.
-/
namespace YamlQuery

/-- The value in JSON: infinities and NaN become null, fields are in ascending order, and nothing else changes. -/
inductive YamlValue.InJson : YamlValue → JsonValue → Prop
  | finite {x : Binary64} (h : x.isFinite = true) : InJson (.scalar (.float x)) (.scalar (.float x))
  | infinite {x : Binary64} (h : x.isFinite = false) : InJson (.scalar (.float x)) (.scalar .null)
  | scalar {v : ScalarValue} (h : ∀ x, v ≠ .float x) : InJson (.scalar v) (.scalar v)
  | sequence (items : List (YamlValue × JsonValue)) (h : ∀ i ∈ items, InJson i.1 i.2) :
    InJson (.sequence (items.map (·.1))) (.array (items.map (·.2)))
  | mapping (entries : List (String × YamlValue × JsonValue)) (h : ∀ e ∈ entries, InJson e.2.1 e.2.2)
    {fields : List (String × JsonValue)} (hperm : fields.Perm (entries.map fun e => (e.1, e.2.2)))
    (hsorted : fields.Pairwise fun f g => f.1 < g.1) :
    InJson (.mapping (entries.map fun e => (.scalar (.string e.1), e.2.1))) (.object fields)

/-- Lists that agree under `f` agree under whatever `f` determines. -/
theorem map_eq_of_map_eq {α β γ : Type} {f : α → β} {g : α → γ} {as bs : List α} (h : as.map f = bs.map f)
    (hg : ∀ a ∈ as, ∀ b ∈ bs, f a = f b → g a = g b) : as.map g = bs.map g := by
  induction as generalizing bs with
  | nil =>
    obtain rfl : bs = [] := List.map_eq_nil_iff.1 h.symm
    rfl
  | cons a as ih =>
    obtain ⟨b, bs, rfl, hb, hbs⟩ := List.map_eq_cons_iff.1 h.symm
    rw [List.map_cons, List.map_cons, hg a (by simp) b (by simp) hb.symm,
      ih hbs.symm fun x hx y hy => hg x (by simp [hx]) y (by simp [hy])]

/-- A value has one image. -/
theorem YamlValue.InJson.unique {v : YamlValue} {w w' : JsonValue} (h : v.InJson w) (h' : v.InJson w') : w = w' := by
  induction h generalizing w' with
  | finite hx =>
    cases h' with
    | finite => rfl
    | infinite hx' => simp [hx] at hx'
    | scalar hne => exact absurd rfl (hne _)
  | infinite hx =>
    cases h' with
    | finite hx' => simp [hx] at hx'
    | infinite => rfl
    | scalar hne => exact absurd rfl (hne _)
  | scalar hne =>
    cases h' with
    | finite | infinite => exact absurd rfl (hne _)
    | scalar => rfl
  | sequence items _ ih =>
    generalize hv : YamlValue.sequence (items.map (·.1)) = v at h'
    cases h' with
    | finite | infinite | scalar | mapping => cases hv
    | sequence items' hitems' =>
      refine congrArg JsonValue.array (map_eq_of_map_eq (YamlValue.sequence.inj hv) ?_)
      intro i hi j hj hsame
      exact ih i hi (hsame ▸ hitems' j hj)
  | @mapping entries _ fields hperm hsorted ih =>
    generalize hv : YamlValue.mapping (entries.map fun e => (.scalar (.string e.1), e.2.1)) = v at h'
    cases h' with
    | finite | infinite | scalar | sequence => cases hv
    | mapping entries' hentries' hperm' hsorted' =>
      have himages : entries.map (fun e => (e.1, e.2.2)) = entries'.map fun e => (e.1, e.2.2) := by
        apply map_eq_of_map_eq (YamlValue.mapping.inj hv)
        intro e he e' he' hsame
        simp only [Prod.mk.injEq, YamlValue.scalar.injEq, ScalarValue.string.injEq] at hsame ⊢
        exact ⟨hsame.1, ih e he (hsame.2 ▸ hentries' e' he')⟩
      have hsame := hperm.trans (himages ▸ hperm'.symm)
      refine congrArg JsonValue.object (hsame.eq_of_pairwise ?_ hsorted hsorted')
      exact fun f g _ _ hfg hgf => absurd (hfg.trans hgf) (lt_irrefl _)

def putEntry {α : Type} (key : α → String) (a : α) : List α → List α
  | [] => [a]
  | b :: rest => if key b = key a then a :: rest else b :: putEntry key a rest

variable {α : Type} {key : α → String} {a b : α} {as : List α}

theorem mem_putEntry (h : (as.map key).Nodup) : b ∈ putEntry key a as ↔ b = a ∨ b ∈ as ∧ key b ≠ key a := by
  induction as with
  | nil => simp [putEntry]
  | cons c as ih =>
    rw [List.map_cons, List.nodup_cons, List.mem_map] at h
    obtain ⟨hc, has⟩ := h
    rw [putEntry]
    split
    · next hkey =>
      have hne : ∀ b ∈ as, key b ≠ key a := fun b hb he => hc ⟨b, hb, he.trans hkey.symm⟩
      grind
    · next hkey => grind

theorem nodup_putEntry (h : (as.map key).Nodup) : ((putEntry key a as).map key).Nodup := by
  induction as with
  | nil => simp [putEntry]
  | cons c as ih =>
    rw [List.map_cons, List.nodup_cons] at h
    rw [putEntry]
    split
    · next hkey => rw [List.map_cons, List.nodup_cons, ← hkey]; exact h
    · next hkey =>
      rw [List.map_cons, List.nodup_cons]
      refine ⟨?_, ih h.2⟩
      intro hmem
      obtain ⟨b, hb, he⟩ := List.mem_map.1 hmem
      rcases (mem_putEntry h.2).1 hb with rfl | ⟨hb, _⟩
      · exact hkey he.symm
      · exact h.1 (List.mem_map.2 ⟨b, hb, he⟩)

theorem YamlValue.insert_map (f : α → YamlValue) (a : α) (as : List α) :
    insert (as.map fun a => (.scalar (.string (key a)), f a)) (.scalar (.string (key a))) (f a) =
      (putEntry key a as).map fun a => (.scalar (.string (key a)), f a) := by
  induction as with
  | nil => rfl
  | cons b as ih =>
    have hsame : (YamlValue.scalar (.string (key b))).same (.scalar (.string (key a))) = decide (key b = key a) := by
      rw [YamlValue.same, ScalarValue.same, Bool.eq_iff_iff]
      · simp
      · simp
    rw [List.map_cons, insert, hsame, putEntry, ih]
    by_cases hkey : key b = key a
    · simp [hkey]
    · simp [hkey]

namespace JsonValue

variable {m : List (String × JsonValue)} {k : String} {w : JsonValue}

theorem mem_insert (h : m.Pairwise fun f g => f.1 < g.1) (f : String × JsonValue) :
    f ∈ insert m k w ↔ f = (k, w) ∨ f ∈ m ∧ f.1 ≠ k := by
  induction m with
  | nil => simp [insert]
  | cons g m ih =>
    rw [List.pairwise_cons] at h
    obtain ⟨hg, hm⟩ := h
    have ih := ih hm
    rw [insert]
    split
    · next hlt =>
      have hne : ∀ f ∈ g :: m, f.1 ≠ k := by
        intro f hf
        rcases List.mem_cons.1 hf with rfl | hf
        · exact hlt.ne'
        · exact (hlt.trans (hg f hf)).ne'
      grind
    · split
      · next heq =>
        have hne : ∀ f ∈ m, f.1 ≠ k := fun f hf => heq ▸ (hg f hf).ne'
        grind
      · next hne => grind

theorem sorted_insert (h : m.Pairwise fun f g => f.1 < g.1) : (insert m k w).Pairwise fun f g => f.1 < g.1 := by
  induction m with
  | nil => simp [insert]
  | cons g m ih =>
    have hgm := h
    rw [List.pairwise_cons] at h
    obtain ⟨hg, hm⟩ := h
    rw [insert]
    split
    · next hlt =>
      refine List.pairwise_cons.2 ⟨?_, hgm⟩
      intro f hf
      rcases List.mem_cons.1 hf with rfl | hf
      · exact hlt
      · exact hlt.trans (hg f hf)
    · next hge =>
      split
      · next heq => exact List.pairwise_cons.2 ⟨heq ▸ hg, hm⟩
      · next hne =>
        refine List.pairwise_cons.2 ⟨?_, ih hm⟩
        intro f hf
        rcases (mem_insert hm f).1 hf with rfl | ⟨hf, _⟩
        · exact lt_of_le_of_ne (not_lt.1 hge) hne
        · exact hg f hf

end JsonValue

/-- What is kept of entries in a mapping and in an object: of each key the last entry, in the place of the first or in the
order of the keys. -/
structure KeepsLast (key : α → String) (f : α → YamlValue) (g : α → JsonValue) (as kept : List α)
    (fields : List (String × JsonValue)) : Prop where
  subset : ∀ a ∈ kept, a ∈ as
  nodup : (kept.map key).Nodup
  pairs : YamlValue.ofPairs (as.map fun a => (.scalar (.string (key a)), f a)) =
    .mapping (kept.map fun a => (.scalar (.string (key a)), f a))
  object : JsonValue.ofFields (as.map fun a => (key a, g a)) = .object fields
  mem_iff : ∀ x, x ∈ fields ↔ x ∈ kept.map fun a => (key a, g a)
  sorted : fields.Pairwise fun f g => f.1 < g.1

variable {f : α → YamlValue} {g : α → JsonValue} {kept : List α} {fields : List (String × JsonValue)}

theorem KeepsLast.put (h : KeepsLast key f g as kept fields) (a : α) :
    KeepsLast key f g (as ++ [a]) (putEntry key a kept) (JsonValue.insert fields (key a) (g a)) where
  subset := by
    intro b hb
    rcases (mem_putEntry h.nodup).1 hb with rfl | ⟨hb, _⟩
    · simp
    · simp [h.subset b hb]
  nodup := nodup_putEntry h.nodup
  pairs := by
    have hpairs := YamlValue.mapping.inj h.pairs
    rw [YamlValue.ofPairs, List.map_append, List.foldl_append, hpairs]
    exact congrArg YamlValue.mapping (YamlValue.insert_map f a kept)
  object := by
    have hobject := JsonValue.object.inj h.object
    rw [JsonValue.ofFields, List.map_append, List.foldl_append, hobject]
    rfl
  mem_iff := by
    intro x
    rw [JsonValue.mem_insert h.sorted, h.mem_iff, List.mem_map, List.mem_map]
    constructor
    · intro hx
      rcases hx with rfl | ⟨⟨b, hb, rfl⟩, hne⟩
      · exact ⟨a, (mem_putEntry h.nodup).2 (.inl rfl), rfl⟩
      · exact ⟨b, (mem_putEntry h.nodup).2 (.inr ⟨hb, hne⟩), rfl⟩
    · intro hx
      obtain ⟨b, hb, rfl⟩ := hx
      rcases (mem_putEntry h.nodup).1 hb with rfl | ⟨hb, hne⟩
      · exact .inl rfl
      · exact .inr ⟨⟨b, hb, rfl⟩, hne⟩
  sorted := JsonValue.sorted_insert h.sorted

theorem exists_keepsLast (key : α → String) (f : α → YamlValue) (g : α → JsonValue) (as : List α) :
    ∃ kept fields, KeepsLast key f g as kept fields := by
  induction as using List.reverseRecOn with
  | nil => exact ⟨[], [], by simp, by simp, rfl, rfl, by simp, .nil⟩
  | append_singleton as a ih =>
    obtain ⟨kept, fields, h⟩ := ih
    exact ⟨_, _, h.put a⟩

/-- The fields are the pairs in the order of the keys. -/
theorem KeepsLast.perm (h : KeepsLast key f g as kept fields) : fields.Perm (kept.map fun a => (key a, g a)) := by
  refine (List.perm_ext_iff_of_nodup ?_ ?_).2 h.mem_iff
  · exact h.sorted.imp fun hlt he => hlt.ne (congrArg Prod.fst he)
  · refine List.Nodup.of_map Prod.fst ?_
    rw [List.map_map]
    exact h.nodup

/-- A mapping and an object of the same entries. -/
theorem YamlValue.inJson_ofPairs (key : α → String) (h : ∀ a ∈ as, (f a).InJson (g a)) :
    InJson (ofPairs (as.map fun a => (.scalar (.string (key a)), f a))) (.ofFields (as.map fun a => (key a, g a))) := by
  obtain ⟨kept, fields, hkept⟩ := exists_keepsLast key f g as
  have hentries : ∀ e ∈ kept.map fun a => (key a, f a, g a), InJson e.2.1 e.2.2 := by
    intro e he
    obtain ⟨a, ha, rfl⟩ := List.mem_map.1 he
    exact h a (hkept.subset a ha)
  have hperm : fields.Perm ((kept.map fun a => (key a, f a, g a)).map fun e => (e.1, e.2.2)) := by
    rw [List.map_map]
    exact hkept.perm
  have himage := InJson.mapping _ hentries hperm hkept.sorted
  rw [List.map_map] at himage
  rw [hkept.pairs, hkept.object]
  exact himage

theorem YamlValue.inJson_ofScalar (v : ScalarValue) : InJson (.scalar v) (.ofScalar v) := by
  cases v with
  | float x =>
    cases hx : x.isFinite with
    | true => simpa [JsonValue.ofScalar, hx] using InJson.finite hx
    | false => simpa [JsonValue.ofScalar, hx] using InJson.infinite hx
  | null | bool | int | string => exact .scalar (by simp)

namespace Document

variable {d : Document} {n x : NodeId} {k left : Nat}

def StringKeys (d : Document) (n : NodeId) : Prop :=
  ∀ k x pairs, k ≤ maxExpansions → d.Unfolds n k x → d.content? x = some (.mapping pairs) → ∀ p ∈ pairs,
    ∃ text style s, d.content? p.1 = some (.scalar text style) ∧ .resolve text style (d.tag? p.1) = ScalarValue.string s

def hasStringKeys (d : Document) : Bool :=
  (List.range d.size).all fun x =>
    match d.content? x with
    | some (.mapping pairs) => pairs.all fun p =>
      match d.content? p.1 with
      | some (.scalar text style) => .resolve text style (d.tag? p.1) == ScalarValue.string text
      | _ => false
    | _ => true

theorem stringKeys_of_hasStringKeys (h : d.hasStringKeys = true) (n : NodeId) : d.StringKeys n := by
  intro k x pairs _ _ hc p hp
  obtain ⟨node, hnode, _⟩ := Option.map_eq_some_iff.1 hc
  have hx := List.all_eq_true.1 h x (List.mem_range.2 (node?_lt hnode))
  simp only [hc] at hx
  have hkey := List.all_eq_true.1 hx p hp
  split at hkey
  · next text style hcontent => exact ⟨text, style, text, hcontent, beq_iff_eq.1 hkey⟩
  · cases hkey

/-- A scalar that resolves to a string resolves to its text. -/
theorem resolve_eq_string {text s : String} {style : ScalarStyle} {tag : Option String}
    (h : .resolve text style tag = ScalarValue.string s) : s = text := by
  have hplain : ∀ v, ScalarValue.word? text = some v → v ≠ .string s := by
    intro v hv
    rw [ScalarValue.word?] at hv
    grind
  rw [ScalarValue.resolve, ScalarValue.ofPlain] at h
  grind

def fieldKey (d : Document) (left : Nat) (id : NodeId) : String := (d.text? id).getD (d.rendered .json left id).compact

theorem Intact.inJson_rendered (h : d.Intact) (hkeys : d.StringKeys n) (hx : d.Unfolds n k x)
    (hleft : k + left = maxExpansions) : (d.rendered .yaml left x).InJson (d.rendered .json left x) := by
  have hv := h.renders_rendered (r := .yaml) left x
  generalize d.rendered .yaml left x = v at hv
  induction hv generalizing k with
  | missing hc =>
    rw [← h.renders_iff.1 (.missing hc)]
    exact YamlValue.inJson_ofScalar .null
  | scalar hc =>
    rw [h.rendered_scalar hc]
    exact YamlValue.inJson_ofScalar _
  | @sequence left x items hc value hvalue ih =>
    have himage := YamlValue.InJson.sequence (items.map fun c => (value c, d.rendered .json left c)) (by
      intro i hi
      obtain ⟨c, hmem, rfl⟩ := List.mem_map.1 hi
      exact ih c hmem (hx.member (holds_of_content? hc hmem)) hleft)
    rw [h.rendered_sequence hc]
    simpa [Rendering.yaml, Rendering.json, Function.comp_def] using himage
  | @mapping left x pairs hc value hk hv ihk ihv =>
    have hkey : ∀ p ∈ pairs, value p.1 = .scalar (.string (d.fieldKey left p.1)) := by
      intro p hp
      obtain ⟨text, style, s, hcontent, hresolve⟩ := hkeys k x pairs (by omega) hx hc p hp
      have htext : d.fieldKey left p.1 = text := by simp [fieldKey, text?, hcontent, Content.text?]
      rw [(hk p hp).unique (.scalar hcontent), hresolve, resolve_eq_string hresolve, htext]
      rfl
    have hvalue : ∀ p ∈ pairs, (value p.2).InJson (d.rendered .json left p.2) := fun p hp =>
      ihv p hp (hx.member (holds_of_content? hc (Content.pair_mem_members hp).2)) hleft
    have hpairs : pairs.map (fun p => (value p.1, value p.2)) =
        pairs.map fun p => (.scalar (.string (d.fieldKey left p.1)), value p.2) :=
      List.map_congr_left fun p hp => by rw [hkey p hp]
    rw [h.rendered_mapping hc]
    change (YamlValue.ofPairs (pairs.map fun p => (value p.1, value p.2))).InJson _
    rw [hpairs]
    exact YamlValue.inJson_ofPairs (fun p => d.fieldKey left p.1) hvalue
  | @expanded left x target name v hc hl _ ih =>
    have hname : d.aliasName? x = some name := by simp [aliasName?, hc, Content.aliasName?]
    rw [h.rendered_expanded hc hl]
    exact ih (hx.target ⟨name, hname, hl⟩) (by omega)
  | kept hc hstop =>
    rw [← h.renders_iff.1 (.kept hc hstop)]
    exact YamlValue.inJson_ofScalar _

/-- Where the keys are strings, the JSON value of a node is the image of its YAML value. -/
theorem Made.jsonValue_inJson (h : d.Made) (hkeys : d.StringKeys n) : (d.yamlValue n).InJson (d.jsonValue n) := by
  rw [yamlValue_eq_rendered, jsonValue_eq_rendered]
  exact h.intact.inJson_rendered hkeys .here (Nat.zero_add _)

/-- A mapping that stands in itself, with an infinity and a repeated key. -/
theorem jsonValue_inJson_cyclic : ∃ d, read "&m {b: *m, a: .inf, b: 2}" = .ok d ∧ d.StringKeys 0 ∧
    (d.jsonValue 0).compact = "\x7b\"a\":null,\"b\":2\x7d" ∧ (d.yamlValue 0).InJson (d.jsonValue 0) := by
  have hfacts : (read "&m {b: *m, a: .inf, b: 2}").toOption.map (fun d => (d.hasStringKeys, (d.jsonValue 0).compact)) =
      some (true, "\x7b\"a\":null,\"b\":2\x7d") := by decide +kernel
  obtain ⟨d, hd, hfacts⟩ := Option.map_eq_some_iff.1 hfacts
  simp only [Prod.mk.injEq] at hfacts
  have hread := Outcome.eq_ok_of_toOption hd
  have hkeys := stringKeys_of_hasStringKeys hfacts.1 0
  exact ⟨d, hread, hkeys, hfacts.2, Made.jsonValue_inJson (.read hread) hkeys⟩

end Document
end YamlQuery
