import YamlQuery.Document.Read
import YamlQuery.Proofs.Document.Loading
import YamlQuery.Proofs.Yaml.JsonTokens
/-!
Compact JSON text is YAML: its document is the tree of the value, with every string as a quoted scalar and every other scalar
as a plain one.
-/
namespace YamlQuery.JsonValue
open Yaml

def readText : ScalarValue → String
  | .string text => text
  | v => scalarText v

def readStyle : ScalarValue → ScalarStyle
  | .string _ => .doubleQuoted
  | _ => .plain

mutual

def tree : JsonValue → Tree .node
  | scalar v => .scalar (readText v) (readStyle v) 0 none
  | array items => .sequence 0 none (itemTree items)
  | object fields => .mapping 0 none (fieldTree fields)

def itemTree : List JsonValue → Tree .items
  | [] => .noItems
  | v :: vs => .item v.tree (itemTree vs)

def fieldTree : List (String × JsonValue) → Tree .pairs
  | [] => .noPairs
  | (k, v) :: fs => .key (.scalar k .doubleQuoted 0 none) (.value v.tree (fieldTree fs))

end

def startsNode : TokenKind → Bool
  | .scalar _ _ | .flowSequenceStart | .flowMappingStart => true
  | _ => false

theorem tokens_cons (v : JsonValue) : ∃ k ks, v.tokens = k :: ks ∧ startsNode k = true := by
  cases v with
  | scalar v => cases v <;> exact ⟨_, _, rfl, rfl⟩
  | array items =>
    cases items with
    | nil => exact ⟨_, _, rfl, rfl⟩
    | cons v vs => exact ⟨_, _, by rw [tokens], rfl⟩
  | object fields =>
    cases fields with
    | nil => exact ⟨_, _, rfl, rfl⟩
    | cons f fs => exact ⟨_, _, by rw [tokens], rfl⟩

end YamlQuery.JsonValue

namespace YamlQuery.Yaml.Read
open Outcome JsonValue

variable {α β : Type} {r r' : Reader} {after : List Expected} {ts rest : List Token} {e : Event} {es fs : List Event}

theorem bind_apply (m : Read α) (f : α → Read β) (r : Reader) : (m >>= f) r = m r >>= fun p => f p.1 p.2 := rfl

theorem get_apply (r : Reader) : (get : Read Reader) r = .ok (r, r) := rfl

theorem pure_apply (a : α) (r : Reader) : (pure a : Read α) r = .ok (a, r) := rfl

theorem peek_apply {t : Token} (h : r.tokens = t :: ts) : peek r = .ok (t.kind, r) := by
  simp only [peek, bind_apply, get_apply, bind_ok, h]
  rfl

theorem skip_apply (r : Reader) : skip r = .ok ((), { r with tokens := r.tokens.tail }) := rfl

theorem expect_apply (stack : List Expected) (r : Reader) : expect stack r = .ok ((), { r with expected := stack }) := rfl

def Sends (es : List Event) (r r' : Reader) : Prop :=
  ∀ fuel tail r'', Read.rest fuel r' = .ok (tail, r'') → Read.rest (es.length + fuel) r = .ok (es ++ tail, r'')

theorem Sends.nil (r : Reader) : Sends [] r r := by
  intro fuel tail r'' h
  rw [List.length_nil, Nat.zero_add]
  exact h

theorem Sends.cons {r₁ : Reader} (h : next r = .ok (some e, r₁)) (hs : Sends es r₁ r') : Sends (e :: es) r r' := by
  intro fuel tail r'' ht
  have hrest := hs fuel tail r'' ht
  rw [List.length_cons, Nat.add_right_comm, Read.rest, bind_apply, h, bind_ok]
  dsimp only
  rw [bind_apply, hrest]
  rfl

theorem Sends.append {r₁ : Reader} (h : Sends es r r₁) (hs : Sends fs r₁ r') : Sends (es ++ fs) r r' := by
  intro fuel tail r'' ht
  rw [List.length_append, Nat.add_assoc, List.append_assoc]
  exact h _ _ _ (hs fuel tail r'' ht)

variable {place q : Place} {block indentless : Bool} {us : List Token}

theorem properties_none {t : Token} (h : r.tokens = t :: ts) (ht : startsNode t.kind = true) :
    properties r = .ok ((0, none), r) := by
  rw [properties, bind_apply, peek_apply h, bind_ok]
  obtain ⟨p, k⟩ := t
  cases k
  case scalar | flowSequenceStart | flowMappingStart => rfl
  all_goals simp [startsNode] at ht

theorem node_start {t : Token} (h : r.tokens = t :: ts) (ht : startsNode t.kind = true) :
    node block indentless after r = (match t.kind with
      | .scalar style text => do
        expect after
        skip
        return .scalar text style 0 none
      | .flowSequenceStart => do
        expect (.flowSequence true :: after)
        return .sequenceStart 0 none
      | _ => do
        expect (.flowMappingKey true :: after)
        return .mappingStart 0 none : Read Event) r := by
  rw [node, bind_apply, peek_apply h, bind_ok]
  cases hk : t.kind
  case scalar =>
    simp only [bind_apply, properties_none h ht, bind_ok, peek_apply h, hk]
  case flowSequenceStart =>
    simp only [bind_apply, properties_none h ht, bind_ok, peek_apply h, hk]
  case flowMappingStart =>
    simp only [bind_apply, properties_none h ht, bind_ok, peek_apply h, hk]
  all_goals simp [hk, startsNode] at ht

theorem node_scalar {style : ScalarStyle} {text : String} (h : r.tokens = ⟨place, .scalar style text⟩ :: ts) :
    node block indentless after r = .ok (.scalar text style 0 none, { r with tokens := ts, expected := after }) := by
  rw [node_start h rfl]
  simp only [bind_apply, expect_apply, bind_ok, skip_apply, h, List.tail_cons]
  rfl

theorem node_sequence (h : r.tokens = ⟨place, .flowSequenceStart⟩ :: ts) :
    node block indentless after r = .ok (.sequenceStart 0 none, { r with expected := .flowSequence true :: after }) := by
  rw [node_start h rfl]
  rfl

theorem node_mapping (h : r.tokens = ⟨place, .flowMappingStart⟩ :: ts) :
    node block indentless after r = .ok (.mappingStart 0 none, { r with expected := .flowMappingKey true :: after }) := by
  rw [node_start h rfl]
  rfl

def Reads (v : JsonValue) : Prop :=
  ∀ {r : Reader} {ts rest : List Token} (block indentless : Bool) (after : List Expected),
    r.tokens = ts ++ rest → ts.map (·.kind) = v.tokens → ∃ e es r₁, v.tree.events = e :: es ∧
      node block indentless after r = .ok (e, r₁) ∧ Sends es r₁ { r with tokens := rest, expected := after }

theorem Reads.next {v : JsonValue} (h : Reads v) (ht : ts.map (·.kind) = v.tokens)
    (hnext : Read.next r = (node false false after { r with tokens := ts ++ rest }).map fun p => (some p.1, p.2)) :
    Sends v.tree.events r { r with tokens := rest, expected := after } := by
  obtain ⟨e, es, r₁, hes, hnode, hsends⟩ := h (r := { r with tokens := ts ++ rest }) false false after rfl ht
  rw [hnode] at hnext
  rw [hes]
  exact .cons hnext hsends

theorem skipStart_true {t : Token} (h : r.tokens = t :: ts) : skipStart true r = .ok ((), { r with tokens := ts }) := by
  have hdiscard : (discard peek : Read Unit) r = .ok ((), r) := by
    show (peek r >>= fun p => .ok ((), p.2)) = _
    rw [peek_apply h]
    rfl
  simp only [skipStart, ↓reduceIte, bind_apply, hdiscard, bind_ok, skip_apply, h, List.tail_cons]

theorem skipStart_false (r : Reader) : skipStart false r = .ok ((), r) := rfl

/-- An event is the next one if it is what the expectation calls for. -/
theorem map_some (m : Read Event) (r : Reader) :
    (do return some (← m) : Read (Option Event)) r = (m r).map fun p => (some p.1, p.2) := by
  rw [bind_apply]
  cases m r <;> rfl

theorem next_sequence {first : Bool} {r₁ : Reader} (he : r.expected = .flowSequence first :: after)
    (hs : skipStart first r = .ok ((), r₁)) : next r = (flowSequence first after r₁).map fun p => (some p.1, p.2) := by
  rw [← map_some]
  simp only [next, bind_apply, get_apply, bind_ok, he, hs]

theorem flowSequence_end {first : Bool} (hr : r.tokens = ⟨place, .flowSequenceEnd⟩ :: ts) :
    flowSequence first after r = .ok (.sequenceEnd, { r with tokens := ts, expected := after }) := by
  simp only [flowSequence, bind_apply, peek_apply hr, bind_ok, ↓reduceIte, endFlowSequence, expect_apply, skip_apply, hr,
    List.tail_cons]
  rfl

theorem flowSequence_first {t : Token} (hr : r.tokens = t :: ts) (ht : startsNode t.kind = true) :
    flowSequence true after r = node false false (.flowSequence false :: after) r := by
  obtain ⟨p, k⟩ := t
  have hne : k ≠ .flowSequenceEnd := by
    rintro rfl
    simp [startsNode] at ht
  simp only [flowSequence, bind_apply, peek_apply hr, bind_ok, hne, ↓reduceIte]
  cases k
  case scalar | flowSequenceStart | flowMappingStart => rfl
  all_goals simp [startsNode] at ht

theorem flowSequence_more {t : Token} (hr : r.tokens = ⟨place, .flowEntry⟩ :: t :: ts) (ht : startsNode t.kind = true) :
    flowSequence false after r = node false false (.flowSequence false :: after) { r with tokens := t :: ts } := by
  obtain ⟨p, k⟩ := t
  have hne : TokenKind.flowEntry ≠ .flowSequenceEnd := by decide
  simp only [flowSequence, bind_apply, peek_apply hr, bind_ok, hne, ↓reduceIte, Bool.false_eq_true, skip_apply]
  rw [hr, List.tail_cons, peek_apply rfl, bind_ok]
  cases k
  case scalar | flowSequenceStart | flowMappingStart => rfl
  all_goals simp [startsNode] at ht

/-- The first token of a value. -/
theorem tokens_of_value {v : JsonValue} (h : ts.map (·.kind) = v.tokens) :
    ∃ t us, ts = t :: us ∧ startsNode t.kind = true := by
  obtain ⟨k, ks, hks, hk⟩ := tokens_cons v
  rw [hks] at h
  obtain ⟨t, us, rfl, rfl, _⟩ := List.map_eq_cons_iff.1 h
  exact ⟨t, us, rfl, hk⟩

theorem reads_items {vs : List JsonValue} (ih : ∀ v ∈ vs, Reads v) (he : r.expected = .flowSequence false :: after)
    (hr : r.tokens = ts ++ rest) (ht : ts.map (·.kind) = itemTokens vs ++ [.flowSequenceEnd]) :
    Sends ((itemTree vs).events ++ [.sequenceEnd]) r { r with tokens := rest, expected := after } := by
  have hnext := next_sequence he (skipStart_false r)
  induction vs generalizing r ts with
  | nil =>
    obtain ⟨⟨p, k⟩, us, rfl, rfl, hus⟩ := List.map_eq_cons_iff.1 ht
    obtain rfl := List.map_eq_nil_iff.1 hus
    rw [flowSequence_end hr] at hnext
    exact .cons hnext (.nil _)
  | cons v vs ihvs =>
    rw [itemTokens, List.cons_append, List.append_assoc] at ht
    obtain ⟨⟨p, k⟩, us, rfl, rfl, hus⟩ := List.map_eq_cons_iff.1 ht
    obtain ⟨ts₁, ts₂, rfl, h₁, h₂⟩ := List.map_eq_append_iff.1 hus
    obtain ⟨t, us, rfl, hstart⟩ := tokens_of_value h₁
    have hr : r.tokens = ⟨p, .flowEntry⟩ :: t :: (us ++ (ts₂ ++ rest)) := by simpa using hr
    rw [flowSequence_more hr hstart] at hnext
    have hv := Reads.next (ih v (by simp)) h₁ hnext
    have hvs := ihvs (r := { r with tokens := ts₂ ++ rest, expected := .flowSequence false :: after })
      (fun w hw => ih w (by simp [hw])) rfl rfl h₂ (next_sequence rfl (skipStart_false _))
    rw [itemTree, Tree.events, List.append_assoc]
    exact hv.append hvs

theorem reads_array {items : List JsonValue} (ih : ∀ v ∈ items, Reads v) : Reads (.array items) := by
  intro r ts rest block indentless after hr ht
  cases items with
  | nil =>
    rw [tokens] at ht
    obtain ⟨⟨p, k⟩, us, rfl, rfl, hus⟩ := List.map_eq_cons_iff.1 ht
    obtain ⟨⟨q, k⟩, us', rfl, rfl, hus'⟩ := List.map_eq_cons_iff.1 hus
    obtain rfl := List.map_eq_nil_iff.1 hus'
    refine ⟨_, _, _, rfl, node_sequence hr, ?_⟩
    have hnext := next_sequence (r := { r with expected := .flowSequence true :: after }) rfl (skipStart_true hr)
    rw [flowSequence_end rfl] at hnext
    exact .cons hnext (.nil _)
  | cons v vs =>
    rw [tokens] at ht
    obtain ⟨⟨p, k⟩, us, rfl, rfl, hus⟩ := List.map_eq_cons_iff.1 ht
    obtain ⟨ts₁, ts₂, rfl, h₁, h₂⟩ := List.map_eq_append_iff.1 hus
    obtain ⟨t, us, rfl, hstart⟩ := tokens_of_value h₁
    have hr : r.tokens = ⟨p, .flowSequenceStart⟩ :: t :: (us ++ (ts₂ ++ rest)) := by simpa using hr
    refine ⟨_, _, _, rfl, node_sequence hr, ?_⟩
    have hnext := next_sequence (r := { r with expected := .flowSequence true :: after }) rfl (skipStart_true hr)
    rw [flowSequence_first rfl hstart] at hnext
    have hv := Reads.next (ih v (by simp)) h₁ hnext
    have hvs := reads_items (r := { r with tokens := ts₂ ++ rest, expected := .flowSequence false :: after })
      (fun w hw => ih w (by simp [hw])) rfl rfl h₂
    have hall := hv.append hvs
    rw [← List.append_assoc] at hall
    exact hall

theorem next_mapping {first : Bool} {r₁ : Reader} (he : r.expected = .flowMappingKey first :: after)
    (hs : skipStart first r = .ok ((), r₁)) : next r = (flowMappingKey first after r₁).map fun p => (some p.1, p.2) := by
  rw [← map_some]
  simp only [next, bind_apply, get_apply, bind_ok, he, hs]

theorem flowMappingKey_end {first : Bool} (hr : r.tokens = ⟨place, .flowMappingEnd⟩ :: ts) :
    flowMappingKey first after r = .ok (.mappingEnd, { r with tokens := ts, expected := after }) := by
  simp only [flowMappingKey, bind_apply, peek_apply hr, bind_ok, ↓reduceIte, endFlowMapping, expect_apply, skip_apply, hr,
    List.tail_cons]
  rfl

/-- A node behind the mark of a key or value, where no end is. -/
theorem node_behind {k : TokenKind} {t : Token} {ends : TokenKind → Bool} (after : List Expected) (m : Read Event)
    (hr : r.tokens = ⟨place, k⟩ :: t :: ts) (ht : ends t.kind = false) :
    (do
      skip
      let k ← peek
      if ends k then m else node false false after : Read Event) r =
      node false false after { r with tokens := t :: ts } := by
  rw [bind_apply, skip_apply, bind_ok, hr, List.tail_cons]
  dsimp only
  rw [bind_apply, peek_apply rfl, bind_ok]
  dsimp only
  rw [ht, if_neg Bool.false_ne_true]

def endsValue (k : TokenKind) : Bool := k = .flowEntry || k = .flowMappingEnd

def endsKey (k : TokenKind) : Bool := k = .value || k = .flowEntry || k = .flowMappingEnd

theorem not_ends {k : TokenKind} (h : startsNode k = true) : endsKey k = false ∧ endsValue k = false := by
  cases k
  case scalar | flowSequenceStart | flowMappingStart => exact ⟨rfl, rfl⟩
  all_goals simp [startsNode] at h

theorem flowMappingKey_first {t : Token} (hr : r.tokens = ⟨place, .key⟩ :: t :: ts) (ht : startsNode t.kind = true) :
    flowMappingKey true after r = node false false (.flowMappingValue :: after) { r with tokens := t :: ts } := by
  have hne : TokenKind.key ≠ .flowMappingEnd := by decide
  rw [← node_behind _ (missing (.flowMappingValue :: after)) hr (not_ends ht).1]
  simp only [flowMappingKey, bind_apply, peek_apply hr, bind_ok, hne, ↓reduceIte]
  rfl

theorem flowMappingKey_more {t : Token} (hr : r.tokens = ⟨place, .flowEntry⟩ :: ⟨q, .key⟩ :: t :: ts)
    (ht : startsNode t.kind = true) :
    flowMappingKey false after r = node false false (.flowMappingValue :: after) { r with tokens := t :: ts } := by
  have hne : TokenKind.flowEntry ≠ .flowMappingEnd := by decide
  have hbehind := node_behind (r := { r with tokens := ⟨q, .key⟩ :: t :: ts }) (.flowMappingValue :: after)
    (missing (.flowMappingValue :: after)) rfl (not_ends ht).1
  rw [← hbehind]
  simp only [flowMappingKey, bind_apply, peek_apply hr, bind_ok, hne, ↓reduceIte, Bool.false_eq_true, skip_apply]
  rw [hr, List.tail_cons, peek_apply rfl, bind_ok]
  rfl

theorem next_value {t : Token} (he : r.expected = .flowMappingValue :: after)
    (hr : r.tokens = ⟨place, .value⟩ :: t :: ts) (ht : startsNode t.kind = true) :
    next r = (node false false (.flowMappingKey false :: after) { r with tokens := t :: ts }).map fun p => (some p.1, p.2) := by
  rw [← map_some, bind_apply, ← node_behind _ (missing (.flowMappingKey false :: after)) hr (not_ends ht).2]
  simp only [next, flowMappingValue, bind_apply, get_apply, bind_ok, he, peek_apply hr]
  rfl

/-- A field, when its key is what is read next. -/
theorem sends_field {k : String} {v : JsonValue} (rest : List Token) (ih : Reads v) (ht : ts.map (·.kind) = [.key, .scalar .doubleQuoted k, .value] ++ v.tokens)
    (hkey : ∀ (q : Place) (t : Token) (us : List Token), ts ++ rest = ⟨q, .key⟩ :: t :: us → startsNode t.kind = true →
      next r = (node false false (.flowMappingValue :: after) { r with tokens := t :: us }).map fun p => (some p.1, p.2)) :
    Sends (.scalar k .doubleQuoted 0 none :: v.tree.events) r
      { r with tokens := rest, expected := .flowMappingKey false :: after } := by
  obtain ⟨ts₁, ts₂, rfl, h₁, h₂⟩ := List.map_eq_append_iff.1 ht
  obtain ⟨⟨p, _⟩, us₁, rfl, rfl, hus₁⟩ := List.map_eq_cons_iff.1 h₁
  obtain ⟨⟨q, _⟩, us₂, rfl, rfl, hus₂⟩ := List.map_eq_cons_iff.1 hus₁
  obtain ⟨⟨q', _⟩, us₃, rfl, rfl, hus₃⟩ := List.map_eq_cons_iff.1 hus₂
  obtain rfl := List.map_eq_nil_iff.1 hus₃
  obtain ⟨t, us, rfl, hstart⟩ := tokens_of_value h₂
  have hnode := hkey p _ _ rfl rfl
  rw [node_scalar rfl] at hnode
  exact .cons hnode (Reads.next ih h₂ (next_value rfl rfl hstart))

theorem reads_fields {fs : List (String × JsonValue)} (ih : ∀ f ∈ fs, Reads f.2)
    (he : r.expected = .flowMappingKey false :: after) (hr : r.tokens = ts ++ rest)
    (ht : ts.map (·.kind) = fieldTokens fs ++ [.flowMappingEnd]) :
    Sends ((fieldTree fs).events ++ [.mappingEnd]) r { r with tokens := rest, expected := after } := by
  have hnext := next_mapping he (skipStart_false r)
  induction fs generalizing r ts with
  | nil =>
    obtain ⟨⟨p, k⟩, us, rfl, rfl, hus⟩ := List.map_eq_cons_iff.1 ht
    obtain rfl := List.map_eq_nil_iff.1 hus
    rw [flowMappingKey_end hr] at hnext
    exact .cons hnext (.nil _)
  | cons f fs ihfs =>
    obtain ⟨k, v⟩ := f
    rw [fieldTokens, List.cons_append, ← List.append_assoc, List.append_assoc] at ht
    obtain ⟨⟨p, _⟩, us, rfl, rfl, hus⟩ := List.map_eq_cons_iff.1 ht
    obtain ⟨ts₁, ts₂, rfl, h₁, h₂⟩ := List.map_eq_append_iff.1 hus
    have hfield := sends_field (r := r) (ts₂ ++ rest) (ih (k, v) (by simp)) h₁ fun q t us hts hstart => by
      rw [hnext, flowMappingKey_more (by simpa [hts] using hr) hstart]
    have hfs := ihfs (r := { r with tokens := ts₂ ++ rest, expected := .flowMappingKey false :: after })
      (fun g hg => ih g (by simp [hg])) rfl rfl h₂ (next_mapping rfl (skipStart_false _))
    have hall := hfield.append hfs
    simpa [fieldTree, Tree.events] using hall

theorem reads_object {fields : List (String × JsonValue)} (ih : ∀ f ∈ fields, Reads f.2) : Reads (.object fields) := by
  intro r ts rest block indentless after hr ht
  cases fields with
  | nil =>
    rw [tokens] at ht
    obtain ⟨⟨p, k⟩, us, rfl, rfl, hus⟩ := List.map_eq_cons_iff.1 ht
    obtain ⟨⟨q, k⟩, us', rfl, rfl, hus'⟩ := List.map_eq_cons_iff.1 hus
    obtain rfl := List.map_eq_nil_iff.1 hus'
    refine ⟨_, _, _, rfl, node_mapping hr, ?_⟩
    have hnext := next_mapping (r := { r with expected := .flowMappingKey true :: after }) rfl (skipStart_true hr)
    rw [flowMappingKey_end rfl] at hnext
    exact .cons hnext (.nil _)
  | cons f fs =>
    obtain ⟨k, v⟩ := f
    rw [tokens, ← List.append_assoc] at ht
    obtain ⟨⟨p, _⟩, us, rfl, rfl, hus⟩ := List.map_eq_cons_iff.1 ht
    obtain ⟨ts₁, ts₂, rfl, h₁, h₂⟩ := List.map_eq_append_iff.1 hus
    refine ⟨_, _, _, rfl, node_mapping hr, ?_⟩
    have hnext := next_mapping (r := { r with expected := .flowMappingKey true :: after }) rfl (skipStart_true hr)
    have hfield := sends_field (r := { r with expected := .flowMappingKey true :: after }) (ts₂ ++ rest)
      (ih (k, v) (by simp)) h₁ fun q t us hts hstart => by
        rw [hnext, flowMappingKey_first (by simpa using hts) hstart]
    have hfs := reads_fields (r := { r with tokens := ts₂ ++ rest, expected := .flowMappingKey false :: after })
      (fun g hg => ih g (by simp [hg])) rfl rfl h₂
    have hall := hfield.append hfs
    simpa [fieldTree, Tree.events] using hall

theorem reads (v : JsonValue) : Reads v := by
  induction v using induct with
  | scalar v =>
    intro r ts rest block indentless after hr ht
    have htokens : (scalar v).tokens = [.scalar (readStyle v) (readText v)] := by
      cases v <;> rfl
    rw [htokens] at ht
    obtain ⟨⟨p, k⟩, us, rfl, rfl, hus⟩ := List.map_eq_cons_iff.1 ht
    obtain rfl := List.map_eq_nil_iff.1 hus
    exact ⟨_, _, _, rfl, node_scalar hr, .nil _⟩
  | array items ih => exact reads_array ih
  | object fields ih => exact reads_object ih

theorem length_events_le (v : JsonValue) : v.tree.events.length ≤ v.tokens.length := by
  have hitems : ∀ vs : List JsonValue, (∀ v ∈ vs, v.tree.events.length ≤ v.tokens.length) →
      (itemTree vs).events.length ≤ (itemTokens vs).length := by
    intro vs h
    induction vs with
    | nil => simp [itemTree, Tree.events]
    | cons v vs ih =>
      have hv := h v (by simp)
      have hvs := ih fun w hw => h w (by simp [hw])
      simp only [itemTree, Tree.events, itemTokens, List.length_append, List.length_cons]
      omega
  have hfields : ∀ fs : List (String × JsonValue), (∀ f ∈ fs, f.2.tree.events.length ≤ f.2.tokens.length) →
      (fieldTree fs).events.length ≤ (fieldTokens fs).length := by
    intro fs h
    induction fs with
    | nil => simp [fieldTree, Tree.events]
    | cons f fs ih =>
      have hf := h f (by simp)
      have hfs := ih fun g hg => h g (by simp [hg])
      simp only [fieldTree, Tree.events, fieldTokens, List.length_append, List.length_cons, List.length_nil]
      omega
  induction v using induct with
  | scalar v => cases v <;> simp [tree, tokens, Tree.events]
  | array items ih =>
    cases items with
    | nil => simp [tree, itemTree, tokens, Tree.events]
    | cons v vs =>
      have hv := ih v (by simp)
      have hvs := hitems vs fun w hw => ih w (by simp [hw])
      simp only [tree, itemTree, tokens, Tree.events, List.length_append, List.length_cons, List.length_nil]
      omega
  | object fields ih =>
    cases fields with
    | nil => simp [tree, fieldTree, tokens, Tree.events]
    | cons f fs =>
      have hf := ih f (by simp)
      have hfs := hfields fs fun g hg => ih g (by simp [hg])
      simp only [tree, fieldTree, tokens, Tree.events, List.length_append, List.length_cons, List.length_nil]
      omega

theorem documentStart_bare {t : Token} (hr : r.tokens = t :: ts) (ht : startsNode t.kind = true) :
    documentStart r = .ok (some .documentStart, { r with expected := [.blockNode, .documentEnd] }) := by
  have hskip : skipDocumentEnds (t :: ts) = t :: ts := by
    obtain ⟨p, k⟩ := t
    cases k
    case scalar | flowSequenceStart | flowMappingStart => simp [skipDocumentEnds]
    all_goals simp [startsNode] at ht
  have hmodify : (modify fun r => { r with tokens := skipDocumentEnds r.tokens } : Read Unit) r = .ok ((), r) := by
    show Except.ok ((), { r with tokens := skipDocumentEnds r.tokens }) = _
    rw [hr, hskip, ← hr]
  rw [documentStart, bind_apply, hmodify, bind_ok]
  dsimp only
  rw [bind_apply, peek_apply hr, bind_ok]
  obtain ⟨p, k⟩ := t
  cases k
  case scalar | flowSequenceStart | flowMappingStart => rfl
  all_goals simp [startsNode] at ht

/-- At the end of the stream the document ends. -/
theorem rest_end (hr : r.tokens = [⟨place, .streamEnd⟩]) (he : r.expected = [.documentEnd]) (fuel : Nat) :
    Read.rest (fuel + 2) r = .ok ([.documentEnd], { r with expected := [] }) := by
  have hend : next r = .ok (some .documentEnd, { r with expected := [] }) := by
    simp only [next, documentEnd, bind_apply, get_apply, bind_ok, he, peek_apply hr, expect_apply]
    rfl
  have hdone : Read.rest (fuel + 1) { r with expected := [] } = .ok ([], { r with expected := [] }) := rfl
  rw [Read.rest, bind_apply, hend, bind_ok]
  dsimp only
  rw [bind_apply, hdone]
  rfl

/-- The events of a document that is a value. A token makes one event at most. -/
theorem document_value {v : JsonValue} (hr : r.tokens = ts) (ht : ts.map (·.kind) = .streamStart :: (v.tokens ++ [.streamEnd])) :
    (document r).map (·.1) = .ok (v.tree.stream []) := by
  obtain ⟨⟨p, _⟩, us, rfl, rfl, hus⟩ := List.map_eq_cons_iff.1 ht
  obtain ⟨ts₁, ts₂, rfl, h₁, h₂⟩ := List.map_eq_append_iff.1 hus
  obtain ⟨⟨q, _⟩, us, rfl, rfl, h₃⟩ := List.map_eq_cons_iff.1 h₂
  obtain rfl := List.map_eq_nil_iff.1 h₃
  obtain ⟨t, us, rfl, hstart⟩ := tokens_of_value h₁
  let start : Reader := { r with tokens := t :: us ++ [⟨q, .streamEnd⟩], expected := [.blockNode, .documentEnd] }
  obtain ⟨e, es, r₁, hes, hnode, hsends⟩ := reads v true false [.documentEnd] (r := start) rfl h₁
  have hnext : next start = .ok (some e, r₁) := by
    simp only [next, bind_apply, get_apply, bind_ok, start]
    rw [hnode]
    rfl
  have hlen : v.tree.events.length ≤ us.length + 1 := by
    have := length_events_le v
    rwa [← h₁, List.length_map, List.length_cons] at this
  have hfuel : ∃ fuel, 4 * (us.length + 2) + 8 = (e :: es).length + (fuel + 2) := by
    rw [← hes]
    exact ⟨4 * (us.length + 2) + 6 - v.tree.events.length, by omega⟩
  obtain ⟨fuel, hfuel⟩ := hfuel
  have hrest := Sends.cons hnext hsends (fuel + 2) _ _ (rest_end rfl rfl fuel)
  simp only [document, bind_apply, peek_apply hr, bind_ok, skip_apply, hr, List.tail_cons]
  rw [documentStart_bare rfl hstart, bind_ok]
  simp only [bind_apply, get_apply, bind_ok, List.length_append, List.length_cons, List.length_nil, Nat.zero_add]
  rw [hfuel, hrest, bind_ok, Tree.stream, hes]
  rfl

end YamlQuery.Yaml.Read

namespace YamlQuery
open Yaml

theorem Yaml.Event.ofScanned?_compact {v : JsonValue} {ts : List Token}
    (h : ts.map (·.kind) = .streamStart :: (v.tokens ++ [.streamEnd])) :
    ofScanned? ⟨ts, none⟩ = .ok (v.tree.stream []) := by
  exact Read.document_value rfl h

/-- The document that is read from compact JSON text. Reading gives up behind 255 open collections. -/
theorem Document.read_compact {v : JsonValue} (h : v.depth ≤ 255) :
    ∃ names, Document.read v.compact = .ok (ofList (v.tree.nodes names none 0) (some 0) (v.tree.register names 0 {})) := by
  obtain ⟨ts, hscanned, hts⟩ := Scan.ofText_compact v h
  refine ⟨(Scanned.ofText v.compact).anchorNames, ?_⟩
  have hevents := Event.ofScanned?_compact hts
  rw [← hscanned] at hevents
  rw [Document.read, hevents, Except.map, ofEvents_stream]

end YamlQuery
