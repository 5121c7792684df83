import Mathlib.Data.List.TakeWhile
import YamlQuery.Proofs.Yaml.JsonScalars
/-!
The tokens of compact JSON text, read as YAML: those of a flow collection or of one scalar.
-/
namespace YamlQuery.JsonValue
open Yaml

mutual

def tokens : JsonValue → List TokenKind
  | scalar (.string text) => [.scalar .doubleQuoted text]
  | scalar v => [.scalar .plain (scalarText v)]
  | array [] => [.flowSequenceStart, .flowSequenceEnd]
  | array (v :: vs) => .flowSequenceStart :: (v.tokens ++ (itemTokens vs ++ [.flowSequenceEnd]))
  | object [] => [.flowMappingStart, .flowMappingEnd]
  | object ((k, v) :: fs) =>
    .flowMappingStart :: ([.key, .scalar .doubleQuoted k, .value] ++ (v.tokens ++ (fieldTokens fs ++ [.flowMappingEnd])))

def itemTokens : List JsonValue → List TokenKind
  | [] => []
  | v :: vs => .flowEntry :: (v.tokens ++ itemTokens vs)

def fieldTokens : List (String × JsonValue) → List TokenKind
  | [] => []
  | (k, v) :: fs => .flowEntry :: ([.key, .scalar .doubleQuoted k, .value] ++ (v.tokens ++ fieldTokens fs))

end

mutual

def depth : JsonValue → Nat
  | scalar _ => 0
  | array items => itemDepth items + 1
  | object fields => fieldDepth fields + 1

def itemDepth : List JsonValue → Nat
  | [] => 0
  | v :: vs => max v.depth (itemDepth vs)

def fieldDepth : List (String × JsonValue) → Nat
  | [] => 0
  | (_, v) :: fs => max v.depth (fieldDepth fs)

end

/-- No token of a value is the end of the stream. -/
theorem streamEnd_not_mem_tokens (v : JsonValue) : TokenKind.streamEnd ∉ v.tokens := by
  have hitems : ∀ vs : List JsonValue, (∀ v ∈ vs, TokenKind.streamEnd ∉ v.tokens) → TokenKind.streamEnd ∉ itemTokens vs := by
    intro vs h
    induction vs with
    | nil => simp [itemTokens]
    | cons v vs ih =>
      have hv := h v (by simp)
      have hvs := ih fun w hw => h w (by simp [hw])
      simp [itemTokens, hv, hvs]
  have hfields : ∀ fs : List (String × JsonValue), (∀ f ∈ fs, TokenKind.streamEnd ∉ f.2.tokens) →
      TokenKind.streamEnd ∉ fieldTokens fs := by
    intro fs h
    induction fs with
    | nil => simp [fieldTokens]
    | cons f fs ih =>
      have hf := h f (by simp)
      have hfs := ih fun g hg => h g (by simp [hg])
      simp [fieldTokens, hf, hfs]
  induction v using induct with
  | scalar v => cases v <;> simp [tokens]
  | array items ih =>
    cases items with
    | nil => simp [tokens]
    | cons v vs =>
      have hv := ih v (by simp)
      have hvs := hitems vs fun w hw => ih w (by simp [hw])
      simp [tokens, hv, hvs]
  | object fields ih =>
    cases fields with
    | nil => simp [tokens]
    | cons f fs =>
      have hf := ih f (by simp)
      have hfs := hfields fs fun g hg => ih g (by simp [hg])
      simp [tokens, hf, hfs]

theorem tokens_word {v : ScalarValue} (h : ∀ text, v ≠ .string text) :
    (scalar v).tokens = [.scalar .plain (scalarText v)] := by
  cases v with
  | string text => exact absurd rfl (h text)
  | null | bool | int | float => rfl

end YamlQuery.JsonValue

namespace YamlQuery.Yaml.Scan
open Outcome JsonValue

variable {level n : Nat} {s t u : Scanner} {c : Char} {cs rest : List Char} {ks ls : List TokenKind}

def turn : Scan (List Token) := do
  step
  deliver

inductive Turns : Nat → Scanner → Scanner → Prop
  | none (s : Scanner) : Turns 0 s s
  | next {n : Nat} {s t u : Scanner} (h : turn s = .ok ([], t)) (hn : Turns n t u) : Turns (n + 1) s u

theorem Turns.trans {m n : Nat} (h : Turns m s t) (h' : Turns n t u) : Turns (m + n) s u := by
  induction h with
  | none => simpa using h'
  | @next m s t _ h _ ih =>
    have := Turns.next h (ih h')
    rwa [Nat.add_right_comm] at this

theorem Turns.run (h : Turns n s t) (fuel : Nat) : Scan.run (n + fuel) s = Scan.run fuel t := by
  induction h with
  | none => rw [Nat.zero_add]
  | @next n s t u h _ ih =>
    have hturn : (do step; deliver : Scan (List Token)) s = .ok ([], t) := h
    rw [Nat.add_right_comm, Scan.run, hturn]
    exact ih

/-- Reading on within flow collections, up to a place within `level` of them, puts tokens of these kinds into the queue. Each
turn reads a character at least. -/
structure Advances (level : Nat) (s t : Scanner) (ks : List TokenKind) : Prop where
  turns : ∃ n, Turns n s t ∧ n + t.rest.length ≤ s.rest.length
  inFlow : InFlow level t
  kinds : t.kinds = s.kinds ++ ks
  mapping : s.flowMappingStarted = true → t.flowMappingStarted = true

theorem Advances.trans {m : Nat} (h : Advances m s t ks) (h' : Advances level t u ls) : Advances level s u (ks ++ ls) where
  turns := by
    obtain ⟨i, hi, hile⟩ := h.turns
    obtain ⟨j, hj, hjle⟩ := h'.turns
    exact ⟨i + j, hi.trans hj, by omega⟩
  inFlow := h'.inFlow
  kinds := by rw [h'.kinds, h.kinds, List.append_assoc]
  mapping := fun hm => h'.mapping (h.mapping hm)

theorem InFlow.turns {m : Nat} (h : InFlow (m + 1) s) (hr : s.rest = c :: cs) (hs : Solid s.rest)
    (hc : content c s = .ok ((), t)) (ht : InFlow (level + 1) t) : Turns 1 s t := by
  have hturn : turn s = .ok ([], t) := by
    rw [turn, bind_apply, h.step (Nat.succ_pos m) hr hs, hc, bind_ok]
    exact ht.deliver (Nat.succ_pos level)
  exact .next hturn (.none t)

/-- A token that leaves the text within flow collections. -/
theorem InFlow.advances {m : Nat} (h : InFlow (m + 1) s) (hr : s.rest = c :: cs) (hs : Solid s.rest)
    (hc : content c s = .ok ((), t)) (ht : InFlow (level + 1) t) (hlen : t.rest.length < s.rest.length)
    (hk : t.kinds = s.kinds ++ ks) (hm : s.flowMappingStarted = true → t.flowMappingStarted = true) :
    Advances (level + 1) s t ks :=
  ⟨⟨1, h.turns hr hs hc ht, by omega⟩, ht, hk, hm⟩

theorem kinds_pushed (s : Scanner) (place : Place) (kind : TokenKind) : (s.pushed place kind).kinds = s.kinds ++ [kind] := by
  simp [Scanner.kinds, Scanner.pushed]

theorem held_savedKeys (h : InFlow (level + 1) s) : Held (level + 1) s.savedKeys := by
  obtain ⟨k, js, hks, _, hheld⟩ := h.keys.exists_cons
  rw [Scanner.savedKeys, hks]
  split
  · exact hheld.cons rfl
  · exact hks ▸ h.keys

/-- What a token changes within flow collections. -/
theorem InFlow.moved (h : InFlow n s) {next : Scanner}
    (hsame : next.started = s.started ∧ next.delivered = s.delivered ∧ next.fuel = s.fuel ∧ next.indent = s.indent ∧
      next.indents = s.indents)
    (hl : next.flowLevel = level) (hp : true ∉ next.pairOpen) (hk : Held level next.simpleKeys) {place : Place}
    (hlen : rest.length < s.rest.length) (hplace : 0 < place.column) (start : Place) (kind : TokenKind) :
    InFlow level ((next.moved rest place).pushed start kind) := by
  obtain ⟨hstarted, hdelivered, hfuel, hindent, hindents⟩ := hsame
  exact {
    started := hstarted.trans h.started
    delivered := hdelivered.trans h.delivered
    fuel := Nat.lt_of_lt_of_le (Nat.lt_trans hlen h.fuel) (Nat.le_of_eq hfuel.symm)
    flowLevel := hl
    indent := hindent.trans h.indent
    indents := hindents.trans h.indents
    column := hplace
    pairs := hp
    keys := hk }

theorem length_lt_of_cons (hr : s.rest = c :: cs) : cs.length < s.rest.length := by
  rw [hr, List.length_cons]
  exact Nat.lt_succ_self _

theorem InFlow.start (h : InFlow (level + 1) s) (hl : level + 1 < 255) (hr : s.rest = c :: cs) (hc : Solid s.rest)
    (hs : Solid cs) {kind : TokenKind} (hcontent : content c s = flowStart kind s) :
    ∃ t, Advances (level + 2) s t [kind] ∧ t.rest = cs ∧ t.simpleKeyAllowed = true ∧
      (kind = .flowMappingStart → t.flowMappingStarted = true) := by
  have hflow := flowStart_apply h.indents hr hs (by rw [h.flowLevel]; exact hl) kind
  have hp : true ∉ if kind = .flowMappingStart then s.pairOpen else false :: s.pairOpen := by
    split
    · exact h.pairs
    · simp [h.pairs]
  have hlen := length_lt_of_cons hr
  refine ⟨_, h.advances hr hc (hcontent.trans hflow) ?_ hlen (kinds_pushed _ _ _) ?_, rfl, rfl, ?_⟩
  · apply h.moved
    case hsame => exact ⟨rfl, rfl, rfl, rfl, rfl⟩
    case hl => exact congrArg (· + 1) h.flowLevel
    case hp => exact hp
    case hk => exact (held_savedKeys h).cons rfl
    case hlen => exact hlen
    case hplace => exact Nat.succ_pos _
  · exact fun hm => by simp [Scanner.pushed, Scanner.moved, hm]
  · exact fun hk => by simp [Scanner.pushed, Scanner.moved, hk]

/-- A closing bracket that is not the last. -/
theorem InFlow.stop (h : InFlow (level + 2) s) (hr : s.rest = c :: cs) (hc : Solid s.rest) (hs : Solid cs) {kind : TokenKind}
    (hcontent : content c s = flowEnd kind s) : ∃ t, Advances (level + 1) s t [kind] ∧ t.rest = cs := by
  obtain ⟨k, ks, hks, hreq, hheld⟩ := h.keys.exists_cons
  have hflow := flowEnd_apply hks hreq h.pairs hr hs (by rw [h.flowLevel]; exact Nat.succ_pos _) kind
  have hp : true ∉ if kind = .flowSequenceEnd then s.pairOpen.tail else s.pairOpen := by
    split
    · exact fun hm => h.pairs (List.mem_of_mem_tail hm)
    · exact h.pairs
  have hlen := length_lt_of_cons hr
  refine ⟨_, h.advances hr hc (hcontent.trans hflow) ?_ hlen (kinds_pushed _ _ _) fun hm => hm, rfl⟩
  apply h.moved
  case hsame => exact ⟨rfl, rfl, rfl, rfl, rfl⟩
  case hl => exact congrArg (· - 1) h.flowLevel
  case hp => exact hp
  case hk => exact hheld
  case hlen => exact hlen
  case hplace => exact Nat.succ_pos _

/-- A comma. -/
theorem InFlow.comma (h : InFlow (level + 1) s) (hr : s.rest = ',' :: cs) (hs : Solid cs) :
    ∃ t, Advances (level + 1) s t [.flowEntry] ∧ t.rest = cs ∧ t.simpleKeyAllowed = true := by
  obtain ⟨k, ks, hks, hreq, hheld⟩ := h.keys.exists_cons
  have hflow := flowEntry_apply hks hreq h.pairs hr hs
  have hlen := length_lt_of_cons hr
  refine ⟨_, h.advances hr (hr ▸ solid_cons (by decide) cs) hflow ?_ hlen (kinds_pushed _ _ _) fun hm => hm, rfl, rfl⟩
  apply h.moved
  case hsame => exact ⟨rfl, rfl, rfl, rfl, rfl⟩
  case hl => exact h.flowLevel
  case hp => exact h.pairs
  case hk => exact hheld.cons hreq
  case hlen => exact hlen
  case hplace => exact Nat.succ_pos _

theorem content_word (h : Word (c :: cs)) (hr : s.rest = c :: cs ++ rest) : content c s = plainScalar s := by
  simp only [content, bind_apply, get_apply, bind_ok]
  cases h with
  | plain hc =>
    refine congrFun ?_ s
    split
    all_goals first | exact absurd hc (by decide) | rfl
  | @negative d ds hd =>
    have hnext : endsWord s.rest[1]? = false := by
      have hw : isWordChar d = true := by simp [isWordChar, hd]
      simp [hr, endsWord, isSpaceOrBreak_of_isWordChar hw]
    simp only [hnext, Bool.false_eq_true, ↓reduceIte]

/-- A word. -/
theorem InFlow.word (h : InFlow (level + 1) s) {w : List Char} (hw : Word w) (hr : s.rest = w ++ rest)
    (hrest : Ends (level + 1) rest) :
    ∃ t, Advances (level + 1) s t [.scalar .plain (String.ofList w)] ∧ t.rest = rest := by
  have hends : Ends s.flowLevel rest := h.flowLevel ▸ hrest
  obtain ⟨place, hplace, hplain⟩ := plainScalar_apply hw hr hends h.indents h.indent h.fuel
  obtain ⟨c, cs, rfl⟩ : ∃ c cs, w = c :: cs := by cases hw <;> exact ⟨_, _, rfl⟩
  have hcontent := content_word hw hr
  have hc : isWordChar c = true := (Bool.and_eq_true_iff.1 hw.all_isWordChar).1
  have hlen : rest.length < s.rest.length := by
    rw [hr, List.length_append, List.length_cons]
    omega
  have hcomment : c ≠ '#' := by
    rintro rfl
    exact absurd hc (by decide)
  have hsolid : Solid s.rest := hr ▸ solid_cons ⟨isSpaceOrBreak_of_isWordChar hc, hcomment⟩ _
  refine ⟨_, h.advances hr hsolid (hcontent.trans hplain) ?_ hlen (kinds_pushed _ _ _) fun hm => hm, rfl⟩
  apply h.moved
  case hsame => exact ⟨rfl, rfl, rfl, rfl, rfl⟩
  case hl => exact h.flowLevel
  case hp => exact h.pairs
  case hk => exact held_savedKeys h
  case hlen => exact hlen
  case hplace => exact hplace

/-- The state behind a quoted text, where a colon needs no white space after it. -/
theorem InFlow.afterQuote (h : InFlow (level + 1) s) {text : String} (hr : s.rest = (quote text).toList ++ rest)
    (hrest : Ends (level + 1) rest ∨ rest.head? = some ':') :
    ∃ place t, Advances (level + 1) s t [.scalar .doubleQuoted text] ∧ t = Scanner.pushed (Scanner.moved { s with
        simpleKeys := s.savedKeys
        simpleKeyAllowed := false
        adjacentValueAt := place.index }
      rest place) s.place (.scalar .doubleQuoted text) := by
  have hends : Ends s.flowLevel rest ∨ (0 < s.flowLevel ∧ rest.head? = some ':') :=
    h.flowLevel ▸ hrest.imp_right fun hc => ⟨Nat.succ_pos _, hc⟩
  obtain ⟨place, hplace, hquoted⟩ := quotedScalar_apply hr hends h.indents h.indent h.fuel
  have hlen : rest.length < s.rest.length := by
    rw [hr, toList_quote, List.length_append, List.length_cons]
    omega
  rw [toList_quote, List.cons_append] at hr
  refine ⟨place, _, h.advances hr (hr ▸ solid_cons (by decide) _) hquoted ?_ hlen (kinds_pushed _ _ _) fun hm => hm, rfl⟩
  apply h.moved
  case hsame => exact ⟨rfl, rfl, rfl, rfl, rfl⟩
  case hl => exact h.flowLevel
  case hp => exact h.pairs
  case hk => exact held_savedKeys h
  case hlen => exact hlen
  case hplace => exact hplace

/-- A quoted text. -/
theorem InFlow.quoted (h : InFlow (level + 1) s) {text : String} (hr : s.rest = (quote text).toList ++ rest)
    (hrest : Ends (level + 1) rest) :
    ∃ t, Advances (level + 1) s t [.scalar .doubleQuoted text] ∧ t.rest = rest := by
  obtain ⟨place, t, ht, rfl⟩ := h.afterQuote hr (.inl hrest)
  exact ⟨_, ht, rfl⟩

/-- A quoted key and the colon behind it. -/
theorem InFlow.key (h : InFlow (level + 1) s) (ha : s.simpleKeyAllowed = true) (hm : s.flowMappingStarted = true)
    {text : String} (hr : s.rest = (quote text).toList ++ ':' :: c :: cs) (hs : isSpaceOrBreak c = false ∧ c ≠ '#') :
    ∃ t, Advances (level + 1) s t [.key, .scalar .doubleQuoted text, .value] ∧ t.rest = c :: cs := by
  obtain ⟨place, t, ht, hdef⟩ := h.afterQuote hr (.inr rfl)
  have hin := ht.inFlow
  have hkeys : t.simpleKeys = ⟨true, false, s.delivered + s.queue.size, s.place⟩ :: s.simpleKeys.tail := by
    rw [hdef]
    simp [Scanner.pushed, Scanner.moved, Scanner.savedKeys, ha]
  have hrest : t.rest = ':' :: c :: cs := by rw [hdef]; rfl
  have hvalue := value_apply hkeys rfl (ht.mapping hm) hin.indents hrest (solid_cons hs cs)
    (by rw [hin.flowLevel]; exact Nat.succ_pos _)
  have hcontent : content ':' t = value t := by
    have hnext : endsWord t.rest[1]? = false := by simp [hrest, endsWord, hs.1]
    have hflow : decide (t.flowLevel > 0) = true := by simp [hin.flowLevel]
    have hadjacent : t.place.index = t.adjacentValueAt := by rw [hdef]; rfl
    simp only [content, bind_apply, get_apply, bind_ok, hnext, Bool.false_eq_true, ↓reduceIte, hflow, hadjacent,
      decide_true, Bool.or_true, Bool.and_self, flowValue, peekAt_apply, ne_eq, not_true_eq_false, decide_false, Bool.false_and]
  have hlen := length_lt_of_cons hrest
  obtain ⟨k, js, hks, _, hheld⟩ := hin.keys.exists_cons
  have htail : s.simpleKeys.tail = js := by
    rw [hkeys] at hks
    exact (List.cons.inj hks).2
  obtain ⟨u, hu, huin, hukinds, hurest, humap⟩ : ∃ u, value t = .ok ((), u) ∧ InFlow (level + 1) u ∧
      u.kinds = s.kinds ++ [.key, .scalar .doubleQuoted text, .value] ∧ u.rest = c :: cs ∧
        u.flowMappingStarted = t.flowMappingStarted := by
    refine ⟨_, hvalue, ?_, ?_, rfl, rfl⟩
    · apply hin.moved
      case hsame => exact ⟨rfl, rfl, rfl, rfl, rfl⟩
      case hl => exact hin.flowLevel
      case hp => exact hin.pairs
      case hk => exact (htail ▸ hheld).cons rfl
      case hlen => exact hlen
      case hplace => exact Nat.succ_pos _
    · -- the mark of the key goes in front of its token, the last in the queue
      have hspot : s.delivered + s.queue.size - t.delivered = s.queue.size := by
        rw [hin.delivered, h.delivered, Nat.add_sub_cancel_left]
      have hqueue : t.queue = s.queue.push ⟨s.place, .scalar .doubleQuoted text⟩ := by rw [hdef]; rfl
      simp [Scanner.kinds, Scanner.pushed, Scanner.moved, hspot, hqueue]
  obtain ⟨n, hn, hnle⟩ := ht.turns
  have hturn := hin.turns hrest (hrest ▸ solid_cons (by decide) _) (hcontent.trans hu) huin
  refine ⟨u, ⟨⟨n + 1, hn.trans hturn, ?_⟩, huin, hukinds, ?_⟩, hurest⟩
  · rw [hurest]
    omega
  · exact fun hm => humap.trans (ht.mapping hm)

theorem Advances.refl (h : InFlow level s) : Advances level s s [] :=
  ⟨⟨0, .none s, by omega⟩, h, by simp, fun hm => hm⟩

theorem solid_of_startsValue (h : startsValue c = true) : isSpaceOrBreak c = false ∧ c ≠ '#' := by
  simp only [startsValue, Bool.or_eq_true, beq_iff_eq] at h
  rcases h with (((h | rfl) | rfl) | rfl) | rfl
  · have hw : isWordChar c = true := by simp [isWordChar, h]
    refine ⟨isSpaceOrBreak_of_isWordChar hw, ?_⟩
    rintro rfl
    exact absurd hw (by decide)
  all_goals decide

theorem solid_compact (v : JsonValue) (rest : List Char) : Solid (v.compact.toList ++ rest) := by
  obtain ⟨c, cs, hcs, hc⟩ := compact_cons v
  rw [hcs, List.cons_append]
  exact solid_cons (solid_of_startsValue hc) _

theorem solid_field (f : String × JsonValue) (rest : List Char) : Solid ((fieldText f).toList ++ rest) := by
  rw [toList_fieldText, toList_quote]
  exact solid_cons (by decide) _

/-- Members behind commas, or a closing bracket, may follow a member. -/
theorem ends_members {α : Type} (f : α → List Char) (as : List α) (hc : c = ']' ∨ c = '\x7d') (rest : List Char) :
    Ends (level + 1) ((as.flatMap fun a => ',' :: f a) ++ c :: rest) := by
  intro d hd
  refine ⟨Nat.succ_pos _, ?_⟩
  cases as with
  | nil =>
    obtain rfl : c = d := Option.some.inj hd
    exact .inr hc
  | cons a as =>
    obtain rfl : ',' = d := Option.some.inj hd
    exact .inl rfl

def Scans (v : JsonValue) : Prop :=
  ∀ {level : Nat} {s : Scanner} {rest : List Char}, InFlow (level + 1) s → s.rest = v.compact.toList ++ rest →
    Ends (level + 1) rest → level + 1 + v.depth ≤ 255 → ∃ t, Advances (level + 1) s t v.tokens ∧ t.rest = rest

theorem scans_items {vs : List JsonValue} (ih : ∀ v ∈ vs, Scans v) (h : InFlow (level + 1) s)
    (hr : s.rest = (vs.flatMap fun w => ',' :: w.compact.toList) ++ ']' :: rest) (hd : level + 1 + itemDepth vs ≤ 255) :
    ∃ t, Advances (level + 1) s t (itemTokens vs) ∧ t.rest = ']' :: rest := by
  induction vs generalizing s with
  | nil => exact ⟨s, .refl h, hr⟩
  | cons v vs ihvs =>
    rw [itemDepth] at hd
    rw [List.flatMap_cons, List.cons_append, List.cons_append, List.append_assoc] at hr
    obtain ⟨s₁, h₁, hr₁, _⟩ := h.comma hr (solid_compact v _)
    obtain ⟨s₂, h₂, hr₂⟩ := ih v (by simp) h₁.inFlow hr₁ (ends_members _ vs (.inl rfl) rest) (by omega)
    obtain ⟨s₃, h₃, hr₃⟩ := ihvs (fun w hw => ih w (by simp [hw])) h₂.inFlow hr₂ (by omega)
    exact ⟨s₃, h₁.trans (h₂.trans h₃), hr₃⟩

/-- A field, where a key may start. -/
theorem scans_field {f : String × JsonValue} (ih : Scans f.2) (h : InFlow (level + 1) s) (ha : s.simpleKeyAllowed = true)
    (hm : s.flowMappingStarted = true) (hr : s.rest = (fieldText f).toList ++ rest) (hrest : Ends (level + 1) rest)
    (hd : level + 1 + f.2.depth ≤ 255) :
    ∃ t, Advances (level + 1) s t ([.key, .scalar .doubleQuoted f.1, .value] ++ f.2.tokens) ∧ t.rest = rest := by
  obtain ⟨c, cs, hcs, hc⟩ := compact_cons f.2
  rw [toList_fieldText, List.append_assoc, List.cons_append] at hr
  have hhead : f.2.compact.toList ++ rest = c :: (cs ++ rest) := by rw [hcs, List.cons_append]
  rw [hhead] at hr
  obtain ⟨s₁, h₁, hr₁⟩ := h.key ha hm hr (solid_of_startsValue hc)
  obtain ⟨s₂, h₂, hr₂⟩ := ih h₁.inFlow (hr₁.trans hhead.symm) hrest hd
  exact ⟨s₂, h₁.trans h₂, hr₂⟩

theorem scans_fields {fs : List (String × JsonValue)} (ih : ∀ f ∈ fs, Scans f.2) (h : InFlow (level + 1) s)
    (hm : s.flowMappingStarted = true) (hr : s.rest = (fs.flatMap fun g => ',' :: (fieldText g).toList) ++ '\x7d' :: rest)
    (hd : level + 1 + fieldDepth fs ≤ 255) :
    ∃ t, Advances (level + 1) s t (fieldTokens fs) ∧ t.rest = '\x7d' :: rest := by
  induction fs generalizing s with
  | nil => exact ⟨s, .refl h, hr⟩
  | cons f fs ihfs =>
    rw [fieldDepth] at hd
    rw [List.flatMap_cons, List.cons_append, List.cons_append, List.append_assoc] at hr
    obtain ⟨s₁, h₁, hr₁, ha₁⟩ := h.comma hr (solid_field f _)
    obtain ⟨s₂, h₂, hr₂⟩ := scans_field (ih f (by simp)) h₁.inFlow ha₁ (h₁.mapping hm) hr₁
      (ends_members _ fs (.inr rfl) rest) (by omega)
    obtain ⟨s₃, h₃, hr₃⟩ := ihfs (fun g hg => ih g (by simp [hg])) h₂.inFlow (h₂.mapping (h₁.mapping hm)) hr₂ (by omega)
    exact ⟨s₃, h₁.trans (h₂.trans h₃), hr₃⟩

structure Bracket where
  opening : Char
  closing : Char
  start : TokenKind
  stop : TokenKind

namespace Bracket

def sequence : Bracket := ⟨'[', ']', .flowSequenceStart, .flowSequenceEnd⟩

def mapping : Bracket := ⟨'\x7b', '\x7d', .flowMappingStart, .flowMappingEnd⟩

def Encloses (b : Bracket) (v : JsonValue) : Prop :=
  ∃ body ks, v.compact.toList = b.opening :: (body ++ [b.closing]) ∧ v.tokens = b.start :: (ks ++ [b.stop]) ∧
    (∀ rest, Solid (body ++ b.closing :: rest)) ∧
      ∀ {level : Nat} {s : Scanner} {rest : List Char}, InFlow (level + 1) s → s.rest = body ++ b.closing :: rest →
        s.simpleKeyAllowed = true → (b.start = .flowMappingStart → s.flowMappingStarted = true) → level + v.depth ≤ 255 →
          ∃ t, Advances (level + 1) s t ks ∧ t.rest = b.closing :: rest

theorem encloses_array {items : List JsonValue} (ih : ∀ v ∈ items, Scans v) : sequence.Encloses (.array items) := by
  cases items with
  | nil =>
    exact ⟨[], [], toList_array_nil, rfl, solid_cons (by decide), fun h hr _ _ _ => ⟨_, .refl h, hr⟩⟩
  | cons v vs =>
    refine ⟨v.compact.toList ++ vs.flatMap fun w => ',' :: w.compact.toList, v.tokens ++ itemTokens vs, ?_, ?_, ?_, ?_⟩
    · rw [toList_array_cons, List.append_assoc]
      rfl
    · rw [tokens, List.append_assoc]
      rfl
    · intro rest
      rw [List.append_assoc]
      exact solid_compact v _
    · intro level s rest h hr _ _ hd
      rw [depth, itemDepth] at hd
      rw [List.append_assoc] at hr
      obtain ⟨s₁, h₁, hr₁⟩ := ih v (by simp) h hr (ends_members _ vs (.inl rfl) rest) (by omega)
      obtain ⟨s₂, h₂, hr₂⟩ := scans_items (fun w hw => ih w (by simp [hw])) h₁.inFlow hr₁ (by omega)
      exact ⟨s₂, h₁.trans h₂, hr₂⟩

theorem encloses_object {fields : List (String × JsonValue)} (ih : ∀ f ∈ fields, Scans f.2) :
    mapping.Encloses (.object fields) := by
  cases fields with
  | nil =>
    exact ⟨[], [], toList_object_nil, rfl, solid_cons (by decide), fun h hr _ _ _ => ⟨_, .refl h, hr⟩⟩
  | cons f fs =>
    refine ⟨(fieldText f).toList ++ fs.flatMap fun g => ',' :: (fieldText g).toList,
      [.key, .scalar .doubleQuoted f.1, .value] ++ f.2.tokens ++ fieldTokens fs, ?_, ?_, ?_, ?_⟩
    · rw [toList_object_cons, List.append_assoc]
      rfl
    · obtain ⟨k, v⟩ := f
      rw [tokens, List.append_assoc, List.append_assoc]
      rfl
    · intro rest
      rw [List.append_assoc]
      exact solid_field f _
    · intro level s rest h hr ha hm hd
      rw [depth, fieldDepth] at hd
      rw [List.append_assoc] at hr
      obtain ⟨s₁, h₁, hr₁⟩ := scans_field (ih f (by simp)) h ha (hm rfl) hr (ends_members _ fs (.inr rfl) rest) (by omega)
      obtain ⟨s₂, h₂, hr₂⟩ := scans_fields (fun g hg => ih g (by simp [hg])) h₁.inFlow (h₁.mapping (hm rfl)) hr₁ (by omega)
      exact ⟨s₂, h₁.trans h₂, hr₂⟩

variable {b : Bracket} {v : JsonValue}

structure Lawful (b : Bracket) : Prop where
  start : ∀ s, content b.opening s = flowStart b.start s
  stop : ∀ s, content b.closing s = flowEnd b.stop s
  solid : (isSpaceOrBreak b.opening = false ∧ b.opening ≠ '#') ∧ isSpaceOrBreak b.closing = false ∧ b.closing ≠ '#'
  plain : b.opening ≠ '%' ∧ b.opening ≠ '-' ∧ b.opening ≠ '.'

theorem Lawful.sequence : Bracket.sequence.Lawful := ⟨fun _ => rfl, fun _ => rfl, by decide, by decide⟩

theorem Lawful.mapping : Bracket.mapping.Lawful := ⟨fun _ => rfl, fun _ => rfl, by decide, by decide⟩

theorem Encloses.scans (h : b.Encloses v) (hb : b.Lawful) (hv : 1 ≤ v.depth) : Scans v := by
  obtain ⟨body, ks, htext, htokens, hsolid, hinside⟩ := h
  intro level s rest h hr hrest hd
  rw [htext, List.cons_append, List.append_assoc, List.singleton_append] at hr
  obtain ⟨s₁, h₁, hr₁, ha₁, hm₁⟩ := h.start (by omega) hr (hr ▸ solid_cons hb.solid.1 _) (hsolid rest) (hb.start s)
  obtain ⟨s₂, h₂, hr₂⟩ := hinside h₁.inFlow hr₁ ha₁ hm₁ (by omega)
  obtain ⟨s₃, h₃, hr₃⟩ := h₂.inFlow.stop hr₂ (hr₂ ▸ solid_cons hb.solid.2 _) hrest.solid (hb.stop s₂)
  rw [htokens]
  exact ⟨s₃, h₁.trans (h₂.trans h₃), hr₃⟩

end Bracket

theorem scans (v : JsonValue) : Scans v := by
  induction v using induct with
  | scalar v =>
    intro level s rest h hr hrest _
    rcases string_or_word v with ⟨text, rfl⟩ | ⟨hne, hw⟩
    · exact h.quoted hr hrest
    · obtain ⟨t, ht, hrt⟩ := h.word hw hr hrest
      rw [String.ofList_toList, ← tokens_word hne] at ht
      exact ⟨t, ht, hrt⟩
  | array items ih => exact (Bracket.encloses_array ih).scans .sequence (by rw [depth]; omega)
  | object fields ih => exact (Bracket.encloses_object ih).scans .mapping (by rw [depth]; omega)

def opened (chars : List Char) : Scanner := { rest := chars, fuel := chars.length + 2, started := true, delivered := 1 }

theorem run_start {text : String} (h : ∀ c ∈ text.toList, c ≠ '\x00') (fuel : Nat) :
    Scan.run (fuel + 1) (start text) =
      (⟨{}, .streamStart⟩ :: (Scan.run fuel (opened text.toList)).1, (Scan.run fuel (opened text.toList)).2) := by
  have hall : text.toList.takeWhile (· ≠ '\x00') = text.toList :=
    List.takeWhile_eq_self_iff.2 fun c hc => decide_eq_true (h c hc)
  have hstart : start text = { rest := text.toList, fuel := text.toList.length + 2 } := by
    simp only [start, hall]
  have hturn : (do step; deliver : Scan (List Token)) (start text) = .ok ([⟨{}, .streamStart⟩], opened text.toList) := by
    rw [hstart]
    simp [step, deliver, opened, bind_apply, get_apply, modify_apply, modifyGet_apply, staleKeys, set_apply, isStale, available,
      push, bind_ok]
  rw [Scan.run, hturn]
  rfl

structure AtEnd (s : Scanner) (ks : List TokenKind) : Prop where
  rest : s.rest = []
  started : s.started = true
  flowLevel : s.flowLevel = 0
  indents : s.indents = []
  optional : ∀ k ∈ s.simpleKeys, k.required = false
  kinds : s.kinds = ks

/-- Places for keys that need no key are given up without a fault. -/
theorem staleKeys_optional (h : ∀ k ∈ s.simpleKeys, k.required = false) :
    ∃ js : List SimpleKey, (∀ k ∈ js, k.required = false ∧ (k.possible = true → ∃ j ∈ s.simpleKeys, j.possible = true)) ∧
      staleKeys s = .ok ((), { s with simpleKeys := js }) := by
  have hany : (s.simpleKeys.any fun k => isStale s k && k.required) = false := by
    rw [List.any_eq_false]
    intro k hk
    simp [h k hk]
  refine ⟨s.simpleKeys.map fun k => if isStale s k then { k with possible := false } else k, ?_, ?_⟩
  · intro k hk
    obtain ⟨j, hj, rfl⟩ := List.mem_map.1 hk
    have hreq := h j hj
    split
    · exact ⟨hreq, by simp⟩
    · exact ⟨hreq, fun hp => ⟨j, hj, hp⟩⟩
  · simp only [staleKeys, bind_apply, get_apply, bind_ok, hany, Bool.false_eq_true, ↓reduceIte, set_apply]

/-- Giving up a place that was given up already. -/
theorem removeKey_idle (h : ∀ k ∈ s.simpleKeys, k.required = false ∧ k.possible = false) : removeKey s = .ok ((), s) := by
  cases hks : s.simpleKeys with
  | nil =>
    simp only [removeKey, bind_apply, get_apply, bind_ok, hks]
    rfl
  | cons k ks =>
    obtain ⟨hreq, hpos⟩ := h k (by simp [hks])
    have hsame : { k with possible := false } = k := by rw [← hpos]
    rw [removeKey_apply hks hreq, hsame, ← hks]

theorem streamEnd_apply (hi : s.indents = []) (h : ∀ k ∈ s.simpleKeys, k.required = false) :
    ∃ place t, streamEnd s = .ok ((), t) ∧ t.queue = s.queue.push ⟨place, .streamEnd⟩ ∧
      (∀ k ∈ t.simpleKeys, k.required = false ∧ k.possible = false) := by
  obtain ⟨u, hu, hsame⟩ : ∃ u : Scanner, (if s.place.column = 0 then s else
      { s with place := { s.place with column := 0, line := s.place.line + 1 } }) = u ∧
        u.indents = s.indents ∧ u.simpleKeys = s.simpleKeys ∧ u.queue = s.queue := by
    refine ⟨_, rfl, ?_⟩
    split <;> exact ⟨rfl, rfl, rfl⟩
  obtain ⟨hui, huk, huq⟩ := hsame
  have hany : (u.simpleKeys.any fun k => k.required && k.possible) = false := by
    rw [List.any_eq_false, huk]
    intro k hk
    simp [h k hk]
  simp only [streamEnd, bind_apply, modify_apply, hu, bind_ok, get_apply, hany, Bool.false_eq_true, ↓reduceIte]
  rw [unroll_apply (by exact hui.trans hi), bind_ok]
  have hgone : ∀ k ∈ u.simpleKeys.map fun k : SimpleKey => { k with possible := false }, k.required = false ∧ k.possible = false := by
    intro k hk
    obtain ⟨j, hj, rfl⟩ := List.mem_map.1 hk
    exact ⟨h j (huk ▸ hj), rfl⟩
  rw [removeKey_idle (by exact hgone), bind_ok]
  simp only [allowKey_apply, bind_ok, push_apply]
  exact ⟨u.place, _, rfl, by simp only [Scanner.pushed, huq], hgone⟩

theorem available_idle (h : ∀ k ∈ s.simpleKeys, k.possible = false) : available s = s.queue.size := by
  have hnone : s.simpleKeys.filter (·.possible) = [] := by
    rw [List.filter_eq_nil_iff]
    intro k hk
    simp [h k hk]
  rw [available, hnone]
  rfl

/-- Tokens are handed out from the front of the queue. -/
theorem deliver_apply (h : ∀ k ∈ s.simpleKeys, k.required = false) :
    ∃ js n, (∀ k ∈ js, k.required = false) ∧ ((∀ k ∈ s.simpleKeys, k.possible = false) → n = s.queue.size) ∧
      deliver s = .ok ((s.queue.extract 0 n).toList,
        { s with simpleKeys := js, queue := s.queue.extract n s.queue.size, delivered := s.delivered + n }) := by
  obtain ⟨js, hjs, hstale⟩ := staleKeys_optional h
  refine ⟨js, available { s with simpleKeys := js }, fun k hk => (hjs k hk).1, ?_, ?_⟩
  · intro hidle
    apply available_idle
    intro k hk
    rw [Bool.eq_false_iff]
    intro hp
    obtain ⟨j, hj, hpos⟩ := (hjs k hk).2 hp
    rw [hidle j hj] at hpos
    simp at hpos
  · rw [deliver, bind_apply, hstale, bind_ok, modifyGet_apply]

theorem map_extract (queue : Array Token) (n : Nat) :
    (queue.extract 0 n).toList.map (·.kind) ++ (queue.extract n queue.size).toList.map (·.kind) = queue.toList.map (·.kind) := by
  rw [← List.map_append]
  simp only [Array.toList_extract, List.extract_eq_take_drop, List.drop_zero, Nat.sub_zero]
  have hrest : (queue.toList.drop n).take (queue.size - n) = queue.toList.drop n := List.take_of_length_le (by simp)
  rw [hrest, List.take_append_drop]

theorem AtEnd.deliver (h : AtEnd s ks) : ∃ ts t ls, Scan.deliver s = .ok (ts, t) ∧ ts.map (·.kind) ++ ls = ks ∧ AtEnd t ls := by
  obtain ⟨js, n, hjs, _, hdeliver⟩ := deliver_apply h.optional
  refine ⟨_, _, _, hdeliver, (map_extract s.queue n).trans h.kinds, ?_⟩
  exact {
    rest := h.rest
    started := h.started
    flowLevel := h.flowLevel
    indents := h.indents
    optional := hjs
    kinds := rfl }

/-- The end of a text hands out what is left in the queue and the end of the stream. -/
theorem AtEnd.run (h : AtEnd s ks) (fuel : Nat) :
    ∃ ts, Scan.run (fuel + 1) s = (ts, none) ∧ ts.map (·.kind) = ks ++ [.streamEnd] := by
  obtain ⟨js, hjs, hstale⟩ := staleKeys_optional h.optional
  have hsolid : Solid s.rest := by
    rw [h.rest]
    exact solid_nil
  obtain ⟨place, t, ht, hqueue, hidle⟩ := streamEnd_apply (s := { s with simpleKeys := js }) h.indents fun k hk => (hjs k hk).1
  have hstep : step s = .ok ((), t) := by
    simp only [step, bind_apply, get_apply, bind_ok, h.started, Bool.not_true, Bool.false_eq_true, ↓reduceIte,
      skipSpaceAndComments_solid hsolid, hstale, column_apply]
    rw [unroll_apply (by exact h.indents), bind_ok, peek_apply, bind_ok]
    have hhead : s.rest.head? = none := by rw [h.rest]; rfl
    simp only [hhead]
    simpa only [h.started] using ht
  obtain ⟨js', n, _, hn, hdeliver⟩ := deliver_apply fun k hk => (hidle k hk).1
  have hall := hn fun k hk => (hidle k hk).2
  have hturn : (do step; Scan.deliver : Scan (List Token)) s = .ok (t.queue.toList,
      { t with simpleKeys := js', queue := t.queue.extract n t.queue.size, delivered := t.delivered + n }) := by
    rw [bind_apply, hstep, bind_ok, hdeliver, hall]
    simp
  have hend : (t.queue.toList.any (·.kind = .streamEnd)) = true := by
    simp [hqueue]
  rw [Scan.run, hturn]
  simp only [hend, ↓reduceIte]
  refine ⟨_, rfl, ?_⟩
  rw [hqueue]
  simpa [Scanner.kinds] using h.kinds

/-- Reading the first token of a text that does not start with a directive or a marker. -/
theorem step_opened (hs : Solid (c :: cs)) (hc : c ≠ '%')
    (hm : ∀ m, m = '-' ∨ m = '.' → atMarker m (opened (c :: cs)) = .ok (false, opened (c :: cs))) :
    step (opened (c :: cs)) = content c (opened (c :: cs)) := by
  have hstale : staleKeys (opened (c :: cs)) = .ok ((), opened (c :: cs)) := by
    simp [staleKeys, opened, isStale, bind_apply, get_apply, bind_ok, set_apply]
  have hstarted : (opened (c :: cs)).started = true := rfl
  have hdirective : (c == '%') = false := beq_eq_false_iff_ne.2 hc
  have hin : ¬(((opened (c :: cs)).place.column : Int) < (opened (c :: cs)).indent) :=
    Int.not_lt.2 (show (-1 : Int) ≤ ((0 : Nat) : Int) by decide)
  have hsolid : Solid (opened (c :: cs)).rest := hs
  have hhead : (opened (c :: cs)).rest.head? = some c := rfl
  simp only [step, bind_apply, get_apply, bind_ok, hstarted, Bool.not_true, Bool.false_eq_true, ↓reduceIte,
    skipSpaceAndComments_solid hsolid, hstale, column_apply, unroll_apply (s := opened (c :: cs)) rfl, peek_apply, hhead,
    hdirective, Bool.and_false, hm '-' (.inl rfl), hm '.' (.inr rfl), outsideIndent_apply, hin, decide_false]

/-- The turn that leaves all of a text behind is the last but one. -/
theorem run_last {m : Nat} (hturns : Turns m (opened cs) s) (hn : m ≤ n) (hstep : step s = .ok ((), t)) (ht : AtEnd t ks)
    (hks : TokenKind.streamEnd ∉ ks) :
    ∃ ts, Scan.run (n + 2) (opened cs) = (ts, none) ∧ ts.map (·.kind) = ks ++ [.streamEnd] := by
  obtain ⟨ts, u, ls, hdeliver, hkinds, hu⟩ := ht.deliver
  have hturn : (do step; deliver : Scan (List Token)) s = .ok (ts, u) := by
    rw [bind_apply, hstep, bind_ok, hdeliver]
  have hmore : (ts.any (·.kind = .streamEnd)) = false := by
    rw [List.any_eq_false]
    intro x hx he
    refine hks (hkinds ▸ List.mem_append_left ls ?_)
    exact List.mem_map.2 ⟨x, hx, of_decide_eq_true he⟩
  obtain ⟨us, hus, huskinds⟩ := hu.run (n - m)
  have hfuel : n + 2 = m + (n - m + 1 + 1) := by omega
  refine ⟨ts ++ us, ?_, ?_⟩
  · rw [hfuel, hturns.run, Scan.run, hturn]
    simp only [hmore, Bool.false_eq_true, ↓reduceIte, hus]
  · rw [List.map_append, huskinds, ← hkinds, List.append_assoc]

theorem optional_savedKeys (cs : List Char) : ∀ k ∈ (opened cs).savedKeys, k.required = false := by
  intro k hk
  obtain rfl : k = ⟨true, false, 1, {}⟩ := List.mem_singleton.1 hk
  rfl

theorem ends_nil (level : Nat) : Ends level [] := fun c hc => by simp at hc

/-- A quoted text alone. -/
theorem quoted_last (text : String) : ∃ t, step (opened (quote text).toList) = .ok ((), t) ∧
    AtEnd t [.scalar .doubleQuoted text] := by
  obtain ⟨cs, hcs⟩ : ∃ cs, (quote text).toList = '"' :: cs := ⟨_, toList_quote text⟩
  have hr : (opened ('"' :: cs)).rest = (quote text).toList ++ [] := by
    rw [hcs, List.append_nil]
    rfl
  rw [hcs]
  obtain ⟨place, _, hquoted⟩ := quotedScalar_apply hr (.inl (ends_nil _)) rfl rfl
    (Nat.lt_add_of_pos_right (by decide : 0 < 2))
  have hstep : step (opened ('"' :: cs)) = quotedScalar false (opened ('"' :: cs)) := by
    refine step_opened (solid_cons (by decide) _) (by decide) ?_
    rintro m (rfl | rfl) <;> exact atMarker_of_ne rfl (by decide)
  refine ⟨_, hstep.trans hquoted, ?_⟩
  exact {
    rest := rfl
    started := rfl
    flowLevel := rfl
    indents := rfl
    optional := optional_savedKeys _
    kinds := rfl }

/-- A word alone. -/
theorem word_last {w : List Char} (hw : Word w) : ∃ t, step (opened w) = .ok ((), t) ∧
    AtEnd t [.scalar .plain (String.ofList w)] := by
  have hr : (opened w).rest = w ++ [] := (List.append_nil _).symm
  obtain ⟨place, _, hplain⟩ := plainScalar_apply hw hr (ends_nil _) rfl rfl (Nat.lt_add_of_pos_right (by decide : 0 < 2))
  obtain ⟨c, cs, rfl⟩ : ∃ c cs, w = c :: cs := by cases hw <;> exact ⟨_, _, rfl⟩
  have hc : isWordChar c = true := (Bool.and_eq_true_iff.1 hw.all_isWordChar).1
  have hne : ∀ d, isWordChar d = false → c ≠ d := by
    rintro d hd rfl
    rw [hc] at hd
    simp at hd
  have hstep : step (opened (c :: cs)) = plainScalar (opened (c :: cs)) :=
    (step_opened (solid_cons ⟨isSpaceOrBreak_of_isWordChar hc, hne '#' (by decide)⟩ cs) (hne '%' (by decide))
      fun m hm => atMarker_word hw hr hm).trans (content_word hw hr)
  refine ⟨_, hstep.trans hplain, ?_⟩
  exact {
    rest := rfl
    started := rfl
    flowLevel := rfl
    indents := rfl
    optional := optional_savedKeys _
    kinds := rfl }

/-- The first bracket of a text. -/
theorem Bracket.Lawful.first {b : Bracket} (hb : b.Lawful) (hs : Solid cs) :
    ∃ t, turn (opened (b.opening :: cs)) = .ok ([], t) ∧ InFlow 1 t ∧ t.rest = cs ∧ t.kinds = [b.start] ∧
      t.simpleKeyAllowed = true ∧ (b.start = .flowMappingStart → t.flowMappingStarted = true) := by
  have hstep : step (opened (b.opening :: cs)) = flowStart b.start (opened (b.opening :: cs)) := by
    refine (step_opened (solid_cons hb.solid.1 cs) hb.plain.1 ?_).trans (hb.start _)
    rintro m (rfl | rfl)
    · exact atMarker_of_ne rfl hb.plain.2.1
    · exact atMarker_of_ne rfl hb.plain.2.2
  have hflow := flowStart_apply (s := opened (b.opening :: cs)) rfl rfl hs (by decide : 0 < 255) b.start
  obtain ⟨t, ht, hin, hrest, hkinds, hallowed, hmapping⟩ : ∃ t, flowStart b.start (opened (b.opening :: cs)) = .ok ((), t) ∧
      InFlow 1 t ∧ t.rest = cs ∧ t.kinds = [b.start] ∧ t.simpleKeyAllowed = true ∧
        (b.start = .flowMappingStart → t.flowMappingStarted = true) := by
    refine ⟨_, hflow, ?_, rfl, rfl, rfl, ?_⟩
    · exact {
        started := rfl
        delivered := rfl
        fuel := Nat.lt_trans (Nat.lt_succ_self _) (Nat.lt_add_of_pos_right (by decide : 0 < 2))
        flowLevel := rfl
        indent := rfl
        indents := rfl
        column := Nat.succ_pos _
        pairs := by
          show true ∉ if b.start = .flowMappingStart then [] else [false]
          split <;> simp
        keys := ⟨rfl, by
          show ∀ k ∈ {} :: (opened (b.opening :: cs)).savedKeys, _
          exact List.forall_mem_cons.2 ⟨rfl, optional_savedKeys _⟩, ⟨true, false, 1, {}⟩, rfl, rfl, rfl⟩ }
    · exact fun hk => by simp [Scanner.pushed, Scanner.moved, hk]
  refine ⟨t, ?_, hin, hrest, hkinds, hallowed, hmapping⟩
  rw [turn, bind_apply, hstep, ht, bind_ok]
  exact hin.deliver Nat.one_pos

/-- The last bracket of a text. -/
theorem Bracket.Lawful.last {b : Bracket} (hb : b.Lawful) (h : InFlow 1 s) (hr : s.rest = [b.closing]) :
    ∃ t, step s = .ok ((), t) ∧ AtEnd t (s.kinds ++ [b.stop]) := by
  obtain ⟨k, ks, hks, hreq, hheld⟩ := h.keys.exists_cons
  have hstep := (h.step Nat.one_pos hr (hr ▸ solid_cons hb.solid.2 [])).trans (hb.stop s)
  have hflow := flowEnd_apply hks hreq h.pairs hr solid_nil (by rw [h.flowLevel]; exact Nat.one_pos) b.stop
  refine ⟨_, hstep.trans hflow, ?_⟩
  exact {
    rest := rfl
    started := h.started
    flowLevel := congrArg (· - 1) h.flowLevel
    indents := h.indents
    optional := hheld.optional
    kinds := kinds_pushed _ _ _ }

def Finishes (cs : List Char) (ks : List TokenKind) : Prop :=
  ∃ m s t, Turns m (opened cs) s ∧ m ≤ cs.length ∧ step s = .ok ((), t) ∧ AtEnd t ks

theorem Bracket.Encloses.finishes {b : Bracket} {v : JsonValue} (hv : b.Encloses v) (hb : b.Lawful) (h : v.depth ≤ 255) :
    Finishes v.compact.toList v.tokens := by
  obtain ⟨body, ks, htext, htokens, hsolid, hinside⟩ := hv
  obtain ⟨s₁, hturn, hin, hr₁, hk₁, ha₁, hm₁⟩ := hb.first (hsolid [])
  obtain ⟨s₂, h₂, hr₂⟩ := hinside hin hr₁ ha₁ hm₁ (by omega)
  obtain ⟨m, hm, hmle⟩ := h₂.turns
  obtain ⟨t, ht, hend⟩ := hb.last h₂.inFlow hr₂
  rw [h₂.kinds, hk₁] at hend
  rw [htext, htokens]
  refine ⟨m + 1, s₂, t, .next hturn hm, ?_, ht, hend⟩
  rw [hr₁] at hmle
  rw [List.length_cons]
  omega

theorem finishes (v : JsonValue) (h : v.depth ≤ 255) : Finishes v.compact.toList v.tokens := by
  cases v with
  | scalar v =>
    rcases string_or_word v with ⟨text, rfl⟩ | ⟨hne, hw⟩
    · obtain ⟨t, ht, hend⟩ := quoted_last text
      exact ⟨0, _, t, .none _, Nat.zero_le _, ht, hend⟩
    · obtain ⟨t, ht, hend⟩ := word_last hw
      rw [String.ofList_toList, ← tokens_word hne] at hend
      exact ⟨0, _, t, .none _, Nat.zero_le _, ht, hend⟩
  | array items => exact (Bracket.encloses_array fun v _ => scans v).finishes .sequence h
  | object fields => exact (Bracket.encloses_object fun f _ => scans f.2).finishes .mapping h

/-- The tokens of a value, between those of the stream. -/
theorem ofText_compact (v : JsonValue) (h : v.depth ≤ 255) :
    ∃ ts, Scanned.ofText v.compact = ⟨ts, none⟩ ∧ ts.map (·.kind) = .streamStart :: (v.tokens ++ [.streamEnd]) := by
  obtain ⟨m, s, t, hturns, hm, hstep, hend⟩ := finishes v h
  obtain ⟨ts, hts, hkinds⟩ := run_last hturns hm hstep hend (streamEnd_not_mem_tokens v)
  have hnul : ∀ c ∈ v.compact.toList, c ≠ '\x00' := by
    rintro c hc rfl
    exact absurd (printable_compact v _ hc) (by decide)
  have hfuel : (start v.compact).fuel + 1 = v.compact.toList.length + 2 + 1 := by
    have hall : v.compact.toList.takeWhile (· ≠ '\x00') = v.compact.toList :=
      List.takeWhile_eq_self_iff.2 fun c hc => decide_eq_true (hnul c hc)
    simp only [start, hall]
  refine ⟨⟨{}, .streamStart⟩ :: ts, ?_, ?_⟩
  · rw [Scanned.ofText]
    simp only [hfuel, run_start hnul, hts]
  · rw [List.map_cons, hkinds]

end YamlQuery.Yaml.Scan
