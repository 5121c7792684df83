import YamlQuery.Proofs.Text.Decimal
import YamlQuery.Proofs.Text.Escape
import YamlQuery.Value.JsonText
/-!
The shape of compact JSON text: brackets around members with commas between them, quoted texts without bare controls, and
words for all other scalars.
-/
namespace YamlQuery.JsonValue

def isWordChar (c : Char) : Bool := CharClass.isAsciiAlphanumeric c || c == '+' || c == '-' || c == '.'

inductive Word : List Char → Prop
  | plain {c : Char} {cs : List Char} (hc : CharClass.isAsciiAlphanumeric c = true) (hcs : cs.all isWordChar = true) :
    Word (c :: cs)
  | negative {c : Char} {cs : List Char} (hc : CharClass.isAsciiAlphanumeric c = true) (hcs : cs.all isWordChar = true) :
    Word ('-' :: c :: cs)

namespace Word
open CharClass

theorem isWordChar_of_isDigit {c : Char} (h : isDigit c = true) : isWordChar c = true := by
  simp [isWordChar, isAsciiAlphanumeric, h]

/-- A digit and characters of words. -/
theorem of_digit {c : Char} {cs : List Char} (hc : isDigit c = true) (hcs : cs.all isWordChar = true) : Word (c :: cs) :=
  .plain (by simp [isAsciiAlphanumeric, hc]) hcs

theorem all_toDigits (n : Nat) : (Nat.toDigits 10 n).all isWordChar = true :=
  List.all_eq_true.2 fun c hc => isWordChar_of_isDigit (Integer.toDigits_isDigit n c hc)

theorem toDigits_cons (n : Nat) : ∃ c cs, Nat.toDigits 10 n = c :: cs ∧ isDigit c = true ∧ cs.all isWordChar = true := by
  obtain ⟨c, cs, hcs⟩ := List.exists_cons_of_ne_nil (@Nat.toDigits_ne_nil n 10)
  have hall := all_toDigits n
  rw [hcs, List.all_cons, Bool.and_eq_true] at hall
  exact ⟨c, cs, hcs, Integer.toDigits_isDigit n c (by simp [hcs]), hall.2⟩

theorem toList_toString (n : Nat) : (toString n).toList = Nat.toDigits 10 n := by
  rw [Nat.toString_eq_repr, Nat.toList_repr]

theorem of_int (n : Int) : Word (toString n).toList := by
  cases n with
  | ofNat n =>
    obtain ⟨c, cs, hcs, hc, hall⟩ := toDigits_cons n
    have htext : (toString (Int.ofNat n)).toList = Nat.toDigits 10 n := toList_toString n
    rw [htext, hcs]
    exact of_digit hc hall
  | negSucc n =>
    obtain ⟨c, cs, hcs, hc, hall⟩ := toDigits_cons (n + 1)
    have htext : (toString (Int.negSucc n)).toList = '-' :: Nat.toDigits 10 (n + 1) := by
      have hrepr : toString (Int.negSucc n) = "-" ++ toString (n + 1) := rfl
      rw [hrepr, String.toList_append, toList_toString]
      rfl
    rw [htext, hcs]
    exact .negative (by simp [isAsciiAlphanumeric, hc]) hall

theorem all_zeros (n : Nat) : (Binary64.zeros n).all isWordChar = true := by
  rw [List.all_eq_true]
  intro c hc
  obtain rfl := List.eq_of_mem_replicate hc
  decide

theorem all_exponentText (style : Binary64.ExponentStyle) (n : Int) : (Binary64.exponentText style n).all isWordChar = true := by
  have hsign : (if n < 0 then ['-'] else if style.plusSign then ['+'] else []).all isWordChar = true := by
    split
    · decide
    · split <;> decide
  simp only [Binary64.exponentText, toList_toString, List.cons_append, List.all_cons, List.all_append, hsign, all_zeros,
    all_toDigits, Bool.and_true]
  decide

/-- Digits at any place of the decimal point, or with an exponent, start with a digit. -/
theorem layout_cons (style : Binary64.ExponentStyle) {c : Char} {cs : List Char} (hc : isDigit c = true)
    (hcs : cs.all isWordChar = true) (k : Int) :
    ∃ d ds, Binary64.layout style (c :: cs) k = d :: ds ∧ isDigit d = true ∧ ds.all isWordChar = true := by
  have hzero : isDigit '0' = true := by decide
  have hpoint : isWordChar '.' = true := by decide
  have hw := isWordChar_of_isDigit hc
  unfold Binary64.layout
  dsimp only
  split
  · exact ⟨c, _, rfl, hc, by simp [hcs, all_zeros, hpoint, isWordChar_of_isDigit hzero]⟩
  · split
    · next h =>
      obtain ⟨n, hn⟩ : ∃ n : Nat, (((c :: cs).length : Int) + k).toNat = n + 1 := by
        simp only [Bool.and_eq_true, decide_eq_true_eq] at h
        exact ⟨(((c :: cs).length : Int) + k).toNat - 1, by omega⟩
      have htake : (cs.take n).all isWordChar = true := List.all_eq_true.2 fun d hd =>
        List.all_eq_true.1 hcs d (List.mem_of_mem_take hd)
      have hdrop : (cs.drop n).all isWordChar = true := List.all_eq_true.2 fun d hd =>
        List.all_eq_true.1 hcs d (List.mem_of_mem_drop hd)
      rw [hn, List.take_succ_cons, List.drop_succ_cons]
      exact ⟨c, _, rfl, hc, by simp [htake, hdrop, hpoint]⟩
    · split
      · exact ⟨'0', _, rfl, hzero, by simp [hcs, hw, all_zeros, hpoint]⟩
      · cases cs with
        | nil => exact ⟨c, _, rfl, hc, all_exponentText style _⟩
        | cons d ds => exact ⟨c, _, rfl, hc, by simpa [hpoint, all_exponentText] using hcs⟩

theorem of_float (style : Binary64.ExponentStyle) (x : Binary64) : Word (x.text style).toList := by
  have hunsigned : ∃ d ds, (if x.magnitude = 0 then ['0', '.', '0'] else
      Binary64.layout style (toString x.shortest.1).toList x.shortest.2) = d :: ds ∧ isDigit d = true ∧
        ds.all isWordChar = true := by
    split
    · exact ⟨'0', ['.', '0'], rfl, by decide, by decide⟩
    · obtain ⟨c, cs, hcs, hc, hall⟩ := toDigits_cons x.shortest.1
      rw [toList_toString, hcs]
      exact layout_cons style hc hall _
  obtain ⟨d, ds, hd, hdigit, hall⟩ := hunsigned
  have halnum : isAsciiAlphanumeric d = true := by simp [isAsciiAlphanumeric, hdigit]
  have htext : (x.text style).toList = if x.isNegative then '-' :: d :: ds else d :: ds := by
    rw [Binary64.text, String.toList_ofList]
    rw [← hd]
  rw [htext]
  split
  · exact .negative halnum hall
  · exact .plain halnum hall

theorem all_isWordChar {cs : List Char} (h : Word cs) : cs.all isWordChar = true := by
  have halnum : ∀ {c : Char}, isAsciiAlphanumeric c = true → isWordChar c = true := by
    intro c hc
    simp [isWordChar, hc]
  cases h with
  | plain hc hcs => simp [halnum hc, hcs]
  | negative hc hcs =>
    have hm : isWordChar '-' = true := by decide
    simp [halnum hc, hcs, hm]

/-- Something of the word comes behind a minus sign. -/
theorem of_minus {c : Char} {cs : List Char} (h : Word (c :: cs)) (hc : c = '-') :
    ∃ d ds, cs = d :: ds ∧ isWordChar d = true := by
  cases h with
  | plain hd => exact absurd hd (by rw [hc]; decide)
  | @negative d ds hd => exact ⟨d, ds, rfl, by simp [isWordChar, hd]⟩

end Word

open CharClass

/-- A scalar is written between quotes or as a word. -/
theorem string_or_word (v : ScalarValue) :
    (∃ text, v = .string text) ∨ (∀ text, v ≠ .string text) ∧ Word (scalarText v).toList := by
  cases v with
  | null => exact .inr ⟨nofun, .plain (c := 'n') (by decide) (by decide)⟩
  | bool b =>
    cases b with
    | false => exact .inr ⟨nofun, .plain (c := 'f') (by decide) (by decide)⟩
    | true => exact .inr ⟨nofun, .plain (c := 't') (by decide) (by decide)⟩
  | int n => exact .inr ⟨nofun, Word.of_int n.toInt⟩
  | float x => exact .inr ⟨nofun, Word.of_float exponentStyle x⟩
  | string text => exact .inl ⟨text, rfl⟩

/-- A character between quotes stands for itself, or an escape of one or more letters and digits stands for it. -/
theorem escapeChar_cases (c : Char) :
    (escapeChar c = [c] ∧ c ≠ '"' ∧ c ≠ '\\' ∧ 32 ≤ c.toNat) ∨
      ∃ x xs, escapeChar c = '\\' :: x :: xs ∧ Escape.Body c (x :: xs) ∧ 32 ≤ x.toNat ∧ xs.all isHexDigit = true := by
  unfold escapeChar
  split
  all_goals try exact .inr ⟨_, [], rfl, Escape.body_letter rfl rfl, by decide, rfl⟩
  next hq hb _ _ _ _ _ =>
  split
  · refine .inr ⟨'u', Escape.hexDigits 4 c.toNat, rfl, ?_, by decide, Escape.all_hexDigits 4 c.toNat⟩
    exact Escape.body_digits rfl (by omega)
  · exact .inl ⟨rfl, hq, hb, by omega⟩

theorem escapeChar_length_pos (c : Char) : 0 < (escapeChar c).length := by
  rcases escapeChar_cases c with ⟨he, _⟩ | ⟨x, xs, he, _⟩ <;> simp [he]

theorem length_le_escaped (cs : List Char) : cs.length ≤ (cs.flatMap escapeChar).length := by
  induction cs with
  | nil => exact Nat.le_refl 0
  | cons c cs ih =>
    have hpos := escapeChar_length_pos c
    rw [List.flatMap_cons, List.length_append, List.length_cons]
    omega

theorem toList_quote (text : String) : (quote text).toList = '"' :: (text.toList.flatMap escapeChar ++ ['"']) := by
  simp [quote]

/-- Induction over the members of arrays and objects. -/
@[elab_as_elim]
theorem induct {P : JsonValue → Prop} (scalar : ∀ v, P (.scalar v)) (array : ∀ items, (∀ v ∈ items, P v) → P (.array items))
    (object : ∀ fields, (∀ f ∈ fields, P f.2) → P (.object fields)) (v : JsonValue) : P v := by
  refine @JsonValue.rec P (fun items => ∀ v ∈ items, P v) (fun fields => ∀ f ∈ fields, P f.2) (fun f => P f.2)
    scalar array object ?_ ?_ ?_ ?_ ?_ v
  · simp
  · exact fun v vs hv hvs => List.forall_mem_cons.2 ⟨hv, hvs⟩
  · simp
  · exact fun f fs hf hfs => List.forall_mem_cons.2 ⟨hf, hfs⟩
  · exact fun _ _ hv => hv

def fieldText (f : String × JsonValue) : String := quote f.1 ++ ":" ++ f.2.compact

theorem toList_fieldText (f : String × JsonValue) :
    (fieldText f).toList = (quote f.1).toList ++ ':' :: f.2.compact.toList := by
  simp [fieldText]

/-- Members with commas between them. -/
theorem toList_commas (s : String) (ss : List String) :
    (",".intercalate (s :: ss)).toList = s.toList ++ ss.flatMap fun t => ',' :: t.toList := by
  induction ss generalizing s with
  | nil => simp
  | cons t ss ih =>
    rw [String.intercalate_cons_cons, String.toList_append, String.toList_append, ih, List.flatMap_cons]
    simp

theorem compactItems_eq (items : List JsonValue) : compactItems items = items.map compact := by
  induction items with
  | nil => rfl
  | cons v vs ih => rw [compactItems, ih, List.map_cons]

theorem compactFields_eq (fields : List (String × JsonValue)) : compactFields fields = fields.map fieldText := by
  induction fields with
  | nil => rfl
  | cons f fs ih =>
    obtain ⟨k, v⟩ := f
    rw [compactFields, ih, List.map_cons]
    rfl

theorem toList_array_nil : (array []).compact.toList = ['[', ']'] := by
  decide +kernel

theorem toList_array_cons (v : JsonValue) (vs : List JsonValue) :
    (array (v :: vs)).compact.toList =
      '[' :: (v.compact.toList ++ ((vs.flatMap fun w => ',' :: w.compact.toList) ++ [']'])) := by
  rw [compact, compactItems_eq, List.map_cons, String.toList_append, String.toList_append, toList_commas, List.flatMap_map]
  simp

theorem toList_object_nil : (object []).compact.toList = ['\x7b', '\x7d'] := by
  decide +kernel

theorem toList_object_cons (f : String × JsonValue) (fs : List (String × JsonValue)) :
    (object (f :: fs)).compact.toList =
      '\x7b' :: ((fieldText f).toList ++ ((fs.flatMap fun g => ',' :: (fieldText g).toList) ++ ['\x7d'])) := by
  rw [compact, compactFields_eq, List.map_cons, String.toList_append, String.toList_append, toList_commas, List.flatMap_map]
  simp

def startsValue (c : Char) : Bool := isAsciiAlphanumeric c || c == '-' || c == '"' || c == '[' || c == '\x7b'

theorem compact_cons (v : JsonValue) : ∃ c cs, v.compact.toList = c :: cs ∧ startsValue c = true := by
  cases v with
  | scalar v =>
    rcases string_or_word v with ⟨text, rfl⟩ | ⟨_, hw⟩
    · exact ⟨'"', _, toList_quote text, by decide⟩
    · rw [compact]
      generalize (scalarText v).toList = cs at hw
      cases hw with
      | plain hc => exact ⟨_, _, rfl, by simp [startsValue, hc]⟩
      | negative => exact ⟨_, _, rfl, by decide⟩
  | array items =>
    cases items with
    | nil => exact ⟨_, _, toList_array_nil, by decide⟩
    | cons v vs => exact ⟨_, _, toList_array_cons v vs, by decide⟩
  | object fields =>
    cases fields with
    | nil => exact ⟨_, _, toList_object_nil, by decide⟩
    | cons f fs => exact ⟨_, _, toList_object_cons f fs, by decide⟩

def endsValue (c : Char) : Bool := isWordChar c || c == '"' || c == ']' || c == '\x7d'

theorem compact_concat (v : JsonValue) : ∃ cs c, v.compact.toList = cs ++ [c] ∧ endsValue c = true := by
  cases v with
  | scalar v =>
    rcases string_or_word v with ⟨text, rfl⟩ | ⟨_, hw⟩
    · refine ⟨'"' :: text.toList.flatMap escapeChar, '"', ?_, by decide⟩
      rw [compact]
      exact toList_quote text
    · have hall := hw.all_isWordChar
      obtain ⟨d, ds, hds, _⟩ := compact_cons (.scalar v)
      rw [compact] at hds ⊢
      have hne : (scalarText v).toList ≠ [] := by simp [hds]
      refine ⟨_, _, (List.dropLast_concat_getLast hne).symm, ?_⟩
      simp [endsValue, List.all_eq_true.1 hall _ (List.getLast_mem hne)]
  | array items =>
    cases items with
    | nil => exact ⟨['['], ']', toList_array_nil, by decide⟩
    | cons v vs => exact ⟨'[' :: (v.compact.toList ++ vs.flatMap fun w => ',' :: w.compact.toList), ']',
        by simp [toList_array_cons], by decide⟩
  | object fields =>
    cases fields with
    | nil => exact ⟨['\x7b'], '\x7d', toList_object_nil, by decide⟩
    | cons f fs => exact ⟨'\x7b' :: ((fieldText f).toList ++ fs.flatMap fun g => ',' :: (fieldText g).toList), '\x7d',
        by simp [toList_object_cons], by decide⟩

theorem printable_of_isHexDigit {c : Char} (h : isHexDigit c = true) : 32 ≤ c.toNat := by
  simp only [isHexDigit, isDigit, Bool.or_eq_true, Bool.and_eq_true, decide_eq_true_eq] at h
  rcases h with (h | h) | h
  all_goals
    have hle := Char.le_def.1 h.1
    have hnat : _ ≤ c.toNat := hle
    exact Nat.le_trans (by decide) hnat

theorem isWordChar_bounds {c : Char} (h : isWordChar c = true) : 32 < c.toNat ∧ c.toNat < 128 := by
  have hrange : ∀ {a b : Char}, 32 < a.toNat → b.toNat < 128 → a ≤ c ∧ c ≤ b → 32 < c.toNat ∧ c.toNat < 128 := by
    intro a b ha hb hc
    exact ⟨Nat.lt_of_lt_of_le ha (Char.le_def.1 hc.1), Nat.lt_of_le_of_lt (Char.le_def.1 hc.2) hb⟩
  simp only [isWordChar, isAsciiAlphanumeric, isAsciiLetter, isDigit, Bool.or_eq_true, Bool.and_eq_true, decide_eq_true_eq,
    beq_iff_eq] at h
  rcases h with ((((h | h) | h) | rfl) | rfl) | rfl
  · exact hrange (by decide) (by decide) h
  · exact hrange (by decide) (by decide) h
  · exact hrange (by decide) (by decide) h
  all_goals decide

theorem printable_quote (text : String) : ∀ c ∈ (quote text).toList, 32 ≤ c.toNat := by
  intro c hc
  rw [toList_quote] at hc
  rcases List.mem_cons.1 hc with rfl | hc
  · decide
  · rcases List.mem_append.1 hc with hc | hc
    · obtain ⟨d, _, hc⟩ := List.mem_flatMap.1 hc
      rcases escapeChar_cases d with ⟨he, _, _, hd⟩ | ⟨x, xs, he, _, hx, hxs⟩
      · rw [he] at hc
        obtain rfl := List.mem_singleton.1 hc
        exact hd
      · rw [he] at hc
        rcases List.mem_cons.1 hc with rfl | hc
        · decide
        · rcases List.mem_cons.1 hc with rfl | hc
          · exact hx
          · exact printable_of_isHexDigit (List.all_eq_true.1 hxs c hc)
    · obtain rfl := List.mem_singleton.1 hc
      decide

theorem printable_word {cs : List Char} (h : Word cs) : ∀ c ∈ cs, 32 ≤ c.toNat :=
  fun c hc => Nat.le_of_lt (isWordChar_bounds (List.all_eq_true.1 h.all_isWordChar c hc)).1

/-- Compact text has no control characters, and so neither line breaks nor NUL. -/
theorem printable_compact (v : JsonValue) : ∀ c ∈ v.compact.toList, 32 ≤ c.toNat := by
  induction v using induct with
  | scalar v =>
    rcases string_or_word v with ⟨text, rfl⟩ | ⟨_, hw⟩
    · exact printable_quote text
    · exact printable_word hw
  | array items ih =>
    cases items with
    | nil =>
      rw [toList_array_nil]
      exact List.forall_mem_cons.2 ⟨by decide, List.forall_mem_singleton.2 (by decide)⟩
    | cons v vs =>
      rw [toList_array_cons]
      have hvs : ∀ c ∈ vs.flatMap fun w => ',' :: w.compact.toList, 32 ≤ c.toNat := by
        intro c hc
        obtain ⟨w, hw, hc⟩ := List.mem_flatMap.1 hc
        rcases List.mem_cons.1 hc with rfl | hc
        · decide
        · exact ih w (List.mem_cons_of_mem v hw) c hc
      have hv := ih v (List.mem_cons_self ..)
      simp only [List.mem_cons, List.mem_append, List.not_mem_nil, or_false]
      rintro c (rfl | hc | hc | rfl)
      · decide
      · exact hv c hc
      · exact hvs c hc
      · decide
  | object fields ih =>
    cases fields with
    | nil =>
      rw [toList_object_nil]
      exact List.forall_mem_cons.2 ⟨by decide, List.forall_mem_singleton.2 (by decide)⟩
    | cons f fs =>
      have hfield : ∀ g ∈ f :: fs, ∀ c ∈ (fieldText g).toList, 32 ≤ c.toNat := by
        intro g hg c hc
        rw [toList_fieldText] at hc
        rcases List.mem_append.1 hc with hc | hc
        · exact printable_quote g.1 c hc
        · rcases List.mem_cons.1 hc with rfl | hc
          · decide
          · exact ih g hg c hc
      rw [toList_object_cons]
      have hfs : ∀ c ∈ fs.flatMap fun g => ',' :: (fieldText g).toList, 32 ≤ c.toNat := by
        intro c hc
        obtain ⟨g, hg, hc⟩ := List.mem_flatMap.1 hc
        rcases List.mem_cons.1 hc with rfl | hc
        · decide
        · exact hfield g (List.mem_cons_of_mem f hg) c hc
      have hf := hfield f (List.mem_cons_self ..)
      simp only [List.mem_cons, List.mem_append, List.not_mem_nil, or_false]
      rintro c (rfl | hc | hc | rfl)
      · decide
      · exact hf c hc
      · exact hfs c hc
      · decide

end YamlQuery.JsonValue
