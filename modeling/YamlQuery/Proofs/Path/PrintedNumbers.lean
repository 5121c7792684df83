import YamlQuery.Proofs.Path.Placement
import YamlQuery.Proofs.Path.Segment
/-!
Numbers in paths. Decimal literals are read as the numbers they spell, alone, in brackets and between the colons of a slice;
the first that does not fit 64 bits is reported where it stands, and after it a stride of zero. So what is printed for an
index or a slice parses back to it.
-/
namespace YamlQuery
open CharClass Path.Grammar

namespace Decimal

def Fits (d : Decimal) : Prop := Int64.minValue.toInt ≤ d.value ∧ d.value ≤ Int64.maxValue.toInt

instance (d : Decimal) : Decidable d.Fits := inferInstanceAs (Decidable (_ ∧ _))

def toInt64 (d : Decimal) : Int64 := Int64.ofInt d.value

variable {d : Decimal}

theorem fit_value (d : Decimal) : Integer.fit? d.value = if d.Fits then some d.toInt64 else none := rfl

theorem toInt64_eq_zero (h : d.Fits) : d.toInt64 = 0 ↔ d.value = 0 := by
  rw [← Int64.toInt_inj, toInt64, Int64.toInt_ofInt_of_le h.1 (Int.lt_of_le_of_lt h.2 (by decide))]
  rfl

def ofInt64 (n : Int64) : Decimal := ofInt n.toInt

theorem fits_ofInt64 (n : Int64) : (ofInt64 n).Fits := by
  rw [Fits, ofInt64, value_ofInt]
  exact ⟨n.minValue_le_toInt, n.toInt_le⟩

theorem toInt64_ofInt64 (n : Int64) : (ofInt64 n).toInt64 = n := by
  rw [toInt64, ofInt64, value_ofInt, Int64.ofInt_toInt]

theorem chars_cons (d : Decimal) : ∃ c cs, d.chars = c :: cs ∧ isBlank c = false ∧ c ≠ ']' := by
  obtain ⟨c, cs, hcs⟩ := List.exists_cons_of_ne_nil d.ne_nil
  unfold chars
  split
  · exact ⟨'-', d.digits, rfl, by decide, by decide⟩
  · have hc : CharClass.isDigit c = true := d.isDigit c (by simp [hcs])
    refine ⟨c, cs, hcs, isBlank_of_isDigit hc, ?_⟩
    rintro rfl
    exact absurd hc (by decide)

theorem narrow_chars (d : Decimal) : ∀ c ∈ d.chars, Path.Narrow c := by
  have hdigit : ∀ c ∈ d.digits, Path.Narrow c := by
    intro c hc
    have h := d.isDigit c hc
    have hle : c.toNat ≤ 57 := of_decide_eq_true (Bool.and_eq_true_iff.1 h).2
    refine ⟨Char.utf8Size_eq_one_iff.2 (le_trans (show c.toNat ≤ 57 from hle) (by decide)), ?_⟩
    rintro rfl
    exact absurd h (by decide)
  unfold chars
  split
  · exact List.forall_mem_cons.2 ⟨⟨by decide, by decide⟩, hdigit⟩
  · exact hdigit

end Decimal

namespace Path

namespace Lexer
variable {b : Bool} {rest : List Char}

/-- A literal is a token up to the first character that is no digit. -/
theorem takes_decimal (b : Bool) (d : Decimal) (hr : ∀ c ∈ rest.head?, isDigit c = false) :
    Takes b (d.chars ++ rest) (.number d.text) rest := by
  obtain ⟨negative, digits, hne, hdigits⟩ := d
  have hall := List.all_eq_true.1 hdigits
  obtain ⟨c, cs, rfl⟩ := List.exists_cons_of_ne_nil hne
  have hc := hall c (by simp)
  cases negative with
  | false => exact takes_number b hdigits hr
  | true =>
    have hnumber := number_ends hall hr ['-'] (Mark.advance {} '-')
    have hk : kindAt b '-' ⟨{}, '-' :: (c :: cs ++ rest), .complete⟩ =
        if isDigit c then number ['-'] ⟨Mark.advance {} '-', c :: cs ++ rest, .complete⟩
        else .error (.unexpectedChar '-' {}) := rfl
    rw [hc, if_pos rfl, hnumber] at hk
    exact takes_cons (by decide) hk

theorem takes_openBracket (b : Bool) (hr : ∀ c ∈ rest.head?, isBlank c = false ∧ c ≠ ']') :
    Takes b ('[' :: rest) .openBracket rest := by
  have hrest := takeWhile_stops fun c hc => (hr c hc).1
  have hhead : rest.head? ≠ some ']' := fun h => (hr ']' h).2 rfl
  have hk : kindAt b '[' ⟨{}, '[' :: rest, .complete⟩ = bracket ⟨Mark.advance {} '[', rest, .complete⟩ := rfl
  simp only [bracket, Cursor.skipBlanks_complete, Cursor.peek_complete, Outcome.bind_ok, hrest, hhead, ↓reduceIte] at hk
  exact takes_cons (by decide) hk

end Lexer

theorem forall_head {p : Char → Prop} {c : Char} {cs : List Char} (h : p c) : ∀ d ∈ (c :: cs).head?, p d := by
  intro d hd
  obtain rfl : c = d := by simpa using hd
  exact h

def literalChars (d : Option Decimal) : List Char := (d.map Decimal.chars).getD []

/-- A literal does not close a bracket. -/
theorem start_of_decimal (d : Decimal) (cs : List Char) : ∀ c ∈ (d.chars ++ cs).head?, isBlank c = false ∧ c ≠ ']' := by
  obtain ⟨c, tail, hchars, hc⟩ := d.chars_cons
  rw [hchars]
  exact forall_head hc

theorem start_of_literal (d : Option Decimal) {cs : List Char} (h : ∀ c ∈ cs.head?, isBlank c = false ∧ c ≠ ']') :
    ∀ c ∈ (literalChars d ++ cs).head?, isBlank c = false ∧ c ≠ ']' := by
  cases d with
  | none => exact h
  | some d => exact start_of_decimal d cs

def literalTokens (d : Option Decimal) (n : Nat) : List Token :=
  (d.map fun d => ⟨.number d.text, ⟨.inLine n, .inLine (n + d.chars.length)⟩⟩).toList

def AdjoiningAlways (n : Nat) (cs : List Char) (ts : List Token) : Prop := ∀ b, Adjoining b (.inLine n) cs ts

section
variable {n : Nat} {cs : List Char} {ts : List Token}

theorem AdjoiningAlways.char {c : Char} {k : TokenKind} (hb : isBlank c = false) (hc : Narrow c)
    (ht : ∀ b, Lexer.Takes b (c :: cs) k cs) (h : AdjoiningAlways (n + 1) cs ts) :
    AdjoiningAlways n (c :: cs) (⟨k, ⟨.inLine n, .inLine (n + 1)⟩⟩ :: ts) := by
  intro b
  have hmark := @Mark.advanceAll_inLine [c] (List.forall_mem_singleton.2 hc) n
  have htoken := @Adjoining.token b (.inLine n) c [] cs k ts hb (ht b) (hmark ▸ h _)
  rw [hmark] at htoken
  exact htoken

theorem AdjoiningAlways.colon (h : AdjoiningAlways (n + 1) cs ts) :
    AdjoiningAlways n (':' :: cs) (⟨.colon, ⟨.inLine n, .inLine (n + 1)⟩⟩ :: ts) :=
  h.char (by decide) ⟨by decide, by decide⟩ fun _ => Lexer.takes_single (by decide) rfl cs

theorem AdjoiningAlways.closeBracket (h : AdjoiningAlways (n + 1) cs ts) :
    AdjoiningAlways n (']' :: cs) (⟨.closeBracket, ⟨.inLine n, .inLine (n + 1)⟩⟩ :: ts) :=
  h.char (by decide) ⟨by decide, by decide⟩ fun _ => Lexer.takes_single (by decide) rfl cs

theorem AdjoiningAlways.openBracket (hr : ∀ c ∈ cs.head?, isBlank c = false ∧ c ≠ ']') (h : AdjoiningAlways (n + 1) cs ts) :
    AdjoiningAlways n ('[' :: cs) (⟨.openBracket, ⟨.inLine n, .inLine (n + 1)⟩⟩ :: ts) :=
  h.char (by decide) ⟨by decide, by decide⟩ fun b => Lexer.takes_openBracket b hr

theorem AdjoiningAlways.decimal (d : Decimal) (hr : ∀ c ∈ cs.head?, isDigit c = false)
    (h : AdjoiningAlways (n + d.chars.length) cs ts) :
    AdjoiningAlways n (d.chars ++ cs) (⟨.number d.text, ⟨.inLine n, .inLine (n + d.chars.length)⟩⟩ :: ts) := by
  intro b
  have hmark := Mark.advanceAll_inLine d.narrow_chars n
  have htakes := Lexer.takes_decimal b d hr
  obtain ⟨c, tail, hchars, hc, -⟩ := d.chars_cons
  rw [hchars] at hmark htakes ⊢
  have htoken := @Adjoining.token b (.inLine n) c tail cs _ ts hc htakes (hmark ▸ hchars ▸ h _)
  rw [hmark] at htoken
  exact htoken

theorem AdjoiningAlways.literal (d : Option Decimal) (hr : ∀ c ∈ cs.head?, isDigit c = false)
    (h : AdjoiningAlways (n + (literalChars d).length) cs ts) :
    AdjoiningAlways n (literalChars d ++ cs) (literalTokens d n ++ ts) := by
  cases d with
  | none => exact h
  | some d => exact .decimal d hr h

end

def written (places : List (Option Decimal × Nat)) : List (Decimal × Nat) :=
  places.filterMap fun p => p.1.map fun d => (d, p.2)

theorem integer_text (d : Decimal) (m : Mark) : Symbol.integer d.text m =
    if d.Fits then .ok d.toInt64 else .error (.numberOutOfRange d.text m) := by
  rw [Symbol.integer, Decimal.text, String.toList_ofList, d.int64_chars, d.fit_value]
  by_cases hf : d.Fits
  · simp only [hf, ↓reduceIte]
  · simp only [hf, ↓reduceIte]

theorem field_literal (d : Decimal) (n : Nat) : Symbol.field (literalTokens (some d) n) =
    if d.Fits then .ok (some (d.toInt64, .inLine n)) else .error (.numberOutOfRange d.text (.inLine n)) := by
  show (Symbol.integer d.text (.inLine n)).map (fun k => some (k, Mark.inLine n)) = _
  rw [integer_text]
  split
  · rfl
  · rfl

section
variable {places : List (Option Decimal × Nat)}

theorem mapM_field_error {d : Decimal} {n : Nat} (h : (written places).find? (fun p => ¬p.1.Fits) = some (d, n)) :
    (places.map fun p => literalTokens p.1 p.2).mapM Symbol.field = .error (.numberOutOfRange d.text (.inLine n)) := by
  induction places with
  | nil => simp [written] at h
  | cons p places ih =>
    obtain ⟨_ | d', n'⟩ := p
    · rw [List.map_cons, List.mapM_cons, ih h]
      rfl
    · by_cases hf : d'.Fits
      · have htail : (written places).find? (fun p => ¬p.1.Fits) = some (d, n) := by
          simpa [written, hf] using h
        rw [List.map_cons, List.mapM_cons, field_literal, if_pos hf, ih htail]
        rfl
      · obtain ⟨rfl, rfl⟩ : d' = d ∧ n' = n := by simpa [written, hf] using h
        rw [List.map_cons, List.mapM_cons, field_literal, if_neg hf]
        rfl

theorem mapM_field_ok (h : ∀ p ∈ written places, p.1.Fits) :
    (places.map fun p => literalTokens p.1 p.2).mapM Symbol.field =
      .ok (places.map fun p => p.1.map fun d => (d.toInt64, .inLine p.2)) := by
  induction places with
  | nil => rfl
  | cons p places ih =>
    obtain ⟨_ | d, n⟩ := p
    · rw [List.map_cons, List.mapM_cons, ih h]
      rfl
    · have hf : d.Fits := h (d, n) (by simp [written])
      have htail : ∀ p ∈ written places, p.1.Fits := fun p hp => h p (by simp [written] at hp ⊢; simp [hp])
      rw [List.map_cons, List.mapM_cons, field_literal, if_pos hf, ih htail]
      rfl

end

section
variable (start stop stride : Option Decimal)

def sliceText : String :=
  "[" ++ String.ofList (literalChars start) ++ ":" ++ String.ofList (literalChars stop) ++ ":" ++
    String.ofList (literalChars stride) ++ "]"

def stopPlace : Nat := 1 + (literalChars start).length + 1

def stridePlace : Nat := stopPlace start + (literalChars stop).length + 1

def closePlace : Nat := stridePlace start stop + (literalChars stride).length

def slicePlaces : List (Option Decimal × Nat) := [(start, 1), (stop, stopPlace start), (stride, stridePlace start stop)]

def colonBefore (n : Nat) : Token := ⟨.colon, ⟨.inLine (n - 1), .inLine n⟩⟩

def sliceTokens : List Token :=
  literalTokens start 1 ++ colonBefore (stopPlace start) ::
    (literalTokens stop (stopPlace start) ++ colonBefore (stridePlace start stop) ::
      literalTokens stride (stridePlace start stop))

theorem toList_sliceText : (sliceText start stop stride).toList =
    '[' :: (literalChars start ++ ':' :: (literalChars stop ++ ':' :: (literalChars stride ++ [']']))) := by
  simp [sliceText]

theorem adjoining_slice : AdjoiningAlways 0 (sliceText start stop stride).toList
    (⟨.openBracket, ⟨.inLine 0, .inLine 1⟩⟩ :: (sliceTokens start stop stride ++
      [⟨.closeBracket, ⟨.inLine (closePlace start stop stride), .inLine (closePlace start stop stride + 1)⟩⟩,
        ⟨.finish, ⟨.inLine (closePlace start stop stride + 1), .inLine (closePlace start stop stride + 1)⟩⟩])) := by
  have hfinish : AdjoiningAlways (closePlace start stop stride + 1) [] _ := fun _ => .finish
  have hstride := AdjoiningAlways.literal (n := stridePlace start stop) stride (forall_head (by decide)) hfinish.closeBracket
  have hstop := AdjoiningAlways.literal (n := stopPlace start) stop (forall_head (by decide)) hstride.colon
  have hstart := AdjoiningAlways.literal (n := 1) start (forall_head (by decide)) hstop.colon
  have htokens := hstart.openBracket (start_of_literal start (forall_head (c := ':') ⟨by decide, by decide⟩))
  rw [toList_sliceText, sliceTokens, List.append_assoc, List.cons_append, List.append_assoc, List.cons_append]
  exact htokens

theorem bracketed_sliceTokens : ∀ k ∈ (sliceTokens start stop stride).map (·.kind), Bracketed k := by
  have hcolon : Bracketed .colon := .inl rfl
  have hliteral : ∀ (d : Option Decimal) (n : Nat), ∀ k ∈ (literalTokens d n).map (·.kind), Bracketed k := by
    intro d n
    cases d with
    | none => simp [literalTokens]
    | some d => exact List.forall_mem_singleton.2 (.inr (.inr ⟨d.text, rfl⟩))
  simp only [sliceTokens, List.map_append, List.map_cons, List.forall_mem_append, List.forall_mem_cons]
  exact ⟨hliteral start _, hcolon, hliteral stop _, hcolon, hliteral stride _⟩

theorem fields_sliceTokens : Symbol.fields [] [] (sliceTokens start stop stride) =
    .ok ((slicePlaces start stop stride).map fun p => literalTokens p.1 p.2) := by
  rcases start with _ | start <;> rcases stop with _ | stop <;> rcases stride with _ | stride <;> rfl

variable {start stop stride} (span : Span)

theorem slice_error {d : Decimal} {n : Nat}
    (h : (written (slicePlaces start stop stride)).find? (fun p => ¬p.1.Fits) = some (d, n)) :
    Symbol.slice (sliceTokens start stop stride) span = .error (.numberOutOfRange d.text (.inLine n)) := by
  rw [Symbol.slice, fields_sliceTokens, Outcome.bind_ok, mapM_field_error h]
  rfl

theorem slice_ok (h : ∀ p ∈ written (slicePlaces start stop stride), p.1.Fits) :
    Symbol.slice (sliceTokens start stop stride) span =
      if stride.map Decimal.value = some 0 then .error (.zeroStride (.inLine (stridePlace start stop)))
      else .ok (.step (.slice ⟨start.map Decimal.toInt64, stop.map Decimal.toInt64,
        (stride.map Decimal.toInt64).getD 1⟩) span) := by
  have hbound : ∀ (d : Option Decimal) (m : Mark),
      (d.map fun d => (d.toInt64, m)).map (·.1) = d.map Decimal.toInt64 := fun d m => Option.map_map _ _ d
  rw [Symbol.slice, fields_sliceTokens, Outcome.bind_ok, mapM_field_ok h, Outcome.bind_ok]
  cases stride with
  | none =>
    simp [slicePlaces, hbound, pure, Except.pure]
  | some d =>
    have hd : d.Fits := h (d, stridePlace start stop) (by simp [written, slicePlaces])
    by_cases hz : d.value = 0
    · simp [slicePlaces, Decimal.toInt64_eq_zero hd, hz, throw, throwThe, MonadExceptOf.throw, Functor.map, Except.map]
    · simp [slicePlaces, hbound, Decimal.toInt64_eq_zero hd, hz, pure, Except.pure]

end

theorem parse_consStep (r : Except ParseError Expr) (m : Mark) : (Sentence.consStep r ⟨[], .ok m⟩).parse = r := by
  cases r with
  | error e => rfl
  | ok e => rfl

theorem parse_bracket (items : List Token) (hi : ∀ k ∈ items.map (·.kind), Bracketed k) (n : Nat) (sp : Span) :
    (Sentence.ofTokens none none (⟨.openBracket, ⟨.inLine 0, .inLine 1⟩⟩ :: (items ++
        [⟨.closeBracket, ⟨.inLine n, .inLine (n + 1)⟩⟩, ⟨.finish, sp⟩]))).parse =
      Symbol.bracket items (.inLine n) ⟨.inLine 0, .inLine (n + 1)⟩ := by
  rw [Sentence.ofTokens_openBracket _ rfl, Sentence.ofTokens_bracket hi rfl]
  exact parse_consStep _ sp.start

theorem bracket_sliceTokens (start stop stride : Option Decimal) (close : Mark) (span : Span) :
    Symbol.bracket (sliceTokens start stop stride) close span = Symbol.slice (sliceTokens start stop stride) span := by
  have hcolon : (sliceTokens start stop stride).any (·.kind = .colon) = true := by simp [sliceTokens, colonBefore]
  rw [Symbol.bracket, hcolon]
  rfl

theorem ofText_sliceText (start stop stride : Option Decimal) :
    Parsed.ofText (sliceText start stop stride) =
      (Symbol.slice (sliceTokens start stop stride) ⟨.inLine 0, .inLine (closePlace start stop stride + 1)⟩).map
        fun e => ⟨e, sliceText start stop stride⟩ := by
  rw [Parsed.ofText_adjoining (adjoining_slice start stop stride false), parse_bracket _ (bracketed_sliceTokens start stop stride),
    bracket_sliceTokens]

/-- A literal alone is an index. -/
theorem ofText_decimal (d : Decimal) : Parsed.ofText d.text =
    if d.Fits then .ok ⟨.step (.index d.toInt64) ⟨.inLine 0, .inLine d.chars.length⟩, d.text⟩
    else .error (.numberOutOfRange d.text (.inLine 0)) := by
  have hfinish : AdjoiningAlways (0 + d.chars.length) [] _ := fun _ => .finish
  have htokens := AdjoiningAlways.decimal d (by simp) hfinish
  have hlist : d.text.toList = d.chars ++ [] := by rw [Decimal.text, String.toList_ofList, List.append_nil]
  rw [← hlist, Nat.zero_add] at htokens
  rw [Parsed.ofText_adjoining (htokens false), Sentence.ofTokens_number rfl (by simp [Sentence.EndsNumber])]
  have hparse := parse_consStep ((Symbol.integer d.text (.inLine 0)).map fun n =>
    .step (.index n) ⟨.inLine 0, .inLine d.chars.length⟩) (.inLine d.chars.length)
  refine (congrArg (Except.map _) hparse).trans ?_
  rw [integer_text]
  by_cases hf : d.Fits
  · simp only [hf, ↓reduceIte]
    rfl
  · simp only [hf, ↓reduceIte]
    rfl

theorem bracket_number (text : String) (sp span : Span) (close : Mark) :
    Symbol.bracket [⟨.number text, sp⟩] close span = (Symbol.integer text sp.start).map fun i => .step (.index i) span := by
  rw [Symbol.bracket, if_neg (by simp)]
  simp only [Symbol.indices, ↓reduceIte]
  cases Symbol.integer text sp.start with
  | error e => rfl
  | ok i => rfl

/-- A literal in brackets is an index. -/
theorem ofText_bracketed (d : Decimal) : Parsed.ofText ("[" ++ d.text ++ "]") =
    if d.Fits then .ok ⟨.step (.index d.toInt64) ⟨.inLine 0, .inLine (1 + d.chars.length + 1)⟩, "[" ++ d.text ++ "]"⟩
    else .error (.numberOutOfRange d.text (.inLine 1)) := by
  have hfinish : AdjoiningAlways (1 + d.chars.length + 1) [] _ := fun _ => .finish
  have hliteral := AdjoiningAlways.decimal d (forall_head (by decide)) hfinish.closeBracket
  have htokens := hliteral.openBracket (start_of_decimal d _)
  have hlist : ("[" ++ d.text ++ "]").toList = '[' :: (d.chars ++ [']']) := by simp [Decimal.text]
  rw [← hlist] at htokens
  have hparse := parse_bracket [⟨.number d.text, ⟨.inLine 1, .inLine (1 + d.chars.length)⟩⟩]
    (List.forall_mem_singleton.2 (.inr (.inr ⟨d.text, rfl⟩))) (1 + d.chars.length)
    ⟨.inLine (1 + d.chars.length + 1), .inLine (1 + d.chars.length + 1)⟩
  rw [bracket_number, integer_text] at hparse
  rw [Parsed.ofText_adjoining (htokens false)]
  refine (congrArg (Except.map _) hparse).trans ?_
  by_cases hf : d.Fits
  · simp only [hf, ↓reduceIte]
    rfl
  · simp only [hf, ↓reduceIte]
    rfl

theorem bracket_display (s : Slice) :
    "[" ++ s.display ++ "]" = sliceText (s.start.map Decimal.ofInt64) (s.stop.map Decimal.ofInt64) (some (Decimal.ofInt64 s.stride)) := by
  have htext : ∀ n : Int64, String.ofList (Decimal.ofInt64 n).chars = toString n.toInt := fun n => Decimal.text_ofInt n.toInt
  have hbound : ∀ b : Option Int64, String.ofList (literalChars (b.map Decimal.ofInt64)) = Slice.boundText b := by
    intro b
    cases b with
    | none => rfl
    | some n => exact htext n
  have hstride : String.ofList (literalChars (some (Decimal.ofInt64 s.stride))) = toString s.stride.toInt := htext s.stride
  rw [sliceText, hbound, hbound, hstride, Slice.display]
  simp only [String.append_assoc]

theorem fits_written (s : Slice) : ∀ p ∈ written
    (slicePlaces (s.start.map Decimal.ofInt64) (s.stop.map Decimal.ofInt64) (some (Decimal.ofInt64 s.stride))), p.1.Fits := by
  intro p hp
  obtain ⟨⟨d, n⟩, hplace, hd⟩ := List.mem_filterMap.1 hp
  obtain ⟨d, rfl, rfl⟩ := Option.map_eq_some_iff.1 hd
  have hprinted : ∃ k : Int64, d = Decimal.ofInt64 k := by
    simp only [slicePlaces, List.mem_cons, Prod.mk.injEq, List.not_mem_nil, or_false] at hplace
    rcases hplace with ⟨h, -⟩ | ⟨h, -⟩ | ⟨h, -⟩
    · obtain ⟨k, -, hk⟩ := Option.map_eq_some_iff.1 h.symm
      exact ⟨k, hk.symm⟩
    · obtain ⟨k, -, hk⟩ := Option.map_eq_some_iff.1 h.symm
      exact ⟨k, hk.symm⟩
    · exact ⟨s.stride, Option.some.inj h⟩
  obtain ⟨k, rfl⟩ := hprinted
  exact Decimal.fits_ofInt64 k

/-- A slice is the step that its literals spell, if they fit and the stride is not zero. -/
theorem ofText_slice_ok {start stop stride : Option Decimal} (h : ∀ p ∈ written (slicePlaces start stop stride), p.1.Fits)
    (hz : stride.map Decimal.value ≠ some 0) : ∃ span, Parsed.ofText (sliceText start stop stride) =
      .ok ⟨.step (.slice ⟨start.map Decimal.toInt64, stop.map Decimal.toInt64, (stride.map Decimal.toInt64).getD 1⟩) span,
        sliceText start stop stride⟩ := by
  rw [ofText_sliceText, slice_ok _ h, if_neg hz]
  exact ⟨_, rfl⟩

/-- Numbers parse back. A slice with a stride that is not zero, printed between brackets, is the step of that slice, and a
number, alone or between brackets, the step of that index. Of the literals of any slice, and of any literal that is an index,
the first that does not fit 64 bits is reported at its place; if all fit, a stride of zero is, and else they parse. -/
theorem ofText_printed :
    (∀ s : Slice, s.stride ≠ 0 → ∃ span, Parsed.ofText ("[" ++ s.display ++ "]") = .ok ⟨.step (.slice s) span, "[" ++ s.display ++ "]"⟩) ∧
    (∀ i : Int64, (∃ span, Parsed.ofText (toString i.toInt) = .ok ⟨.step (.index i) span, toString i.toInt⟩) ∧
      ∃ span, Parsed.ofText ("[" ++ toString i.toInt ++ "]") = .ok ⟨.step (.index i) span, "[" ++ toString i.toInt ++ "]"⟩) ∧
    (∀ start stop stride : Option Decimal,
      (∀ d n, (written (slicePlaces start stop stride)).find? (fun p => ¬p.1.Fits) = some (d, n) →
        Parsed.ofText (sliceText start stop stride) = .error (.numberOutOfRange d.text (.inLine n))) ∧
      ((∀ p ∈ written (slicePlaces start stop stride), p.1.Fits) →
        (stride.map Decimal.value = some 0 →
          Parsed.ofText (sliceText start stop stride) = .error (.zeroStride (.inLine (stridePlace start stop)))) ∧
        (stride.map Decimal.value ≠ some 0 → ∃ span, Parsed.ofText (sliceText start stop stride) =
          .ok ⟨.step (.slice ⟨start.map Decimal.toInt64, stop.map Decimal.toInt64, (stride.map Decimal.toInt64).getD 1⟩) span,
            sliceText start stop stride⟩))) ∧
    ∀ d : Decimal,
      (d.Fits → (∃ span, Parsed.ofText d.text = .ok ⟨.step (.index d.toInt64) span, d.text⟩) ∧
        ∃ span, Parsed.ofText ("[" ++ d.text ++ "]") = .ok ⟨.step (.index d.toInt64) span, "[" ++ d.text ++ "]"⟩) ∧
      (¬d.Fits → Parsed.ofText d.text = .error (.numberOutOfRange d.text (.inLine 0)) ∧
        Parsed.ofText ("[" ++ d.text ++ "]") = .error (.numberOutOfRange d.text (.inLine 1))) := by
  have hprinted : ∀ b : Option Int64, (b.map Decimal.ofInt64).map Decimal.toInt64 = b := by
    intro b
    cases b with
    | none => rfl
    | some n => exact congrArg some (Decimal.toInt64_ofInt64 n)
  have hindex : ∀ d : Decimal, d.Fits →
      (∃ span, Parsed.ofText d.text = .ok ⟨.step (.index d.toInt64) span, d.text⟩) ∧
        ∃ span, Parsed.ofText ("[" ++ d.text ++ "]") = .ok ⟨.step (.index d.toInt64) span, "[" ++ d.text ++ "]"⟩ := by
    intro d hd
    rw [ofText_decimal, ofText_bracketed, if_pos hd, if_pos hd]
    exact ⟨⟨_, rfl⟩, ⟨_, rfl⟩⟩
  refine ⟨?_, ?_, ?_, ?_⟩
  · intro s hs
    have hz : (some (Decimal.ofInt64 s.stride)).map Decimal.value ≠ some 0 := by
      intro h
      have hval : (Decimal.ofInt64 s.stride).value = 0 := Option.some.inj h
      rw [← Decimal.toInt64_eq_zero (Decimal.fits_ofInt64 _), Decimal.toInt64_ofInt64] at hval
      exact hs hval
    obtain ⟨span, hspan⟩ := ofText_slice_ok (fits_written s) hz
    rw [hprinted, hprinted, Option.map_some, Option.getD_some, Decimal.toInt64_ofInt64] at hspan
    rw [bracket_display]
    exact ⟨span, hspan⟩
  · intro i
    have h := hindex (Decimal.ofInt64 i) (Decimal.fits_ofInt64 i)
    rw [Decimal.toInt64_ofInt64, Decimal.ofInt64, Decimal.text_ofInt] at h
    exact h
  · intro start stop stride
    refine ⟨?_, fun h => ⟨?_, ofText_slice_ok h⟩⟩
    · intro d n hd
      rw [ofText_sliceText, slice_error _ hd]
      rfl
    · intro hz
      rw [ofText_sliceText, slice_ok _ h, if_pos hz]
      rfl
  · intro d
    refine ⟨hindex d, ?_⟩
    intro hd
    rw [ofText_decimal, ofText_bracketed, if_neg hd, if_neg hd]
    exact ⟨rfl, rfl⟩

/-- The least number, a number in front of one that is too large, and a zero with a sign as a stride. -/
theorem ofText_printed_extremes :
    (∃ span, Parsed.ofText "[-9223372036854775808::-1]" =
      .ok ⟨.step (.slice ⟨some Int64.minValue, none, -1⟩) span, "[-9223372036854775808::-1]"⟩) ∧
    Parsed.ofText "[007:9223372036854775808:-0]" = .error (.numberOutOfRange "9223372036854775808" (.inLine 5)) ∧
    Parsed.ofText "[007::-0]" = .error (.zeroStride (.inLine 6)) ∧
    Parsed.ofText "-9223372036854775809" = .error (.numberOutOfRange "-9223372036854775809" (.inLine 0)) := by
  obtain ⟨hslice, -, hliterals, hindex⟩ := ofText_printed
  let seven : Decimal := ⟨false, "007".toList, by decide, by decide⟩
  let large : Decimal := ⟨false, "9223372036854775808".toList, by decide, by decide⟩
  let zero : Decimal := ⟨true, "0".toList, by decide, by decide⟩
  let small : Decimal := ⟨true, "9223372036854775809".toList, by decide, by decide⟩
  have hseven : seven.Fits := by decide +kernel
  have hlarge : ¬large.Fits := by decide +kernel
  have hfirst : (written (slicePlaces (some seven) (some large) (some zero))).find? (fun p => ¬p.1.Fits) = some (large, 5) :=
    (List.find?_cons_of_neg (by simp [hseven])).trans (List.find?_cons_of_pos (by simp [hlarge]))
  have hfits : ∀ p ∈ written (slicePlaces (some seven) none (some zero)), p.1.Fits :=
    List.forall_mem_cons.2 ⟨hseven, List.forall_mem_singleton.2 (by decide +kernel)⟩
  refine ⟨hslice ⟨some Int64.minValue, none, -1⟩ (by decide), ?_, ?_, ?_⟩
  · exact (hliterals (some seven) (some large) (some zero)).1 large 5 hfirst
  · exact ((hliterals (some seven) none (some zero)).2 hfits).1 (by decide +kernel)
  · exact ((hindex small).2 (by decide +kernel)).1

end Path
end YamlQuery
