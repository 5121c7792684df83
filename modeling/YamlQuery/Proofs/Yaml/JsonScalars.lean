import YamlQuery.Proofs.Value.JsonText
import YamlQuery.Proofs.Yaml.Scanning
/-!
The scalars of JSON text as YAML reads them: a quoted text is a double-quoted scalar with the text that was quoted, a word is
a plain scalar with itself as text.
-/
namespace YamlQuery.Yaml
open Outcome JsonValue

theorem Scanner.moved_self {s : Scanner} (h : s.leading = false) : s.moved s.rest s.place = s := by
  rw [Scanner.moved, ← h]

theorem push_append (text : String) (c : Char) (cs : List Char) :
    text.push c ++ String.ofList cs = text ++ String.ofList (c :: cs) := by
  rw [← String.toList_inj]
  simp

namespace Scan
variable {s : Scanner} {c : Char} {cs rest : List Char}

theorem skipSpace_apply (hr : s.rest = c :: cs) (hlead : s.leading = false) :
    skipSpace s = .ok ((), s.moved cs s.place.next) := by
  simp only [skipSpace, modify_apply, hr, List.tail_cons, hlead]
  rfl

theorem skipMany_apply (as : List Char) {bs : List Char} (hr : s.rest = as ++ bs) (hlead : s.leading = false) (hcol : 0 < s.place.column) :
    ∃ place : Place, 0 < place.column ∧ skipMany as.length s = .ok ((), s.moved bs place) := by
  induction as generalizing s with
  | nil =>
    refine ⟨s.place, hcol, ?_⟩
    rw [List.nil_append] at hr
    rw [← hr, Scanner.moved_self hlead]
    rfl
  | cons a as ih =>
    obtain ⟨place, hplace, hskip⟩ := ih (s := s.moved (as ++ bs) s.place.next) rfl rfl (Nat.succ_pos _)
    refine ⟨place, hplace, ?_⟩
    rw [List.length_cons, skipMany, bind_apply, skip_apply hr, bind_ok]
    exact hskip

theorem quotedEscape_apply {body : List Char} (hb : Escape.Body c body) (hr : s.rest = '\\' :: (body ++ rest))
    (hlead : s.leading = false) (hcol : 0 < s.place.column) :
    ∃ place : Place, 0 < place.column ∧ quotedEscape s = .ok (c, s.moved rest place) := by
  obtain ⟨place, hplace, hskip⟩ := skipMany_apply ('\\' :: body) hr hlead hcol
  refine ⟨place, hplace, ?_⟩
  rw [List.length_cons] at hskip
  simp only [quotedEscape, bind_apply, get_apply, bind_ok, hr, hb.decodes rest, hskip]
  rfl

/-- A character that is written as itself is no tab and no line break. -/
theorem isSpaceOrBreak_of_printable (h : 32 ≤ c.toNat) (hs : c ≠ ' ') : isSpaceOrBreak c = false := by
  have hne : ∀ d : Char, d.toNat < 32 → c ≠ d := by
    rintro d hd rfl
    omega
  have h1 := hne '\t' (by decide)
  have h2 := hne '\n' (by decide)
  have h3 := hne '\r' (by decide)
  simp [isSpaceOrBreak, isSpace, isBreak, hs, h1, h2, h3]

theorem isBreak_of_printable (h : 32 ≤ c.toNat) : isBreak c = false := by
  by_cases hs : c = ' '
  · subst hs
    rfl
  · have := isSpaceOrBreak_of_printable h hs
    simp only [isSpaceOrBreak, Bool.or_eq_false_iff] at this
    exact this.2

theorem quotedWord_stops {n : Nat} {text : String} (hr : s.rest = c :: cs) (hc : c = '"' ∨ c = ' ') :
    quotedWord false (n + 1) text s = .ok ((text, false), s) := by
  simp only [quotedWord, bind_apply, get_apply, bind_ok, hr]
  rcases hc with rfl | rfl <;> rfl

theorem quotedWord_char {n : Nat} {text : String} (hr : s.rest = c :: cs) (hc : 32 ≤ c.toNat)
    (hne : c ≠ ' ' ∧ c ≠ '"' ∧ c ≠ '\\') :
    quotedWord false (n + 1) text s = quotedWord false n (text.push c) (s.moved cs s.place.next) := by
  obtain ⟨hspace, hq, hb⟩ := hne
  have hbreak := isSpaceOrBreak_of_printable hc hspace
  simp only [quotedWord, bind_apply, get_apply, bind_ok, hr, hbreak, Bool.false_eq_true, ↓reduceIte, beq_iff_eq, hq, hb,
    skip_apply hr]

theorem quotedWord_escape {n : Nat} {text : String} {x : Char} {xs : List Char} (hr : s.rest = '\\' :: x :: xs)
    (hx : 32 ≤ x.toNat) :
    quotedWord false (n + 1) text s = quotedEscape s >>= fun p => quotedWord false n (text.push p.1) p.2 := by
  have hspace : isSpaceOrBreak '\\' = false := by decide
  have hquote : ('\\' == '"') = false := by decide
  simp only [quotedWord, bind_apply, get_apply, bind_ok, hr, hspace, hquote, Bool.false_eq_true, ↓reduceIte, beq_self_eq_true,
    isBreak_of_printable hx]

/-- A word inside quotes ends at the closing quote or at a space. -/
theorem quotedWord_apply {n : Nat} (text : String) (hr : s.rest = cs.flatMap escapeChar ++ '"' :: rest)
    (hn : s.rest.length ≤ n) (hlead : s.leading = false) (hcol : 0 < s.place.column) :
    ∃ ws ds place, cs = ws ++ ds ∧ (∀ d ∈ ds.head?, d = ' ') ∧ 0 < place.column ∧
      quotedWord false n text s = .ok ((text ++ String.ofList ws, false), s.moved (ds.flatMap escapeChar ++ '"' :: rest) place) := by
  have hstay : ∀ text : String, text ++ String.ofList [] = text := by simp
  have hpos : n ≠ 0 := by
    rintro rfl
    simp [hr] at hn
  induction cs generalizing s n text with
  | nil =>
    obtain ⟨n, rfl⟩ := Nat.exists_eq_succ_of_ne_zero hpos
    rw [List.flatMap_nil, List.nil_append] at hr
    refine ⟨[], [], s.place, rfl, by simp, hcol, ?_⟩
    rw [quotedWord_stops hr (.inl rfl), hstay, List.flatMap_nil, List.nil_append, ← hr, Scanner.moved_self hlead]
  | cons c cs ih =>
    obtain ⟨n, rfl⟩ := Nat.exists_eq_succ_of_ne_zero hpos
    by_cases hspace : c = ' '
    · subst hspace
      refine ⟨[], ' ' :: cs, s.place, rfl, by simp, hcol, ?_⟩
      rw [← hr, Scanner.moved_self hlead, hstay]
      exact quotedWord_stops hr (.inr rfl)
    · rw [List.flatMap_cons, List.append_assoc] at hr
      have hmore : ∀ place : Place, 0 < place.column → ∃ ws ds place', c :: cs = ws ++ ds ∧ (∀ d ∈ ds.head?, d = ' ') ∧
          0 < place'.column ∧ quotedWord false n (text.push c) (s.moved (cs.flatMap escapeChar ++ '"' :: rest) place) =
            .ok ((text ++ String.ofList ws, false), s.moved (ds.flatMap escapeChar ++ '"' :: rest) place') := by
        intro place hplace
        have hlen : (cs.flatMap escapeChar ++ '"' :: rest).length ≤ n := by
          have hne : 0 < (escapeChar c).length := escapeChar_length_pos c
          rw [hr, List.length_append] at hn
          omega
        have hn0 : n ≠ 0 := by
          rintro rfl
          simp at hlen
        obtain ⟨ws, ds, place', hcs, hds, hplace', h⟩ :=
          ih (s := s.moved (cs.flatMap escapeChar ++ '"' :: rest) place) (text.push c) rfl hlen rfl hplace hn0
        rw [push_append] at h
        exact ⟨c :: ws, ds, place', by rw [hcs, List.cons_append], hds, hplace', h⟩
      rcases escapeChar_cases c with ⟨he, hq, hb, hc⟩ | ⟨x, xs, he, hbody, hx, _⟩
      · rw [he, List.singleton_append] at hr
        rw [quotedWord_char hr hc ⟨hspace, hq, hb⟩]
        exact hmore s.place.next (Nat.succ_pos _)
      · rw [he] at hr
        obtain ⟨place, hplace, hescape⟩ := quotedEscape_apply hbody hr hlead hcol
        rw [quotedWord_escape hr hx, hescape, bind_ok]
        exact hmore place hplace

theorem quotedGap_stops {n : Nat} {g : Gap} (hr : s.rest = c :: cs) (hc : isSpaceOrBreak c = false) :
    quotedGap (n + 1) false g s = .ok ((false, g), s) := by
  simp only [isSpaceOrBreak, Bool.or_eq_false_iff] at hc
  simp only [quotedGap, bind_apply, peek_apply, bind_ok, hr, List.head?_cons, hc.1, hc.2, Bool.false_eq_true, ↓reduceIte,
    pure_apply]

/-- The spaces behind a word inside quotes. -/
theorem quotedGap_apply {n : Nat} {g : Gap} (hr : s.rest = cs.flatMap escapeChar ++ '"' :: rest) (hn : s.rest.length ≤ n)
    (hlead : s.leading = false) (hcol : 0 < s.place.column) :
    ∃ ws ds place, cs = ws ++ ds ∧ (cs.head? = some ' ' → ws ≠ []) ∧ 0 < place.column ∧
      quotedGap n false g s =
        .ok ((false, { g with spaces := g.spaces ++ String.ofList ws }), s.moved (ds.flatMap escapeChar ++ '"' :: rest) place) := by
  have hpos : n ≠ 0 := by
    rintro rfl
    simp [hr] at hn
  have hstay : ∀ text : String, text ++ String.ofList [] = text := by simp
  induction cs generalizing s n g with
  | nil =>
    obtain ⟨n, rfl⟩ := Nat.exists_eq_succ_of_ne_zero hpos
    refine ⟨[], [], s.place, rfl, by simp, hcol, ?_⟩
    rw [hstay, ← hr, Scanner.moved_self hlead]
    exact quotedGap_stops hr (by decide)
  | cons c cs ih =>
    obtain ⟨n, rfl⟩ := Nat.exists_eq_succ_of_ne_zero hpos
    by_cases hspace : c = ' '
    · subst hspace
      have hchar : escapeChar ' ' = [' '] := by decide
      rw [List.flatMap_cons, hchar, List.append_assoc, List.singleton_append] at hr
      have hlen : (cs.flatMap escapeChar ++ '"' :: rest).length ≤ n := by
        rw [hr, List.length_cons] at hn
        omega
      have hn0 : n ≠ 0 := by
        rintro rfl
        simp at hlen
      obtain ⟨ws, ds, place, hcs, _, hplace, h⟩ := ih (s := s.moved (cs.flatMap escapeChar ++ '"' :: rest) s.place.next)
        (g := { g with spaces := g.spaces.push ' ' }) rfl hlen rfl (Nat.succ_pos _) hn0
      refine ⟨' ' :: ws, ds, place, by rw [hcs, List.cons_append], fun _ => List.cons_ne_nil _ _, hplace, ?_⟩
      have hone : quotedGap (n + 1) false g s = quotedGap n false { g with spaces := g.spaces.push ' ' }
          (s.moved (cs.flatMap escapeChar ++ '"' :: rest) s.place.next) := by
        have hsp : isSpace ' ' = true := rfl
        simp only [quotedGap, bind_apply, peek_apply, bind_ok, hr, List.head?_cons, hsp, ↓reduceIte, Bool.false_eq_true,
          skipSpace_apply hr hlead]
      rw [hone, h]
      simp only [push_append]
      rfl
    · refine ⟨[], c :: cs, s.place, rfl, fun hc => absurd (by simpa using hc) hspace, hcol, ?_⟩
      rw [hstay, ← hr, Scanner.moved_self hlead]
      rw [List.flatMap_cons, List.append_assoc] at hr
      rcases escapeChar_cases c with ⟨he, _, _, hc⟩ | ⟨x, xs, he, _⟩
      · rw [he, List.singleton_append] at hr
        exact quotedGap_stops hr (isSpaceOrBreak_of_printable hc hspace)
      · rw [he] at hr
        exact quotedGap_stops hr (by decide)

/-- Words and spaces up to the closing quote. -/
theorem quotedText_apply {n : Nat} (text : String) (hr : s.rest = cs.flatMap escapeChar ++ '"' :: rest)
    (hf : s.rest.length ≤ s.fuel) (hn : cs.length < n) (hlead : s.leading = false) (hcol : 0 < s.place.column)
    (hind : s.indent = -1) :
    ∃ place : Place, 0 < place.column ∧ quotedText false n text s = .ok (text ++ String.ofList cs, s.moved ('"' :: rest) place) := by
  induction n generalizing s cs text with
  | zero => omega
  | succ n ih =>
    obtain ⟨ws, ds, place, hcs, hds, hplace, hword⟩ := quotedWord_apply text hr hf hlead hcol
    have hhead : s.rest.head?.isNone = false := by
      cases hrest : s.rest with
      | nil => simp [hr] at hrest
      | cons => rfl
    have hin : ¬((s.place.column : Int) < s.indent) := by
      rw [hind]
      omega
    have hstart : quotedText false (n + 1) text s = (do
        if (← peek) = some '"' then return text ++ String.ofList ws
        let found ← quotedGap (← get).fuel false {}
        quotedText false n (text ++ String.ofList ws ++ if found.1 then found.2.text else found.2.spaces) : Scan String)
          (s.moved (ds.flatMap escapeChar ++ '"' :: rest) place) := by
      simp only [quotedText, bind_apply, atDocumentMarker_apply hcol, bind_ok, Bool.false_eq_true, ↓reduceIte, peek_apply,
        hhead, outsideIndent_apply, hin, decide_false, get_apply, hword]
    rw [hstart]
    cases ds with
    | nil =>
      refine ⟨place, hplace, ?_⟩
      rw [hcs, List.append_nil]
      rfl
    | cons d ds =>
      obtain rfl : d = ' ' := hds d rfl
      have hlen : ((' ' :: ds).flatMap escapeChar ++ '"' :: rest).length ≤ s.fuel := by
        rw [hr, hcs, List.flatMap_append, List.append_assoc, List.length_append] at hf
        omega
      obtain ⟨spaces, es, place', hes, hne, hplace', hgap⟩ := quotedGap_apply
        (s := s.moved ((' ' :: ds).flatMap escapeChar ++ '"' :: rest) place) (g := {}) rfl hlen rfl hplace
      have hshort : es.length < n := by
        have hpos := List.length_pos_iff.2 (hne rfl)
        rw [hcs, hes, List.length_append, List.length_append] at hn
        omega
      have hfuel : (es.flatMap escapeChar ++ '"' :: rest).length ≤ s.fuel := by
        rw [hes, List.flatMap_append, List.append_assoc, List.length_append] at hlen
        omega
      obtain ⟨last, hlast, htext⟩ := ih (s := s.moved (es.flatMap escapeChar ++ '"' :: rest) place')
        (text ++ String.ofList ws ++ ("" ++ String.ofList spaces)) rfl hfuel hshort rfl hplace' hind
      refine ⟨last, hlast, ?_⟩
      have hquote : (s.moved ((' ' :: ds).flatMap escapeChar ++ '"' :: rest) place).rest.head? ≠ some '"' := by
        have hchar : escapeChar ' ' = [' '] := by decide
        simp [Scanner.moved, hchar]
      have hjoin : text ++ String.ofList cs = text ++ String.ofList ws ++ ("" ++ String.ofList spaces) ++ String.ofList es := by
        rw [← String.toList_inj, hcs, hes]
        simp
      simp only [bind_apply, peek_apply, bind_ok, hquote, ↓reduceIte, get_apply]
      have hfix : (s.moved ((' ' :: ds).flatMap escapeChar ++ '"' :: rest) place).fuel = s.fuel := rfl
      rw [hfix, hgap, bind_ok, hjoin]
      exact htext

def Ends (level : Nat) (rest : List Char) : Prop := ∀ c ∈ rest.head?, 0 < level ∧ (c = ',' ∨ c = ']' ∨ c = '\x7d')

theorem Ends.solid {level : Nat} (h : Ends level rest) : Solid rest := by
  intro c hc
  rcases (h c hc).2 with rfl | rfl | rfl <;> decide

theorem quotedScalar_apply {text : String} (hr : s.rest = (quote text).toList ++ rest)
    (hrest : Ends s.flowLevel rest ∨ (0 < s.flowLevel ∧ rest.head? = some ':')) (hi : s.indents = []) (hind : s.indent = -1)
    (hf : s.rest.length < s.fuel) :
    ∃ place : Place, 0 < place.column ∧ quotedScalar false s = .ok ((), Scanner.pushed (Scanner.moved { s with
        simpleKeys := s.savedKeys
        simpleKeyAllowed := false
        adjacentValueAt := place.index }
      rest place) s.place (.scalar .doubleQuoted text)) := by
  have hsolid : Solid rest := by
    rcases hrest with h | ⟨_, h⟩
    · exact h.solid
    · intro c hc
      obtain rfl : ':' = c := Option.some.inj (h.symm.trans hc)
      decide
  have hfollow : ∀ t : Scanner, t.flowLevel = s.flowLevel → mayFollowQuote s.place t rest.head? = true := by
    intro t ht
    cases hhead : rest.head? with
    | none => rfl
    | some c =>
      rcases hrest with h | ⟨hl, h⟩
      · obtain ⟨hl, hc⟩ := h c hhead
        rcases hc with rfl | rfl | rfl <;> simp [mayFollowQuote, ht, hl]
      · obtain rfl : ':' = c := Option.some.inj (h.symm.trans hhead)
        simp [mayFollowQuote, ht, hl]
  rw [toList_quote, List.cons_append, List.append_assoc, List.singleton_append] at hr
  rw [hr, List.length_cons, List.length_append, List.length_cons] at hf
  have hlen : (text.toList.flatMap escapeChar ++ '"' :: rest).length ≤ s.fuel := by
    rw [List.length_append, List.length_cons]
    omega
  have hshort : text.toList.length < s.fuel := by
    have := length_le_escaped text.toList
    omega
  let t : Scanner := { s with simpleKeys := s.savedKeys, simpleKeyAllowed := false }
  obtain ⟨place, hplace, htext⟩ := quotedText_apply
    (s := t.moved (text.toList.flatMap escapeChar ++ '"' :: rest) s.place.next) "" rfl hlen hshort rfl (Nat.succ_pos _) hind
  refine ⟨place.next, Nat.succ_pos _, ?_⟩
  simp only [quotedScalar, bind_apply, saveKey_apply hi, bind_ok, allowKey_apply, get_apply]
  rw [skip_apply (by exact hr), bind_ok]
  have hread : quotedText false s.fuel "" (t.moved (text.toList.flatMap escapeChar ++ '"' :: rest) s.place.next) =
      .ok (text, t.moved ('"' :: rest) place) := by
    rw [htext]
    simp [Scanner.moved]
  refine (congrArg (· >>= _) hread).trans ?_
  rw [bind_ok, skip_apply rfl, bind_ok, discard_apply, skipToLineEnd_solid (by exact hsolid), Except.map, bind_ok]
  have hmay := hfollow ((t.moved ('"' :: rest) place).moved rest place.next) rfl
  refine (congrFun (if_pos (by exact hmay)) _).trans ?_
  rw [bind_apply, skipSpaceAndComments_solid (by exact hsolid), bind_ok]
  rfl

theorem plainWord_stops {n : Nat} {flow : Bool} {text : String} (h : ∀ c ∈ s.rest.head?, flow = true ∧ isFlow c = true) :
    plainWord flow (n + 1) text s = .ok (text, s) := by
  simp only [plainWord, bind_apply, get_apply, bind_ok]
  cases hr : s.rest with
  | nil => rfl
  | cons c cs =>
    obtain ⟨rfl, hc⟩ := h c (by simp [hr])
    have hstop : continuesPlain true (c :: cs) = false := by simp [continuesPlain, hc]
    simp only [hstop, Bool.not_false, Bool.or_true, ↓reduceIte]
    rfl

theorem isFlow_of_isWordChar (h : isWordChar c = true) : isFlow c = false := by
  rw [Bool.eq_false_iff]
  intro hf
  simp only [isFlow, Bool.or_eq_true, beq_iff_eq] at hf
  rcases hf with (((rfl | rfl) | rfl) | rfl) | rfl <;> exact absurd h (by decide)

/-- Characters of words continue plain scalars. -/
theorem continuesPlain_word (h : isWordChar c = true) (flow : Bool) : continuesPlain flow (c :: cs) = true := by
  have hcolon : c ≠ ':' := by
    rintro rfl
    exact absurd h (by decide)
  simp [continuesPlain, hcolon, isFlow_of_isWordChar h]

theorem isSpaceOrBreak_of_isWordChar (h : isWordChar c = true) : isSpaceOrBreak c = false := by
  have hne : c ≠ ' ' := by
    rintro rfl
    exact absurd h (by decide)
  exact isSpaceOrBreak_of_printable (Nat.le_of_lt (isWordChar_bounds h).1) hne

theorem plainWord_char {n : Nat} {flow : Bool} {text : String} (hr : s.rest = c :: cs) (hc : isWordChar c = true) :
    plainWord flow (n + 1) text s = plainWord flow n (text.push c) (s.moved cs s.place.next) := by
  simp only [plainWord, bind_apply, get_apply, bind_ok, hr, isSpaceOrBreak_of_isWordChar hc, continuesPlain_word hc,
    Bool.not_true, Bool.or_self, Bool.false_eq_true, ↓reduceIte, skip_apply hr]

theorem plainWord_apply {ws : List Char} {n : Nat} {flow : Bool} (text : String) (hr : s.rest = ws ++ rest)
    (hw : ws.all isWordChar = true) (hrest : ∀ c ∈ rest.head?, flow = true ∧ isFlow c = true) (hn : ws.length < n)
    (hlead : s.leading = false) (hcol : 0 < s.place.column) :
    ∃ place : Place, 0 < place.column ∧ plainWord flow n text s = .ok (text ++ String.ofList ws, s.moved rest place) := by
  induction ws generalizing s n text with
  | nil =>
    obtain ⟨n, rfl⟩ := Nat.exists_eq_succ_of_ne_zero (Nat.ne_of_gt hn)
    rw [List.nil_append] at hr
    refine ⟨s.place, hcol, ?_⟩
    rw [plainWord_stops (hr ▸ hrest), ← hr, Scanner.moved_self hlead]
    simp
  | cons c ws ih =>
    obtain ⟨n, rfl⟩ := Nat.exists_eq_succ_of_ne_zero (Nat.ne_of_gt (Nat.zero_lt_of_lt hn))
    obtain ⟨hc, hws⟩ := Bool.and_eq_true_iff.1 hw
    obtain ⟨place, hplace, h⟩ := ih (s := s.moved (ws ++ rest) s.place.next) (text.push c) rfl hws
      (Nat.lt_of_succ_lt_succ hn) rfl (Nat.succ_pos _)
    refine ⟨place, hplace, ?_⟩
    rw [List.cons_append] at hr
    rw [plainWord_char hr hc, h, push_append]
    rfl

/-- A word is no document marker, and does not start like one. -/
theorem atMarker_word {w : List Char} (h : Word w) (hr : s.rest = w ++ rest) (hc : c = '-' ∨ c = '.') :
    atMarker c s = .ok (false, s) := by
  have hne : ∀ {d : Char}, CharClass.isAsciiAlphanumeric d = true → (d == c) = false := by
    intro d hd
    rw [beq_eq_false_iff_ne]
    rintro rfl
    rcases hc with rfl | rfl <;> exact absurd hd (by decide)
  simp only [atMarker, bind_apply, get_apply, bind_ok, hr]
  cases h with
  | @plain d ds hd _ =>
    rw [List.cons_append]
    cases ds ++ rest with
    | nil => rfl
    | cons e es =>
      cases es with
      | nil => rfl
      | cons =>
        simp only [hne hd, Bool.false_and]
        rfl
  | @negative d ds hd _ =>
    rw [List.cons_append, List.cons_append]
    cases ds ++ rest with
    | nil => rfl
    | cons =>
      simp only [hne hd, Bool.false_and, Bool.and_false]
      rfl

theorem atDocumentMarker_word {w : List Char} (h : Word w) (hr : s.rest = w ++ rest) : atDocumentMarker s = .ok (false, s) := by
  rw [atDocumentMarker, bind_apply, column_apply, bind_ok]
  by_cases hcolumn : s.place.column = 0
  · simp only [hcolumn, ↓reduceIte, bind_apply, atMarker_word h hr (.inl rfl), bind_ok, atMarker_word h hr (.inr rfl)]
    rfl
  · simp only [hcolumn, ↓reduceIte, pure_apply]

/-- A word is a plain scalar with itself as text. -/
theorem plainText_word {w : List Char} (n : Nat) (indent : Int) (h : Word w) (hr : s.rest = w ++ rest)
    (hrest : Ends s.flowLevel rest) (hf : s.rest.length < s.fuel) :
    ∃ place : Place, 0 < place.column ∧ plainText indent (n + 1) {} "" s = .ok (String.ofList w, s.moved rest place) := by
  obtain ⟨c, cs, rfl⟩ : ∃ c cs, w = c :: cs := by cases h <;> exact ⟨_, _, rfl⟩
  obtain ⟨hc, hcs⟩ := Bool.and_eq_true_iff.1 h.all_isWordChar
  have hcomment : c ≠ '#' := by
    rintro rfl
    exact absurd hc (by decide)
  have hflow : ∀ d ∈ rest.head?, decide (s.flowLevel > 0) = true ∧ isFlow d = true := by
    intro d hd
    obtain ⟨hl, hd⟩ := hrest d hd
    refine ⟨decide_eq_true hl, ?_⟩
    rcases hd with rfl | rfl | rfl <;> rfl
  rw [List.cons_append] at hr
  obtain ⟨m, hm⟩ : ∃ m, s.fuel = m + 1 := ⟨s.fuel - 1, by omega⟩
  have hlen : cs.length < m := by
    rw [hr, hm, List.length_cons, List.length_append] at hf
    omega
  obtain ⟨place, hplace, hword⟩ := plainWord_apply (s := s.moved (cs ++ rest) s.place.next) ("".push c) rfl hcs hflow
    hlen rfl (Nat.succ_pos _)
  have hfirst : plainWord (decide (s.flowLevel > 0)) s.fuel "" s = .ok (String.ofList (c :: cs), s.moved rest place) := by
    have hnil : "" ++ String.ofList (c :: cs) = String.ofList (c :: cs) := by simp
    rw [hm, plainWord_char hr hc, hword, push_append, hnil]
    rfl
  have hindicator : (decide (s.rest.head? = some '-') && isFlowAt s.rest[1]?) = false := by
    rw [Bool.and_eq_false_iff]
    by_cases hm : c = '-'
    · right
      obtain ⟨d, ds, rfl, hd⟩ := h.of_minus hm
      simp [hr, isFlowAt, isFlow_of_isWordChar hd]
    · left
      simp [hr, hm]
  have hhead : s.rest.head? ≠ some '#' := by simp [hr, hcomment]
  have hgoes : (!endsWord s.rest.head? && continuesPlain (decide (s.flowLevel > 0)) s.rest) = true := by
    simp [hr, endsWord, isSpaceOrBreak_of_isWordChar hc, continuesPlain_word hc]
  have hempty : ("" ++ if s.leading = true then Gap.text {} else "") = "" := by
    split <;> rfl
  refine ⟨place, hplace, ?_⟩
  simp only [plainText, bind_apply, atDocumentMarker_word h hr, bind_ok, peek_apply, hhead, inFlow_apply, decide_false,
    Bool.or_self, Bool.false_eq_true, ↓reduceIte, peekAt_apply, Bool.and_assoc, hindicator, Bool.and_false, get_apply, hgoes,
    hempty, hfirst, pure_apply]
  cases hhead : rest with
  | nil => rfl
  | cons d ds =>
    have hd : isSpaceOrBreak d = false := (hrest.solid d (by simp [hhead])).1
    simp only [Scanner.moved, List.head?_cons, hd, Bool.not_false, ↓reduceIte]
    rfl

theorem plainScalar_apply {w : List Char} (h : Word w) (hr : s.rest = w ++ rest) (hrest : Ends s.flowLevel rest)
    (hi : s.indents = []) (hind : s.indent = -1) (hf : s.rest.length < s.fuel) :
    ∃ place : Place, 0 < place.column ∧ plainScalar s = .ok ((), Scanner.pushed (Scanner.moved { s with
        simpleKeys := s.savedKeys
        simpleKeyAllowed := false }
      rest place) s.place (.scalar .plain (String.ofList w))) := by
  let t : Scanner := { s with simpleKeys := s.savedKeys, simpleKeyAllowed := false }
  obtain ⟨m, hm⟩ : ∃ m, s.fuel = m + 1 := ⟨s.fuel - 1, by omega⟩
  obtain ⟨place, hplace, htext⟩ := plainText_word (s := t) m (s.indent + 1) h hr hrest hf
  refine ⟨place, hplace, ?_⟩
  have hcolumn : ¬((s.place.column : Int) < s.indent + 1) := by
    rw [hind]
    omega
  have hne : (String.ofList w).isEmpty = false := by
    cases h <;> simp
  simp only [plainScalar, bind_apply, saveKey_apply hi, bind_ok, allowKey_apply]
  rw [unrollOnes_apply (by exact hi), bind_ok, get_apply, bind_ok]
  simp only [hcolumn, decide_false, Bool.and_false, Bool.false_eq_true, ↓reduceIte, bind_apply]
  have hread : plainText (s.indent + 1) s.fuel {} "" t = .ok (String.ofList w, t.moved rest place) := by
    rw [hm]
    exact htext
  refine (congrArg (· >>= _) hread).trans ?_
  simp only [bind_ok, get_apply, Scanner.moved, Bool.false_eq_true, ↓reduceIte, hne]
  rfl

end Scan
end YamlQuery.Yaml
