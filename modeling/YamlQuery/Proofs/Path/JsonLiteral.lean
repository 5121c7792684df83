import YamlQuery.Proofs.Path.Segment
import YamlQuery.Proofs.Value.JsonText
/-!
Compact JSON text between braces is one key literal: its brackets are balanced, and its quoted texts close where they should.
-/
namespace YamlQuery.Path
open CharClass JsonValue

namespace Lexer

def Passes (cs : List Char) (s t : LiteralState) : Prop :=
  ∀ start m rest, ∃ m', keyLiteral start .complete s m (cs ++ rest) =
    cs.foldr prepend (keyLiteral start .complete t m' rest)

theorem Passes.nil (s : LiteralState) : Passes [] s s := fun _ m _ => ⟨m, rfl⟩

theorem Passes.step {cs : List Char} {s t : LiteralState} (h : ∀ rest, s.Step cs rest t) : Passes cs s t :=
  fun _ _ rest => ⟨_, keyLiteral_step (h rest)⟩

theorem Passes.append {as bs : List Char} {s t u : LiteralState} (ha : Passes as s t) (hb : Passes bs t u) :
    Passes (as ++ bs) s u := by
  intro start m rest
  obtain ⟨m₁, h₁⟩ := ha start m (bs ++ rest)
  obtain ⟨m₂, h₂⟩ := hb start m₁ rest
  exact ⟨m₂, by rw [List.append_assoc, h₁, h₂, List.foldr_append]⟩

theorem Passes.cons {c : Char} {cs : List Char} {s t u : LiteralState} (hc : Passes [c] s t) (hcs : Passes cs t u) :
    Passes (c :: cs) s u := hc.append hcs

def PassesBare (cs : List Char) (i j : Nat) : Prop :=
  ∀ before, ∃ after, Passes cs (.bare i before) (.bare j after)

theorem PassesBare.nil (i : Nat) : PassesBare [] i i := fun before => ⟨before, .nil _⟩

theorem PassesBare.append {as bs : List Char} {i j k : Nat} (ha : PassesBare as i j) (hb : PassesBare bs j k) :
    PassesBare (as ++ bs) i k := by
  intro before
  obtain ⟨mid, ha⟩ := ha before
  obtain ⟨after, hb⟩ := hb mid
  exact ⟨after, ha.append hb⟩

theorem PassesBare.cons {c : Char} {cs : List Char} {i j k : Nat} (hc : PassesBare [c] i j) (hcs : PassesBare cs j k) :
    PassesBare (c :: cs) i k := hc.append hcs

theorem passesBare_flatMap {α : Type} {f : α → List Char} {i : Nat} {as : List α} (h : ∀ a ∈ as, PassesBare (f a) i i) :
    PassesBare (as.flatMap f) i i := by
  induction as with
  | nil => exact .nil i
  | cons a as ih =>
    rw [List.flatMap_cons]
    exact (h a (by simp)).append (ih fun b hb => h b (by simp [hb]))

def structural : List Char := ['\x7b', '[', '\x7d', ']', '"', '\'', '!']

theorem passesBare_plain {c : Char} (h : c ∉ structural) (i : Nat) : PassesBare [c] i i := by
  simp only [structural, List.mem_cons, List.not_mem_nil, or_false, not_or] at h
  obtain ⟨h1, h2, h3, h4, h5, h6, h7⟩ := h
  exact fun _ => ⟨some c, .step fun _ => .plain (by simp [h1, h2, h3, h4, h5, h6]) fun hc => absurd hc h7⟩

theorem passesBare_open {c : Char} (h : c = '\x7b' ∨ c = '[') (i : Nat) : PassesBare [c] i (i + 1) :=
  fun _ => ⟨some c, .step fun _ => .opens h⟩

theorem passesBare_close {c : Char} (h : c = '\x7d' ∨ c = ']') (i : Nat) : PassesBare [c] (i + 1) i :=
  fun _ => ⟨some c, .step fun _ => .closes h fun hc => Nat.succ_ne_zero i hc.2⟩

theorem passes_inside {c : Char} (hq : c ≠ '"') (hb : c ≠ '\\') (i : Nat) : Passes [c] (.double i) (.double i) :=
  .step fun _ => .inDouble hq fun hc => absurd hc hb

theorem passes_escapeChar (c : Char) (i : Nat) : Passes (escapeChar c) (.double i) (.double i) := by
  rcases escapeChar_cases c with ⟨he, hq, hb, _⟩ | ⟨x, xs, he, _, _, hxs⟩
  · rw [he]
    exact passes_inside hq hb i
  · have hdigits : ∀ xs : List Char, xs.all isHexDigit = true → Passes xs (.double i) (.double i) := by
      intro xs hxs
      induction xs with
      | nil => exact .nil _
      | cons d ds ih =>
        obtain ⟨hd, hds⟩ := Bool.and_eq_true_iff.1 hxs
        have hq : d ≠ '"' := by
          rintro rfl
          exact absurd hd (by decide)
        have hb : d ≠ '\\' := by
          rintro rfl
          exact absurd hd (by decide)
        exact (passes_inside hq hb i).cons (ih hds)
    rw [he]
    have hpair : Passes ['\\', x] (.double i) (.double i) := .step fun _ => .escape
    exact hpair.append (hdigits xs hxs)

theorem passesBare_quote (text : String) (i : Nat) : PassesBare (quote text).toList i i := by
  have hinside : ∀ cs : List Char, Passes (cs.flatMap escapeChar) (.double i) (.double i) := by
    intro cs
    induction cs with
    | nil => exact .nil _
    | cons c cs ih => exact (passes_escapeChar c i).append ih
  intro before
  refine ⟨some '"', ?_⟩
  have hopen : Passes ['"'] (.bare i before) (.double i) := .step fun _ => .opensDouble
  have hclose : Passes ['"'] (.double i) (.bare i (some '"')) := .step fun _ => .closesDouble
  rw [toList_quote]
  exact hopen.cons ((hinside text.toList).append hclose)

theorem not_structural_of_isWordChar {c : Char} (h : isWordChar c = true) : c ∉ structural := by
  have hall : structural.all (fun x => !isWordChar x) = true := by decide
  intro hm
  have := List.all_eq_true.1 hall c hm
  simp [h] at this

theorem passesBare_word {cs : List Char} (h : Word cs) (i : Nat) : PassesBare cs i i := by
  have hrun : ∀ cs : List Char, cs.all isWordChar = true → PassesBare cs i i := by
    intro cs hcs
    induction cs with
    | nil => exact .nil i
    | cons c cs ih =>
      obtain ⟨hc, hcs⟩ := Bool.and_eq_true_iff.1 hcs
      exact (passesBare_plain (not_structural_of_isWordChar hc) i).cons (ih hcs)
  exact hrun cs h.all_isWordChar

/-- A JSON value leaves the depth as it was. -/
theorem passesBare_compact (v : JsonValue) (i : Nat) : PassesBare v.compact.toList i i := by
  have hcomma : ∀ {cs : List Char} {i : Nat}, PassesBare cs i i → PassesBare (',' :: cs) i i :=
    fun h => (passesBare_plain (by decide) _).cons h
  induction v using induct generalizing i with
  | scalar v =>
    rcases string_or_word v with ⟨text, rfl⟩ | ⟨_, hw⟩
    · exact passesBare_quote text i
    · exact passesBare_word hw i
  | array items ih =>
    have hopen := passesBare_open (c := '[') (.inr rfl) i
    have hclose := passesBare_close (c := ']') (.inr rfl) i
    cases items with
    | nil =>
      rw [toList_array_nil]
      exact hopen.cons hclose
    | cons v vs =>
      have hvs := passesBare_flatMap fun w hw => hcomma (ih w (List.mem_cons_of_mem v hw) (i + 1))
      rw [toList_array_cons]
      exact hopen.cons ((ih v (by simp) (i + 1)).append (hvs.append hclose))
  | object fields ih =>
    have hopen := passesBare_open (c := '\x7b') (.inl rfl) i
    have hclose := passesBare_close (c := '\x7d') (.inl rfl) i
    have hfield : ∀ f ∈ fields, PassesBare (fieldText f).toList (i + 1) (i + 1) := by
      intro f hf
      have hcolon := (passesBare_plain (c := ':') (by decide) (i + 1)).cons (ih f hf (i + 1))
      rw [toList_fieldText]
      exact (passesBare_quote f.1 (i + 1)).append hcolon
    cases fields with
    | nil =>
      rw [toList_object_nil]
      exact hopen.cons hclose
    | cons f fs =>
      have hfs := passesBare_flatMap fun g hg => hcomma (hfield g (List.mem_cons_of_mem f hg))
      rw [toList_object_cons]
      exact hopen.cons ((hfield f (by simp)).append (hfs.append hclose))

theorem isBlank_of_isWordChar {c : Char} (h : isWordChar c = true) : isBlank c = false := by
  obtain ⟨hge, hlt⟩ := isWordChar_bounds h
  exact isBlank_of_bounds hge hlt

theorem isBlank_of_startsValue {c : Char} (h : startsValue c = true) : isBlank c = false := by
  simp only [startsValue, Bool.or_eq_true, beq_iff_eq] at h
  rcases h with (((h | rfl) | rfl) | rfl) | rfl
  · exact isBlank_of_isWordChar (by simp [isWordChar, h])
  all_goals decide

theorem isBlank_of_endsValue {c : Char} (h : endsValue c = true) : isBlank c = false := by
  simp only [endsValue, Bool.or_eq_true, beq_iff_eq] at h
  rcases h with ((h | rfl) | rfl) | rfl
  · exact isBlank_of_isWordChar h
  all_goals decide

theorem trimEnd_concat {c : Char} (cs : List Char) (hc : isBlank c = false) : trimEnd (cs ++ [c]) = cs ++ [c] := by
  rw [trimEnd, List.reverse_append, List.reverse_singleton, List.singleton_append,
    List.dropWhile_cons_of_neg (by simp [hc]), List.reverse_cons, List.reverse_reverse]

theorem trimEnd_compact (v : JsonValue) : trimEnd v.compact.toList = v.compact.toList := by
  obtain ⟨cs, c, hcs, hc⟩ := compact_concat v
  rw [hcs]
  exact trimEnd_concat cs (isBlank_of_endsValue hc)

/-- Behind a brace that neither a blank nor the closing brace follows a key literal is read. -/
theorem brace_literal {c : Char} (hblank : isBlank c = false) (hclose : c ≠ '\x7d') (start m : Mark) (cs : List Char) :
    brace start ⟨m, c :: cs, .complete⟩ = (keyLiteral start .complete (.bare 0 none) m (c :: cs)).map fun r =>
      (.keyLiteral (String.ofList (trimEnd r.1)), r.2) := by
  have hblanks : (c :: cs).takeWhile isBlank = [] ∧ (c :: cs).dropWhile isBlank = c :: cs := by simp [hblank]
  have hhead : (c :: cs).head? ≠ some '\x7d' := by simp [hclose]
  have hmark : m.advanceAll [] = m := rfl
  simp only [brace, Cursor.skipBlanks_complete, Cursor.peek_complete, Outcome.bind_ok, hblanks, hhead, hmark, ↓reduceIte]
  cases keyLiteral start .complete (.bare 0 none) m (c :: cs) <;> rfl

/-- A text without outer blanks that is read up to a brace is a key literal with that text, whatever follows. -/
theorem takes_braced (b : Bool) {c : Char} {cs rest : List Char} {m' : Mark} (hblank : isBlank c = false) (hclose : c ≠ '\x7d')
    (hread : keyLiteral {} .complete (.bare 0 none) (Mark.advance {} '\x7b') (c :: cs ++ '\x7d' :: rest) =
      .ok (c :: cs, ⟨m', rest, .complete⟩)) (htrim : trimEnd (c :: cs) = c :: cs) :
    Takes b ('\x7b' :: (c :: cs ++ '\x7d' :: rest)) (.keyLiteral (String.ofList (c :: cs))) rest := by
  have hk : kindAt b '\x7b' ⟨{}, '\x7b' :: (c :: cs ++ '\x7d' :: rest), .complete⟩ =
      .ok (.keyLiteral (String.ofList (c :: cs)), ⟨m', rest, .complete⟩) := by
    have hbrace := brace_literal hblank hclose {} (Mark.advance {} '\x7b') (cs ++ '\x7d' :: rest)
    rw [← List.cons_append, hread, Except.map, htrim] at hbrace
    exact hbrace
  exact takes_cons (by decide) hk

/-- Compact JSON text between braces is a key literal with that text, whatever follows. -/
theorem takes_literal (b : Bool) (v : JsonValue) (rest : List Char) :
    Takes b ('\x7b' :: (v.compact.toList ++ '\x7d' :: rest)) (.keyLiteral v.compact) rest := by
  obtain ⟨c, cs, hcs, hc⟩ := compact_cons v
  have hclose : c ≠ '\x7d' := by
    rintro rfl
    exact absurd hc (by decide)
  obtain ⟨after, hpass⟩ := passesBare_compact v 0 none
  obtain ⟨m', hlit⟩ := hpass {} (Mark.advance {} '\x7b') ('\x7d' :: rest)
  have htrim := trimEnd_compact v
  have htext : TokenKind.keyLiteral v.compact = .keyLiteral (String.ofList (c :: cs)) := by
    rw [← hcs, String.ofList_toList]
  rw [keyLiteral_close, prependAll_ok, List.append_nil, hcs] at hlit
  rw [hcs] at htrim
  rw [htext, hcs]
  exact takes_braced b (isBlank_of_startsValue hc) hclose hlit htrim

end Lexer
end YamlQuery.Path
