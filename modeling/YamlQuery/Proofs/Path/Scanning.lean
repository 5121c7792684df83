import Mathlib.Data.List.DropRight
import YamlQuery.Proofs.Path.Lookahead
import YamlQuery.Proofs.Path.Reading
import YamlQuery.Proofs.Text.Utf8
/-!
Splitting a text into tokens without regard to marks. A delimiter ends every token before it, so a text keeps its tokens
when a delimiter and more text follow it.
-/
namespace YamlQuery.Path
open CharClass Outcome Grammar

namespace Lexer
open Cursor

def Delimits (more : List Char) : Prop := ∀ d ∈ more.head?, d = '(' ∨ d = ')' ∨ d = '/'

def Bounds (more : List Char) : Prop := ∀ d ∈ more.head?, isOuter d = true

variable {more : List Char}

theorem delimits_nil : Delimits [] := by
  intro d hd
  simp at hd

theorem delimits_cons {d : Char} (h : d = '(' ∨ d = ')' ∨ d = '/') (more : List Char) : Delimits (d :: more) := by
  intro c hc
  obtain rfl : d = c := by simpa using hc
  exact h

theorem Delimits.bounds (h : Delimits more) : Bounds more := by
  intro d hd
  rcases h d hd with rfl | rfl | rfl <;> rfl

theorem isOuter_of_isBlank {d : Char} (h : isBlank d = true) : isOuter d = true := by
  simp [isOuter, h]

theorem bounds_cons {d : Char} (h : isBlank d = true) (more : List Char) : Bounds (d :: more) := by
  intro c hc
  obtain rfl : d = c := by simpa using hc
  exact isOuter_of_isBlank h

theorem Bounds.near (h : Bounds more) (rest : List Char) : Near rest (rest ++ more) := by
  intro d hd
  cases rest with
  | nil => exact .inl (h d hd)
  | cons => exact .inr hd

structure StandsFor (rest rest' : List Char) : Prop where
  near : Near rest rest'
  far : (rest'.dropWhile isBlank).head? = (rest.dropWhile isBlank).head?

namespace Local
variable {k : TokenKind} {rest rest' : List Char} {P : List Char → List Char → Prop}

theorem append (h : Local k rest P) (hm : Bounds more) (hb : k = .openBracket → rest = [] → Delimits more) :
    P (rest ++ more) (rest ++ more) := by
  rcases h with h | ⟨hk, hrest, h⟩
  · exact h _ (hm.near rest)
  · have hfirst : ∀ d ∈ (rest ++ more).head?, isBlank d = false ∧ d ≠ ']' := by
      intro d hd
      cases rest with
      | nil => rcases hb hk rfl d hd with rfl | rfl | rfl <;> decide
      | cons => exact hrest d hd
    have hdrop := (takeWhile_stops fun d hd => (hfirst d hd).1).2
    have hread := h (rest ++ more)
    rw [hdrop] at hread
    exact hread fun hd => (hfirst _ hd).2 rfl

theorem self (h : Local k rest P) : P rest rest := by
  have hnil := h.append delimits_nil.bounds fun _ _ => delimits_nil
  rwa [List.append_nil] at hnil

/-- Blanks may be put behind the token, and what follows behind them may begin alike. -/
theorem spread (h : Local k rest P) (hs : StandsFor rest rest') :
    ∃ left, P rest' left ∧ left.dropWhile isBlank = rest'.dropWhile isBlank := by
  rcases h with h | ⟨_, hrest, h⟩
  · exact ⟨rest', h rest' hs.near, rfl⟩
  · have hdrop := (takeWhile_stops fun d hd => (hrest d hd).1).2
    refine ⟨_, h rest' ?_, List.dropWhile_idempotent _ _⟩
    rw [hs.far, hdrop]
    exact fun hd => (hrest _ hd).2 rfl

end Local

/-- Behind an operand or not, the text `cs` starts with a token of kind `k`, and `rest` is left. -/
def Takes (b : Bool) (cs : List Char) (k : TokenKind) (rest : List Char) : Prop :=
  ∃ ch tail m c, cs.dropWhile isBlank = ch :: tail ∧ kindAt b ch ⟨m, ch :: tail, .complete⟩ = .ok (k, c) ∧ c.rest = rest

variable {b : Bool} {cs rest : List Char} {k : TokenKind}

theorem takes_cons {ch : Char} {m : Mark} {c : Cursor} (hb : isBlank ch = false)
    (h : kindAt b ch ⟨m, ch :: cs, .complete⟩ = .ok (k, c)) : Takes b (ch :: cs) k c.rest :=
  ⟨ch, cs, m, c, by simp [hb], h, rfl⟩

theorem takes_single {ch : Char} {k : TokenKind} (hb : isBlank ch = false) (h : single? ch = some k) (rest : List Char) :
    Takes b (ch :: rest) k rest := by
  have hk : kindAt b ch ⟨{}, ch :: rest, .complete⟩ = .ok (k, ⟨Mark.advance {} ch, rest, .complete⟩) := by
    simp [kindAt, h, Cursor.advance]
  exact takes_cons hb hk

theorem Takes.ne_finish (h : Takes b cs k rest) : k ≠ .finish := by
  obtain ⟨_, _, _, _, _, hk, _⟩ := h
  exact (leads_kindAt rfl hk).1

theorem Takes.blanks {blanks : List Char} (h : Takes b cs k rest) (hb : ∀ c ∈ blanks, isBlank c = true) :
    Takes b (blanks ++ cs) k rest := by
  obtain ⟨ch, tail, m, c, hd, hk, hr⟩ := h
  refine ⟨ch, tail, m, c, ?_, hk, hr⟩
  rw [List.dropWhile_append_of_pos hb]
  exact hd

/-- The characters of a token are its own: with them it is read again before other texts. -/
theorem Takes.exists_local (h : Takes b cs k rest) :
    ∃ taken, cs = taken ++ rest ∧ Local k rest fun rest' left => Takes b (taken ++ rest') k left := by
  obtain ⟨ch, tail, m, c, hcs, hk, rfl⟩ := h
  obtain ⟨own, rfl, hlocal⟩ := kindAt_local hk m
  have hblanks : ∀ d ∈ cs.takeWhile isBlank, isBlank d = true := List.all_eq_true.1 List.all_takeWhile
  have hch : isBlank ch = false := by
    have hnot := List.head?_dropWhile_not isBlank cs
    rw [hcs] at hnot
    simpa using hnot
  refine ⟨cs.takeWhile isBlank ++ ch :: own, ?_, hlocal.imp ?_⟩
  · rw [List.append_assoc, List.cons_append, ← hcs, List.takeWhile_append_dropWhile]
  · rintro rest' left ⟨m₂, hm⟩
    rw [List.append_assoc]
    exact (takes_cons hch hm).blanks hblanks

theorem Takes.append_bounds (h : Takes b cs k rest) (hm : Bounds more) (hb : k = .openBracket → rest = [] → Delimits more) :
    Takes b (cs ++ more) k (rest ++ more) := by
  obtain ⟨taken, rfl, hlocal⟩ := h.exists_local
  rw [List.append_assoc]
  exact hlocal.append hm hb

theorem Takes.append (h : Takes b cs k rest) (hd : Delimits more) : Takes b (cs ++ more) k (rest ++ more) :=
  h.append_bounds hd.bounds fun _ _ => hd

theorem Takes.spread {taken rest' : List Char} (h : Takes b (taken ++ rest) k rest) (hs : StandsFor rest rest') :
    ∃ left, Takes b (taken ++ rest') k left ∧ left.dropWhile isBlank = rest'.dropWhile isBlank := by
  obtain ⟨taken', htaken, hlocal⟩ := h.exists_local
  obtain rfl := List.append_cancel_right htaken
  exact hlocal.spread hs

theorem Takes.next (h : Takes b cs k rest) (m : Mark) :
    ∃ t m', Lexer.next b ⟨m, cs, .complete⟩ = .ok (t, ⟨m', rest, .complete⟩) ∧ t.kind = k := by
  obtain ⟨ch, tail, m₁, c, hcs, hk, rfl⟩ := h
  obtain ⟨own, rfl, hlocal⟩ := kindAt_local hk (m.advanceAll (cs.takeWhile isBlank))
  obtain ⟨m₂, hk'⟩ := hlocal.self
  refine ⟨⟨k, ⟨m.advanceAll (cs.takeWhile isBlank), m₂⟩⟩, m₂, ?_, rfl⟩
  simp only [Lexer.next, skipBlanks_complete, bind_ok, peek_complete, hcs, List.head?_cons, hk']
  rfl

theorem takes_of_next {m : Mark} {t : Token} {c : Cursor} (h : Lexer.next b ⟨m, cs, .complete⟩ = .ok (t, c))
    (ht : t.kind ≠ .finish) : Takes b cs t.kind c.rest := by
  simp only [Lexer.next, skipBlanks_complete, bind_ok, peek_complete] at h
  cases hcs : cs.dropWhile isBlank with
  | nil =>
    rw [hcs] at h
    cases h
    exact absurd rfl ht
  | cons ch tail =>
    rw [hcs] at h
    obtain ⟨⟨k, c'⟩, hk, h⟩ := bind_eq_ok.1 h
    cases h
    exact ⟨ch, tail, _, c', hcs, hk, rfl⟩

theorem finish_iff_blanks (b : Bool) (m : Mark) (cs : List Char) :
    (∃ t c, Lexer.next b ⟨m, cs, .complete⟩ = .ok (t, c) ∧ t.kind = .finish) ↔ ∀ ch ∈ cs, isBlank ch = true := by
  rw [← List.dropWhile_eq_nil_iff]
  simp only [Lexer.next, skipBlanks_complete, bind_ok, peek_complete]
  cases cs.dropWhile isBlank with
  | nil =>
    refine ⟨fun _ => rfl, fun _ => ?_⟩
    exact ⟨_, _, rfl, rfl⟩
  | cons ch tail =>
    constructor
    · rintro ⟨t, c, h, ht⟩
      obtain ⟨⟨k, c'⟩, hk, h⟩ := bind_eq_ok.1 h
      cases h
      exact absurd ht (leads_kindAt rfl hk).1
    · intro h
      simp at h

inductive Lexes : Bool → List Char → List TokenKind → Prop
  | finish {b : Bool} {cs : List Char} (h : ∀ c ∈ cs, isBlank c = true) : Lexes b cs []
  | token {b : Bool} {cs rest : List Char} {k : TokenKind} {ks : List TokenKind} (h : Takes b cs k rest)
    (hk : k ≠ .finish) (t : Lexes k.endsOperand rest ks) : Lexes b cs (k :: ks)

variable {ks ls : List TokenKind}

theorem Lexes.blanks {blanks : List Char} (h : Lexes b cs ks) (hb : ∀ c ∈ blanks, isBlank c = true) :
    Lexes b (blanks ++ cs) ks := by
  cases h with
  | finish h =>
    refine .finish ?_
    intro c hc
    cases List.mem_append.1 hc with
    | inl hc => exact hb c hc
    | inr hc => exact h c hc
  | token h hk t => exact .token (h.blanks hb) hk t

theorem not_lexes_nil {b : Bool} : ¬Lexes b [] (k :: ks) := by
  rintro (_ | ⟨⟨_, _, _, _, hcs, _⟩, _, _⟩)
  simp at hcs

def operandEnds (b : Bool) (ks : List TokenKind) : Bool := (ks.getLast?.map TokenKind.endsOperand).getD b

theorem operandEnds_cons (b : Bool) (k : TokenKind) (ks : List TokenKind) :
    operandEnds b (k :: ks) = operandEnds k.endsOperand ks := by
  cases ks with
  | nil => rfl
  | cons l ks =>
    rw [operandEnds, operandEnds, List.getLast?_cons_cons, List.getLast?_eq_some_getLast (List.cons_ne_nil l ks)]
    rfl

/-- The tokens of two texts are those of each, when the second starts with a delimiter or a blank, unless the first ends in
an open bracket. -/
theorem Lexes.append_bounds (h : Lexes b cs ks) (hd : Bounds more) (hb : ks.getLast? = some .openBracket → Delimits more)
    (hm : Lexes (operandEnds b ks) more ls) : Lexes b (cs ++ more) (ks ++ ls) := by
  induction h with
  | finish hblank => exact hm.blanks hblank
  | @token b cs rest k ks h hk t ih =>
    have hlast : k = .openBracket → rest = [] → Delimits more := by
      rintro rfl rfl
      cases ks with
      | nil => exact hb rfl
      | cons l ks => exact (not_lexes_nil t).elim
    refine .token (h.append_bounds hd hlast) hk (ih ?_ (operandEnds_cons b k ks ▸ hm))
    intro hks
    apply hb
    rw [List.getLast?_cons, hks]
    rfl

/-- The tokens of two texts are those of each, when the second starts with a delimiter. -/
theorem Lexes.append (h : Lexes b cs ks) (hd : Delimits more) (hm : ∀ b', Lexes b' more ls) :
    Lexes b (cs ++ more) (ks ++ ls) :=
  h.append_bounds hd.bounds (fun _ => hd) (hm _)

theorem Lexes.readFrom {n : Nat} (h : Lexes b cs ks) (m : Mark) (hn : cs.length < n) :
    (Lexed.readFrom n b ⟨m, cs, .complete⟩).Yields ks := by
  induction h generalizing m n with
  | finish hb =>
    obtain ⟨n, rfl⟩ := Nat.exists_eq_succ_of_ne_zero (by omega : n ≠ 0)
    obtain ⟨t, c, hnext, ht⟩ := (finish_iff_blanks _ m _).2 hb
    rw [Lexed.readFrom, hnext]
    simp [ht, Lexed.Yields]
  | token h hk _ ih =>
    obtain ⟨n, rfl⟩ := Nat.exists_eq_succ_of_ne_zero (by omega : n ≠ 0)
    obtain ⟨t, m', hnext, rfl⟩ := h.next m
    have hlt := next_shorter hnext hk
    obtain ⟨hf, hts⟩ := @ih n m' (by dsimp only at hlt; omega)
    rw [Lexed.readFrom, hnext]
    simp only [hk, ↓reduceIte]
    exact ⟨hf, by simp [hts]⟩

theorem lexes_of_readFrom {n : Nat} {m : Mark} (h : (Lexed.readFrom n b ⟨m, cs, .complete⟩).Yields ks)
    (hn : cs.length < n) : Lexes b cs ks := by
  induction n generalizing b cs m ks with
  | zero => omega
  | succ n ih =>
    cases hnext : Lexer.next b ⟨m, cs, .complete⟩ with
    | error e =>
      rw [Lexed.readFrom, hnext] at h
      have := h.1
      simp at this
    | ok r =>
      obtain ⟨t, c⟩ := r
      rw [Lexed.readFrom, hnext] at h
      by_cases ht : t.kind = .finish
      · simp only [ht, ↓reduceIte] at h
        obtain rfl : ks = [] := by simpa [Lexed.Yields, ht] using h.2
        exact .finish ((finish_iff_blanks b m cs).1 ⟨t, c, hnext, ht⟩)
      · simp only [ht, ↓reduceIte] at h
        obtain ⟨hf, hts⟩ := h
        obtain ⟨ls, rfl⟩ : ∃ ls, ks = t.kind :: ls := by
          cases ks with
          | nil =>
            rw [List.map_cons] at hts
            exact absurd (List.cons.inj hts).1 ht
          | cons k ks =>
            rw [List.map_cons] at hts
            exact ⟨ks, by rw [(List.cons.inj hts).1]⟩
        have hlt := next_shorter hnext ht
        obtain ⟨_, _, _, _, hb, hk, _⟩ := leads_next hnext
        obtain ⟨m', rest, e⟩ := c
        obtain rfl : e = .complete := hk.ending.trans hb.ending
        have hrest := @ih t.kind.endsOperand rest ls m' ⟨hf, by simpa using hts⟩ (by dsimp only at hlt; omega)
        exact .token (takes_of_next hnext ht) ht hrest

end Lexer

namespace Parsed
open Lexer

variable {text : String} {ks : List TokenKind}

theorem ofText_yields_iff : (Lexed.ofBytes (Utf8.encode text.toList)).Yields ks ↔ Lexes false text.toList ks := by
  have hc : Cursor.ofBytes (Utf8.encode text.toList) = ⟨{}, text.toList, .complete⟩ := by
    rw [Cursor.ofBytes, Utf8.read_encode]
  rw [Lexed.ofBytes, hc]
  exact ⟨fun h => lexes_of_readFrom h (Nat.lt_succ_self _), fun h => h.readFrom {} (Nat.lt_succ_self _)⟩

theorem lexes_of_ok {p : Parsed} (h : ofText text = .ok p) :
    ∃ ks, Lexes false text.toList ks ∧ Reads ks p.expr.unmarked := by
  obtain ⟨ks, hy, hr⟩ := yields_of_ok h
  exact ⟨ks, ofText_yields_iff.1 hy, hr⟩

theorem ok_of_lexes {t : Expr} (h : Lexes false text.toList ks) (hr : Reads ks t) :
    ∃ p, ofText text = .ok p ∧ p.expr.unmarked = t :=
  ok_of_yields (ofText_yields_iff.2 h) hr

end Parsed
end YamlQuery.Path
