import YamlQuery.Proofs.Path.Marks
import YamlQuery.Proofs.Path.Reading
import YamlQuery.Proofs.Path.Spans
/-!
The tokens of a text that was read to its end stand one behind the other with nothing but blanks between them, and the end
of the text is the last one. Together with the marks: every place that a lexer or a parse reports is one of the text.
-/
namespace YamlQuery.Path
open CharClass Outcome

inductive Tiled : Mark → List Char → List Token → Prop
  | finish {m : Mark} {cs : List Char} (h : ∀ c ∈ cs, isBlank c = true) :
    Tiled m cs [⟨.finish, ⟨m.advanceAll cs, m.advanceAll cs⟩⟩]
  | token {m : Mark} {blanks taken rest : List Char} {k : TokenKind} {ts : List Token}
    (h : ∀ c ∈ blanks, isBlank c = true) (hne : taken ≠ [])
    (t : Tiled ((m.advanceAll blanks).advanceAll taken) rest ts) :
    Tiled m (blanks ++ (taken ++ rest)) (⟨k, ⟨m.advanceAll blanks, (m.advanceAll blanks).advanceAll taken⟩⟩ :: ts)

/-- The spans cover all characters but blanks, in order and without overlap, and the last one is empty and stands at the
end. -/
structure Tiles (bytes : List UInt8) (tokens : List Token) : Prop where
  text : ∃ cs : List Char, bytes = Utf8.encode cs
  ordered : tokens.Pairwise fun t u => t.span.stop.pos ≤ u.span.start.pos
  filled : ∃ ts last, tokens = ts ++ [last] ∧ (∀ t ∈ ts, t.span.start.pos < t.span.stop.pos) ∧ last.kind = .finish ∧
    last.span.start.pos = bytes.length ∧ last.span.stop.pos = bytes.length
  blank : ∀ (before after : List Char) (c : Char), bytes = Utf8.encode (before ++ c :: after) →
    (∀ t ∈ tokens, ¬(t.span.start.pos ≤ (Utf8.encode before).length ∧ (Utf8.encode before).length < t.span.stop.pos)) →
    isBlank c = true

namespace Token
variable {a b : Nat} {t : Token} {us ts : List Token}

def Covers (t : Token) : Prop :=
  t.span.start.pos ≤ t.span.stop.pos ∧ (t.kind ≠ .finish → t.span.start.pos < t.span.stop.pos)

def Row (a : Nat) : List Token → Prop
  | [] => True
  | t :: ts => a ≤ t.span.start.pos ∧ t.Covers ∧ Row t.span.stop.pos ts

theorem Row.from (h : Row a ts) (hb : b ≤ a) : Row b ts := by
  cases ts with
  | nil => exact trivial
  | cons t ts => exact ⟨Nat.le_trans hb h.1, h.2⟩

theorem Row.behind (h : Row a (us ++ t :: ts)) : a ≤ t.span.start.pos ∧ t.Covers ∧ Row t.span.stop.pos ts := by
  induction us generalizing a with
  | nil => exact h
  | cons u us ih =>
    obtain ⟨hstart, hu, h⟩ := h
    obtain ⟨hle, ht⟩ := ih h
    exact ⟨Nat.le_trans hstart (Nat.le_trans hu.1 hle), ht⟩

theorem Row.start_le (h : Row a ts) (ht : t ∈ ts) : a ≤ t.span.start.pos := by
  obtain ⟨before, after, rfl⟩ := List.append_of_mem ht
  exact h.behind.1

theorem Row.pairwise (h : Row a ts) : ts.Pairwise fun t u => t.span.stop.pos ≤ u.span.start.pos := by
  induction ts generalizing a with
  | nil => exact List.Pairwise.nil
  | cons t ts ih => exact List.pairwise_cons.2 ⟨fun _ hu => h.2.2.start_le hu, ih h.2.2⟩

end Token

namespace Tiled
variable {m : Mark} {cs : List Char} {ts : List Token}

theorem row (h : Tiled m cs ts) : Token.Row m.pos ts := by
  induction h with
  | @finish m cs =>
    have hle : m.pos ≤ (m.advanceAll cs).pos := by
      rw [Mark.pos_advanceAll]
      exact Nat.le_add_right _ _
    exact ⟨hle, ⟨Nat.le_refl _, fun h => absurd rfl h⟩, trivial⟩
  | @token m blanks taken rest k ts _ hne _ ih =>
    have hpos := Utf8.encode_length_pos hne
    have hstart := Mark.pos_advanceAll m blanks
    have hstop := Mark.pos_advanceAll (m.advanceAll blanks) taken
    refine ⟨?_, ⟨?_, fun _ => ?_⟩, ih⟩ <;> dsimp only <;> omega

theorem filled (h : Tiled m cs ts) : ∃ us last, ts = us ++ [last] ∧ (∀ t ∈ us, t.span.start.pos < t.span.stop.pos) ∧
    last.kind = .finish ∧ last.span.start.pos = m.pos + (Utf8.encode cs).length ∧
    last.span.stop.pos = m.pos + (Utf8.encode cs).length := by
  induction h with
  | finish => exact ⟨[], _, rfl, by simp, rfl, Mark.pos_advanceAll _ _, Mark.pos_advanceAll _ _⟩
  | @token m blanks taken rest k ts _ hne _ ih =>
    obtain ⟨us, last, rfl, hus, hk, hstart, hstop⟩ := ih
    have hend : ((m.advanceAll blanks).advanceAll taken).pos + (Utf8.encode rest).length =
        m.pos + (Utf8.encode (blanks ++ (taken ++ rest))).length := by
      rw [Mark.pos_advanceAll, Mark.pos_advanceAll, Utf8.encode_append, Utf8.encode_append, List.length_append,
        List.length_append]
      omega
    refine ⟨_ :: us, last, rfl, ?_, hk, hstart.trans hend, hstop.trans hend⟩
    intro t ht
    rcases List.mem_cons.1 ht with rfl | ht
    · have hpos := Utf8.encode_length_pos hne
      show (m.advanceAll blanks).pos < ((m.advanceAll blanks).advanceAll taken).pos
      rw [Mark.pos_advanceAll (m.advanceAll blanks)]
      omega
    · exact hus t ht

/-- A character of two texts in a row belongs to the first or to the second. -/
theorem split_append {as bs before after : List Char} {c : Char} (h : as ++ bs = before ++ c :: after) :
    (∃ mid, as = before ++ c :: mid) ∨ ∃ mid, before = as ++ mid ∧ bs = mid ++ c :: after := by
  rcases List.append_eq_append_iff.1 h with ⟨mid, hb, hbs⟩ | ⟨mid, has, hc⟩
  · exact .inr ⟨mid, hb, hbs⟩
  · cases mid with
    | nil => exact .inr ⟨[], by simp [has], by simpa using hc.symm⟩
    | cons d mid =>
      obtain ⟨rfl, -⟩ := List.cons.inj hc
      exact .inl ⟨mid, has⟩

/-- A character outside all spans is a blank. -/
theorem blank (h : Tiled m cs ts) {before after : List Char} {c : Char} (hcs : cs = before ++ c :: after)
    (hout : ∀ t ∈ ts, ¬(t.span.start.pos ≤ m.pos + (Utf8.encode before).length ∧
      m.pos + (Utf8.encode before).length < t.span.stop.pos)) : isBlank c = true := by
  induction h generalizing before with
  | finish hb =>
    subst hcs
    exact hb c (by simp)
  | @token m blanks taken rest k ts hb _ _ ih =>
    rcases split_append hcs with ⟨mid, rfl⟩ | ⟨behind, rfl, htail⟩
    · exact hb c (by simp)
    · rcases split_append htail with ⟨mid, rfl⟩ | ⟨last, rfl, hrest⟩
      · -- within the token of these characters
        refine absurd ⟨?_, ?_⟩ (hout _ (List.mem_cons_self ..))
        · show (m.advanceAll blanks).pos ≤ _
          rw [Mark.pos_advanceAll, Utf8.encode_append, List.length_append]
          omega
        · show _ < ((m.advanceAll blanks).advanceAll _).pos
          have hpos := Utf8.encode_length_pos (List.cons_ne_nil c mid)
          simp only [Mark.pos_advanceAll, Utf8.encode_append, List.length_append]
          omega
      · have hwidth : m.pos + (Utf8.encode (blanks ++ (taken ++ last))).length =
            ((m.advanceAll blanks).advanceAll taken).pos + (Utf8.encode last).length := by
          simp only [Mark.pos_advanceAll, Utf8.encode_append, List.length_append]
          omega
        rw [hwidth] at hout
        exact ih hrest fun t ht => hout t (List.mem_cons_of_mem _ ht)

end Tiled

namespace Lexer

/-- The end of the text is met behind its last blanks, where nothing is left. -/
theorem next_finish {b : Bool} {c c' : Cursor} {t : Token} (h : next b c = .ok (t, c')) (ht : t.kind = .finish) :
    c.ending = .complete ∧ (∀ ch ∈ c.rest, isBlank ch = true) ∧
      t.span = ⟨c.mark.advanceAll c.rest, c.mark.advanceAll c.rest⟩ := by
  obtain ⟨here, hs, h⟩ := bind_eq_ok.1 h
  obtain ⟨blanks, hblank, hb⟩ := Cursor.leads_skipBlanks hs
  obtain ⟨p, hp, h⟩ := bind_eq_ok.1 h
  split at h
  · cases h
    obtain ⟨m, rest, e⟩ := c'
    cases rest with
    | cons => simp [Cursor.peek] at hp
    | nil =>
      have hrest : c.rest = blanks := by simpa using hb.rest
      refine ⟨?_, ?_, ?_⟩
      · rw [← hb.ending]
        obtain ⟨u, hu, _⟩ := map_eq_ok.1 hp
        cases e with
        | complete => rfl
        | malformed | truncated => simp [Cursor.checkEnd] at hu
      · rw [hrest]
        exact hblank
      · rw [hrest, ← hb.mark]
  · obtain ⟨rest, hr⟩ := Cursor.peek_some hp
    obtain ⟨⟨k, c''⟩, hk, h⟩ := bind_eq_ok.1 h
    cases h
    exact absurd ht (leads_kindAt hr hk).1

end Lexer

namespace Lexed

/-- Reading without a fault tiles the text, which has no bytes left that are no character. -/
theorem readFrom_tiled {n : Nat} {b : Bool} {c : Cursor} (hn : c.rest.length < n) (hf : (readFrom n b c).failure = none) :
    c.ending = .complete ∧ Tiled c.mark c.rest (readFrom n b c).tokens := by
  induction n generalizing b c with
  | zero => omega
  | succ n ih =>
    cases hnext : Lexer.next b c with
    | error e =>
      rw [readFrom, hnext] at hf
      simp at hf
    | ok r =>
      obtain ⟨⟨k, sp⟩, c'⟩ := r
      rw [readFrom, hnext] at hf ⊢
      by_cases hk : k = .finish
      · subst hk
        obtain ⟨hend, hblank, hspan⟩ := Lexer.next_finish hnext rfl
        obtain rfl : sp = _ := hspan
        simp only [↓reduceIte]
        exact ⟨hend, .finish hblank⟩
      · have hlt := Lexer.next_shorter hnext hk
        obtain ⟨blanks, here, taken, hblank, hb, ht, hspan, hne⟩ := Lexer.leads_next hnext
        simp only [hk, ↓reduceIte] at hf ⊢
        obtain ⟨hend, htiled⟩ := ih (by omega) hf
        refine ⟨?_, ?_⟩
        · rw [← hb.ending, ← ht.ending, hend]
        · obtain rfl : sp = ⟨here.mark, c'.mark⟩ := hspan
          rw [ht.mark, hb.mark] at htiled
          rw [hb.rest, ht.rest, ht.mark, hb.mark]
          exact .token hblank (hne hk) htiled

/-- The tokens of a text without faults tile it. -/
theorem ofBytes_tiles {bytes : List UInt8} (h : (ofBytes bytes).failure = none) : Tiles bytes (ofBytes bytes).tokens := by
  obtain ⟨hend, htiled⟩ := readFrom_tiled (Nat.lt_succ_self _) h
  obtain ⟨tail, hbytes, htail⟩ := Utf8.encode_read bytes
  rw [htail hend, List.append_nil] at hbytes
  refine ⟨⟨_, hbytes⟩, htiled.row.pairwise, ?_, ?_⟩
  · obtain ⟨ts, last, hts, hne, hk, hstart, hstop⟩ := htiled.filled
    have hlen : (Cursor.ofBytes bytes).mark.pos + (Utf8.encode (Cursor.ofBytes bytes).rest).length = bytes.length := by
      conv_rhs => rw [hbytes]
      exact Nat.zero_add _
    exact ⟨ts, last, hts, hne, hk, hstart.trans hlen, hstop.trans hlen⟩
  · intro before after c hb hout
    have hread : (Cursor.ofBytes bytes).rest = before ++ c :: after := by
      show (Utf8.read bytes).1 = _
      rw [hb, Utf8.read_encode]
    refine htiled.blank hread ?_
    intro t ht
    have hzero : (Cursor.ofBytes bytes).mark.pos = 0 := rfl
    rw [hzero, Nat.zero_add]
    exact hout t ht

end Lexed
namespace Parsed
variable {bytes : List UInt8}

/-- The marks of a tree, and that of an error, are genuine. -/
theorem ofBytes_carries (bytes : List UInt8) :
    Carries (Mark.Genuine bytes) (fun p => p.expr.Marked (Mark.Genuine bytes)) (ofBytes bytes) := by
  obtain ⟨htokens, hfault⟩ := Lexed.ofBytes_marked bytes
  have hempty : Utf8.encode [] <+: bytes := List.nil_prefix
  have hstart : Mark.Genuine bytes {} := Mark.genuine_of_prefix hempty
  have hsentence := Sentence.marked_ofTokens hstart hfault Sentence.openMarked_none htokens
  exact hsentence.parse.bind fun _ he => Outcome.safe_ok he

/-- The source of a path is the text of its bytes. -/
theorem source_of_ok {p : Parsed} (h : ofBytes bytes = .ok p) : Utf8.encode p.source.toList = bytes := by
  obtain ⟨ks, ⟨hf, _⟩, _⟩ := yields_of_ok h
  obtain ⟨hend, _⟩ := Lexed.readFrom_tiled (Nat.lt_succ_self _) hf
  obtain ⟨tail, hbytes, htail⟩ := Utf8.encode_read bytes
  rw [htail hend, List.append_nil] at hbytes
  obtain ⟨e, _, hp⟩ := bind_eq_ok.1 h
  cases hp
  rw [String.toList_ofList]
  exact hbytes.symm

/-- Any bytes are read to their end or to a fault. Without a fault the tokens tile them, and a path that parses has them as
its source. All marks are genuine: those of tokens, of the nodes of a tree, and of faults and errors. -/
theorem tokens_and_marks (bytes : List UInt8) :
    (Lexed.ofBytes bytes).Ends ∧
      ((Lexed.ofBytes bytes).failure = none → Tiles bytes (Lexed.ofBytes bytes).tokens) ∧
      (∀ t ∈ (Lexed.ofBytes bytes).tokens, t.span.start.Genuine bytes ∧ t.span.stop.Genuine bytes) ∧
      (∀ e, (Lexed.ofBytes bytes).failure = some e → e.mark.Genuine bytes) ∧
      (∀ p, ofBytes bytes = .ok p → Utf8.encode p.source.toList = bytes ∧
        ∀ n ∈ p.expr.nodes, n.expr.span.start.Genuine bytes ∧ n.expr.span.stop.Genuine bytes) ∧
      ∀ e, ofBytes bytes = .error e → e.mark.Genuine bytes := by
  obtain ⟨htokens, hfault⟩ := Lexed.ofBytes_marked bytes
  have hparse := ofBytes_carries bytes
  refine ⟨Lexed.ofBytes_ends bytes, Lexed.ofBytes_tiles, htokens, hfault, ?_, hparse.errs⟩
  intro p hp
  exact ⟨source_of_ok hp, (hparse.of_ok hp).nodes⟩

/-- A mark behind a line break and a character of two bytes. -/
example : (Lexed.ofBytes (Utf8.encode "a\n/é ".toList)).tokens.map (fun t => (t.span.start, t.span.stop)) =
    [(⟨0, 0, 0⟩, ⟨1, 0, 1⟩), (⟨2, 1, 0⟩, ⟨3, 1, 1⟩), (⟨3, 1, 1⟩, ⟨5, 1, 2⟩), (⟨6, 1, 3⟩, ⟨6, 1, 3⟩)] := by
  decide +kernel

end Parsed
end YamlQuery.Path
