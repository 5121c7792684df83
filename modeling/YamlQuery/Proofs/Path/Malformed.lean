import YamlQuery.Proofs.Path.StackHeights
import YamlQuery.Proofs.Path.Tiling
/-!
Where bytes that are no character are reported. A path is read as text up to the first such bytes, and the fault is marked in
their place. Only a minus sign that starts a token looks at what follows it from its own place: bytes behind it are reported
at the sign.
-/
namespace YamlQuery.Path
open CharClass Outcome

namespace Lexed
variable {c : Cursor} {e : LexError} {n : Nat} {b : Bool}

def stop (r : Lexed) : Mark := (r.tokens.getLast?.map (·.span.stop)).getD {}

/-- Behind the last token there are blanks and then, at `m`, a minus sign. Decoding finds `d` behind that. -/
def MinusBefore (r : Lexed) (bytes : List UInt8) (d : Utf8.Decoded) (m : Mark) : Prop :=
  ∃ blanks tail, (∀ ch ∈ blanks, isBlank ch = true) ∧ m = r.stop.advanceAll blanks ∧
    bytes.drop r.stop.pos = Utf8.encode (blanks ++ ['-']) ++ tail ∧ Utf8.decodeOne tail = d

def Locates (r : Lexed) (bytes : List UInt8) (e : LexError) : Prop :=
  ∀ d, e.decoded? = some d → Utf8.decodeOne (bytes.drop e.mark.pos) = d ∨ r.MinusBefore bytes d e.mark

/-- The fault is found by reading a token from where the last one ends. -/
theorem next_of_failure (h : (readFrom n b c).failure = some e) :
    ∃ b' c', c.Reaches c' ∧ c'.mark = ((readFrom n b c).tokens.getLast?.map (·.span.stop)).getD c.mark ∧
      Lexer.next b' c' = .error e := by
  induction n generalizing b c with
  | zero => simp [readFrom] at h
  | succ n ih =>
    cases hn : Lexer.next b c with
    | error err =>
      rw [readFrom, hn] at h ⊢
      cases h
      exact ⟨b, c, .refl c, rfl, hn⟩
    | ok r =>
      obtain ⟨t, c'⟩ := r
      obtain ⟨blanks, here, taken, _, hb, hk, hspan, _⟩ := Lexer.leads_next hn
      rw [readFrom, hn] at h ⊢
      dsimp only at h ⊢
      split at h
      · cases h
      · next hkind =>
        obtain ⟨b', c'', hreach, hmark, hnext⟩ := ih h
        obtain ⟨taken', hleads⟩ := hreach
        refine ⟨b', c'', ((Cursor.Reaches.refl c).leads (hb.trans hk)).leads hleads, ?_, hnext⟩
        have hstop : t.span.stop = c'.mark := by rw [hspan]
        rw [if_neg hkind, hmark, List.getLast?_cons, ← hstop]
        cases (readFrom n t.kind.endsOperand c').tokens.getLast? <;> rfl

end Lexed

namespace Cursor
variable {bytes : List UInt8} {c : Cursor} {m : Mark} {ending : Utf8.Ending} {r : Lexed}

/-- From a place on, the bytes spell what is left of the text, and what ends the text stands behind that. -/
theorem decodeOne_behind (h : (ofBytes bytes).Reaches c) :
    ∃ tail, bytes.drop c.mark.pos = Utf8.encode c.rest ++ tail ∧ Utf8.decodeOne tail = c.ending.decoded := by
  obtain ⟨taken, hrest, hmark, hending⟩ := h
  obtain ⟨tail, hbytes, hend⟩ := Utf8.decodeOne_behind_read bytes
  have hread : (Utf8.read bytes).1 = taken ++ c.rest := hrest
  have hpos : c.mark.pos = (Utf8.encode taken).length := by
    rw [hmark, Mark.pos_advanceAll]
    exact Nat.zero_add _
  refine ⟨tail, ?_, ?_⟩
  · conv_lhs => rw [hbytes, hread, Utf8.encode_append, List.append_assoc, hpos]
    exact List.drop_left
  · rw [hend]
    exact congrArg Utf8.Ending.decoded hending.symm

theorem errs_locates (h : Utf8.decodeOne (bytes.drop m.pos) = ending.decoded ∨ r.MinusBefore bytes ending.decoded m) :
    Errs (r.Locates bytes) (checkEnd ending m) := by
  cases ending with
  | complete => exact errs_ok ()
  | malformed | truncated =>
    refine errs_error ?_
    intro d hd
    cases hd
    exact h

theorem admits_locates (bytes : List UInt8) (r : Lexed) : (ofBytes bytes).Admits (r.Locates bytes) where
  placed := by
    intro e hnone _ d hd
    rw [hnone] at hd
    cases hd
  ended := by
    intro m e h
    obtain ⟨tail, hdrop, hend⟩ := decodeOne_behind h
    apply errs_locates
    left
    rw [show bytes.drop m.pos = tail from hdrop]
    exact hend

end Cursor

theorem Lexed.locates_failure (bytes : List UInt8) {e : LexError} (h : (ofBytes bytes).failure = some e) :
    (ofBytes bytes).Locates bytes e := by
  obtain ⟨b, c, hreach, hstop, hnext⟩ := next_of_failure h
  have hmark : (ofBytes bytes).stop = c.mark := hstop.symm
  refine Lexer.errs_next (Cursor.admits_locates bytes (ofBytes bytes)) b hreach ?_ e hnext
  intro blanks here hblank hb hminus
  obtain ⟨tail, hdrop, hend⟩ := Cursor.decodeOne_behind hreach
  refine Cursor.errs_locates (.inr ⟨blanks, tail, hblank, ?_, ?_, ?_⟩)
  · rw [hmark, hb.mark]
  · rw [hmark, hdrop, hb.rest, hminus]
  · rw [hend, hb.ending]

namespace Parsed

/-- A fault of the text that a parse reports is the one that cut the tokens off. -/
theorem failure_of_lex {bytes : List UInt8} {e : LexError} (h : ofBytes bytes = .error (.lex e)) :
    (Lexed.ofBytes bytes).failure = some e :=
  errs_ofBytes bytes (.lex e) h

/-- A fault of the bytes, reported with the tokens of a path or by its parse, is marked behind bytes that spell a text. It
stands at the mark, unless a minus sign that starts a token stands there: then it stands behind the sign. -/
theorem malformed_located {bytes : List UInt8} {e : LexError} {d : Utf8.Decoded}
    (h : (Lexed.ofBytes bytes).failure = some e ∨ ofBytes bytes = .error (.lex e)) (hd : e.decoded? = some d) :
    e.mark.Genuine bytes ∧
      (Utf8.decodeOne (bytes.drop e.mark.pos) = d ∨ (Lexed.ofBytes bytes).MinusBefore bytes d e.mark) := by
  have hfailure : (Lexed.ofBytes bytes).failure = some e := h.elim id failure_of_lex
  exact ⟨(Lexed.ofBytes_marked bytes).2 e hfailure, Lexed.locates_failure bytes hfailure d hd⟩

/-- A character cut off behind a line break. -/
theorem malformed_located_truncated :
    ((Lexed.ofBytes [0x61, 0x0A, 0xC3]).failure = some (.partialUtf8 ⟨2, 1, 0⟩)) ∧
      Mark.Genuine [0x61, 0x0A, 0xC3] ⟨2, 1, 0⟩ ∧ (Utf8.decodeOne [0xC3] = .truncated ∨
        (Lexed.ofBytes [0x61, 0x0A, 0xC3]).MinusBefore [0x61, 0x0A, 0xC3] .truncated ⟨2, 1, 0⟩) := by
  have hfailure : (Lexed.ofBytes [0x61, 0x0A, 0xC3]).failure = some (.partialUtf8 ⟨2, 1, 0⟩) := by decide +kernel
  exact ⟨hfailure, malformed_located (.inl hfailure) rfl⟩

/-- Behind a minus sign the fault is reported at the sign, which is a character. -/
theorem malformed_behind_minus :
    (Lexed.ofBytes [0x2D, 0xFF]).failure = some (.invalidUtf8 ⟨0, 0, 0⟩) ∧
      ofBytes [0x2D, 0xFF] = .error (.lex (.invalidUtf8 ⟨0, 0, 0⟩)) ∧
      Utf8.decodeOne [0x2D, 0xFF] = .char '-' 1 ∧ Utf8.decodeOne [0xFF] = .malformed :=
  ⟨by decide +kernel, rfl, by decide +kernel, by decide +kernel⟩

end Parsed
end YamlQuery.Path
