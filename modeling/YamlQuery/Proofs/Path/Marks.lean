import Mathlib.Data.List.Induction
import YamlQuery.Proofs.Path.Tokens
import YamlQuery.Proofs.Text.Utf8
/-!
Marks of tokens and faults. Every mark that the lexer reports is that of a place in the text, so the bytes before it are
characters and it counts their bytes, lines and columns. The tokens of a text without faults cover it up to blanks.
-/
namespace YamlQuery.Path
open CharClass Outcome

namespace Mark

/-- The bytes before the mark spell a text, whose lines the mark counts, and the characters of the last of them. -/
def Genuine (bytes : List UInt8) (m : Mark) : Prop :=
  m.pos ≤ bytes.length ∧ ∃ before : List Char, bytes.take m.pos = Utf8.encode before ∧
    m.line = before.count '\n' ∧ m.column = (before.reverse.takeWhile (· ≠ '\n')).length

theorem advanceAll_append (m : Mark) (as bs : List Char) : m.advanceAll (as ++ bs) = (m.advanceAll as).advanceAll bs :=
  List.foldl_append

theorem pos_advance (m : Mark) (c : Char) : (m.advance c).pos = m.pos + (String.utf8EncodeChar c).length := by
  rw [advance, String.length_utf8EncodeChar]
  split <;> rfl

theorem pos_advanceAll (m : Mark) (cs : List Char) : (m.advanceAll cs).pos = m.pos + (Utf8.encode cs).length := by
  induction cs generalizing m with
  | nil => rfl
  | cons c cs ih =>
    have h : m.advanceAll (c :: cs) = (m.advance c).advanceAll cs := rfl
    rw [h, ih, pos_advance, Utf8.encode_cons, List.length_append, Nat.add_assoc]

/-- From the start of a text a mark counts lines and columns. -/
theorem advanceAll_counts (before : List Char) :
    (({} : Mark).advanceAll before).line = before.count '\n' ∧
      (({} : Mark).advanceAll before).column = (before.reverse.takeWhile (· ≠ '\n')).length := by
  induction before using List.reverseRecOn with
  | nil => exact ⟨rfl, rfl⟩
  | append_singleton before c ih =>
    have h : ({} : Mark).advanceAll (before ++ [c]) = (({} : Mark).advanceAll before).advance c := advanceAll_append _ _ _
    rw [h, advance]
    by_cases hc : c = '\n'
    · simp [hc, ih.1]
    · simp [hc, ih.1, ih.2]

theorem genuine_of_prefix {bytes : List UInt8} {before : List Char} (h : Utf8.encode before <+: bytes) :
    Genuine bytes (({} : Mark).advanceAll before) := by
  have hpos : (({} : Mark).advanceAll before).pos = (Utf8.encode before).length := by
    rw [pos_advanceAll, Nat.zero_add]
  obtain ⟨hline, hcolumn⟩ := advanceAll_counts before
  refine ⟨?_, before, ?_, hline, hcolumn⟩
  · rw [hpos]
    exact h.length_le
  · rw [hpos]
    exact (List.prefix_iff_eq_take.1 h).symm

end Mark

def LexError.decoded? : LexError → Option Utf8.Decoded
  | invalidUtf8 _ => some .malformed
  | partialUtf8 _ => some .truncated
  | _ => none

namespace Cursor

def Reaches (o c : Cursor) : Prop := ∃ taken, o.Leads taken c

def Marks (o : Cursor) (m : Mark) : Prop := ∃ taken, taken <+: o.rest ∧ m = o.mark.advanceAll taken

variable {o c c' : Cursor} {m : Mark} {ch : Char} {cs taken : List Char} {e : Utf8.Ending}

theorem Reaches.refl (o : Cursor) : o.Reaches o := ⟨[], .refl o⟩

theorem Reaches.leads (h : o.Reaches c) (ht : c.Leads taken c') : o.Reaches c' := by
  obtain ⟨before, hb⟩ := h
  exact ⟨_, hb.trans ht⟩

theorem Reaches.step (h : o.Reaches ⟨m, ch :: cs, e⟩) : o.Reaches ⟨m.advance ch, cs, e⟩ := h.leads (leads_cons m ch cs e)

theorem Reaches.marks (h : o.Reaches c) : o.Marks c.mark := by
  obtain ⟨taken, ht⟩ := h
  exact ⟨taken, ⟨c.rest, ht.rest.symm⟩, ht.mark⟩

/-- The faults that reading from `o` on finds satisfy `E`: those of the characters at a place, and that of the bytes where
the characters end. -/
structure Admits (o : Cursor) (E : LexError → Prop) : Prop where
  placed : ∀ {e}, e.decoded? = none → o.Marks e.mark → E e
  ended : ∀ {m e}, o.Reaches ⟨m, [], e⟩ → Errs E (checkEnd e m)

theorem errs_checkEnd (h : o.Marks m) (e : Utf8.Ending) : Errs (fun e => o.Marks e.mark) (checkEnd e m) := by
  cases e with
  | complete => exact errs_ok ()
  | malformed | truncated => exact errs_error h

theorem admits_marks (o : Cursor) : o.Admits fun e => o.Marks e.mark := ⟨fun _ h => h, fun h => errs_checkEnd h.marks _⟩

variable {E : LexError → Prop} (hE : o.Admits E)
include hE

theorem errs_peek (h : o.Reaches c) : Errs E c.peek := by
  obtain ⟨m, rest, ending⟩ := c
  cases rest with
  | cons => exact errs_ok _
  | nil => exact (hE.ended h).map _

theorem errs_takeWhile (h : o.Reaches c) (p : Char → Bool) : Errs E (c.takeWhile p) := by
  have hafter : c.Leads (c.rest.takeWhile p) ⟨c.mark.advanceAll (c.rest.takeWhile p), c.rest.dropWhile p, c.ending⟩ :=
    ⟨List.takeWhile_append_dropWhile.symm, rfl, rfl⟩
  exact (errs_peek hE (h.leads hafter)).map _

theorem errs_skipBlanks (h : o.Reaches c) : Errs E c.skipBlanks := (errs_takeWhile hE h isBlank).map _

end Cursor

namespace Lexer
open Cursor
variable {o here after : Cursor} {start m : Mark} {cs : List Char} {e : Utf8.Ending} {E : LexError → Prop} (hE : o.Admits E)
include hE

theorem errs_unterminated {α : Type} {err : LexError} (herr : E err) (h : o.Reaches ⟨m, [], e⟩) :
    Errs E (unterminated e m err : Except LexError α) := by
  unfold unterminated
  split
  · next fault hf => exact errs_error (hE.ended h fault hf)
  · exact errs_error herr

theorem errs_doubleQuoted {skip : Nat} (hs : o.Marks start) (h : o.Reaches ⟨m, cs, e⟩) :
    Errs E (doubleQuoted start e skip m cs) := by
  induction skip, cs using doubleQuoted_induction generalizing m with
  | nil skip =>
    rw [doubleQuoted]
    exact errs_unterminated hE (hE.placed rfl hs) h
  | skipped skip c cs ih =>
    rw [doubleQuoted]
    exact ih h.step
  | close cs =>
    rw [doubleQuoted_close]
    exact errs_ok _
  | escape hd ih =>
    rw [doubleQuoted_escape hd]
    exact (ih h.step).map _
  | fault hd =>
    rw [doubleQuoted_fault hd]
    split
    · exact errs_error (hE.placed rfl hs)
    · exact errs_error (hE.placed rfl h.marks)
  | plain hq hb ih =>
    rw [doubleQuoted_plain hq hb]
    exact (ih h.step).map _

theorem errs_singleQuoted (hs : o.Marks start) (h : o.Reaches ⟨m, cs, e⟩) : Errs E (singleQuoted start e m cs) := by
  induction cs using singleQuoted_induction generalizing m with
  | nil =>
    rw [singleQuoted]
    exact errs_unterminated hE (hE.placed rfl hs) h
  | pair cs ih =>
    rw [singleQuoted_pair]
    exact (ih h.step.step).map _
  | close hd =>
    rw [singleQuoted_close hd]
    exact (errs_peek hE h.step).map _
  | plain hc ih =>
    rw [singleQuoted_plain hc]
    exact (ih h.step).map _

theorem errs_keyLiteral {s : LiteralState} (hs : o.Marks start) (h : o.Reaches ⟨m, cs, e⟩) :
    Errs E (keyLiteral start e s m cs) := by
  induction s, cs using keyLiteral_induction generalizing m with
  | nil s =>
    rw [keyLiteral_nil]
    exact errs_unterminated hE (hE.placed rfl hs) h
  | close before cs =>
    rw [keyLiteral_close]
    exact errs_ok _
  | fault hb ht =>
    rw [keyLiteral_fault hb ht]
    exact errs_error (hE.placed rfl h.marks)
  | @step s taken rest s' hstep ih =>
    rw [keyLiteral_step hstep]
    exact errs_prependAll taken (ih (h.leads (leads_append m taken rest e)))

theorem errs_name (kind : String → TokenKind) (h : o.Reaches here) : Errs E (name kind here) :=
  (errs_takeWhile hE h continuesName).map _

theorem errs_number (sign : List Char) (h : o.Reaches here) : Errs E (number sign here) :=
  (errs_takeWhile hE h isDigit).map _

theorem errs_doubled (c : Char) (one two : TokenKind) (h : o.Reaches after) : Errs E (doubled c one two after) := by
  refine (errs_peek hE h).bind ?_
  intro p _
  split <;> exact errs_ok _

theorem errs_star (h : o.Reaches after) : Errs E (star after) := by
  refine (errs_peek hE h).bind ?_
  intro p _
  split
  · exact errs_ok _
  · split
    · exact errs_name hE _ h
    · exact errs_ok _
  · exact errs_ok _

theorem errs_ampersand (b : Bool) (h : o.Reaches after) : Errs E (ampersand b after) := by
  refine (errs_peek hE h).bind ?_
  intro p _
  split
  · split
    · exact errs_ok _
    · split
      · exact errs_name hE _ h
      · exact errs_ok _
  · exact errs_ok _

theorem errs_bracket (h : o.Reaches after) : Errs E (bracket after) := by
  refine (errs_skipBlanks hE h).bind ?_
  intro c hc
  obtain ⟨blanks, _, hb⟩ := leads_skipBlanks hc
  refine (errs_peek hE (h.leads hb)).bind ?_
  intro p _
  split <;> exact errs_ok _

theorem errs_brace (hs : o.Marks start) (h : o.Reaches after) : Errs E (brace start after) := by
  refine (errs_skipBlanks hE h).bind ?_
  intro c hc
  obtain ⟨blanks, _, hb⟩ := leads_skipBlanks hc
  refine (errs_peek hE (h.leads hb)).bind ?_
  intro p _
  split
  · exact errs_ok _
  · refine (errs_keyLiteral hE hs (h.leads hb)).bind ?_
    exact fun _ _ => errs_ok _

theorem errs_kindAt (b : Bool) {ch : Char} {rest : List Char} (hr : here.rest = ch :: rest) (h : o.Reaches here)
    (hminus : here.rest = ['-'] → Errs E (checkEnd here.ending here.mark)) : Errs E (kindAt b ch here) := by
  have hafter : o.Reaches here.advance := h.leads (leads_advance hr)
  unfold kindAt
  dsimp only
  split
  · exact errs_ok _
  · split
    · exact errs_doubled hE _ _ _ hafter
    · exact errs_doubled hE _ _ _ hafter
    · exact errs_star hE hafter
    · exact errs_ampersand hE b hafter
    · exact errs_bracket hE hafter
    · exact errs_brace hE h.marks hafter
    · exact (errs_doubleQuoted hE h.marks hafter).map _
    · exact (errs_singleQuoted hE h.marks hafter).map _
    · split
      · split
        · exact errs_number hE _ hafter
        · exact errs_error (hE.placed rfl h.marks)
      · next hnil =>
        have hrest : here.rest = ['-'] := by
          rw [Cursor.advance, hr] at hnil
          rw [hr, show rest = [] from hnil]
        refine (hminus hrest).bind ?_
        exact fun _ _ => errs_error (hE.placed rfl h.marks)
    · split
      · exact errs_number hE _ h
      · split
        · exact errs_name hE _ h
        · exact errs_error (hE.placed rfl h.marks)

/-- Only a minus sign that starts a token, and ends the characters, looks at the bytes behind them from another place. -/
theorem errs_next (b : Bool) {c : Cursor} (h : o.Reaches c)
    (hminus : ∀ blanks here, (∀ ch ∈ blanks, isBlank ch = true) → c.Leads blanks here → here.rest = ['-'] →
      Errs E (checkEnd here.ending here.mark)) : Errs E (next b c) := by
  refine (errs_skipBlanks hE h).bind ?_
  intro here hs
  obtain ⟨blanks, hblank, hb⟩ := leads_skipBlanks hs
  have hhere := h.leads hb
  refine (errs_peek hE hhere).bind ?_
  intro p hp
  split
  · exact errs_ok _
  · obtain ⟨rest, hr⟩ := peek_some hp
    exact (errs_kindAt hE b hr hhere (hminus blanks here hblank hb)).bind fun _ _ => errs_ok _

end Lexer

namespace Lexed
open Cursor

def Marked (P : Mark → Prop) (r : Lexed) : Prop :=
  (∀ t ∈ r.tokens, P t.span.start ∧ P t.span.stop) ∧ ∀ e, r.failure = some e → P e.mark

theorem readFrom_marked {o c : Cursor} (h : o.Reaches c) (n : Nat) (b : Bool) : (readFrom n b c).Marked o.Marks := by
  induction n generalizing b c with
  | zero => exact ⟨by simp [readFrom], by simp [readFrom]⟩
  | succ n ih =>
    cases hn : Lexer.next b c with
    | error err =>
      have hmark : o.Marks err.mark :=
        Lexer.errs_next (admits_marks o) b h (fun _ _ _ hb _ => errs_checkEnd (h.leads hb).marks _) err hn
      rw [readFrom, hn]
      exact ⟨by simp, by simpa using hmark⟩
    | ok r =>
      obtain ⟨t, c'⟩ := r
      obtain ⟨blanks, here, taken, _, hb, hk, hspan, _⟩ := Lexer.leads_next hn
      have hhere := h.leads hb
      have hc' := hhere.leads hk
      have ht : o.Marks t.span.start ∧ o.Marks t.span.stop := by
        rw [hspan]
        exact ⟨hhere.marks, hc'.marks⟩
      rw [readFrom, hn]
      dsimp only
      split
      · exact ⟨by simpa using ht, by simp⟩
      · obtain ⟨htokens, hfault⟩ := ih hc' t.kind.endsOperand
        refine ⟨?_, hfault⟩
        intro u hu
        rcases List.mem_cons.1 hu with rfl | hu
        · exact ht
        · exact htokens u hu

theorem genuine_of_marks {bytes : List UInt8} {m : Mark} (h : (Cursor.ofBytes bytes).Marks m) : m.Genuine bytes := by
  obtain ⟨before, ⟨after, hafter⟩, rfl⟩ := h
  obtain ⟨tail, htail, _⟩ := Utf8.encode_read bytes
  have hread : before ++ after = (Utf8.read bytes).1 := hafter
  refine Mark.genuine_of_prefix ⟨Utf8.encode after ++ tail, ?_⟩
  rw [htail, ← hread, Utf8.encode_append, List.append_assoc]

/-- The marks of tokens and of a fault are genuine. -/
theorem ofBytes_marked (bytes : List UInt8) : (ofBytes bytes).Marked (Mark.Genuine bytes) := by
  obtain ⟨htokens, hfault⟩ := readFrom_marked (.refl (Cursor.ofBytes bytes)) ((Cursor.ofBytes bytes).rest.length + 1) false
  refine ⟨?_, ?_⟩
  · intro t ht
    exact ⟨genuine_of_marks (htokens t ht).1, genuine_of_marks (htokens t ht).2⟩
  · intro e he
    exact genuine_of_marks (hfault e he)

end Lexed
end YamlQuery.Path
