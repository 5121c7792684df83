import YamlQuery.Proofs.Path.Marks
import YamlQuery.Proofs.Path.Scanning
/-!
Where tokens stand. A token at the start of a text is read with the span of its characters, so the tokens of a text without
blanks between them stand one right behind the other. In a line of one-byte characters a mark counts characters.
-/
namespace YamlQuery.Path
open CharClass

def Mark.inLine (n : Nat) : Mark := ⟨n, 0, n⟩

def Narrow (c : Char) : Prop := c.utf8Size = 1 ∧ c ≠ '\n'

theorem Mark.advanceAll_inLine {cs : List Char} (h : ∀ c ∈ cs, Narrow c) (n : Nat) :
    (inLine n).advanceAll cs = inLine (n + cs.length) := by
  induction cs generalizing n with
  | nil => rfl
  | cons c cs ih =>
    obtain ⟨hc, hcs⟩ := List.forall_mem_cons.1 h
    have hstep : (inLine n).advance c = inLine (n + 1) := by
      rw [advance, if_neg hc.2, hc.1]
      rfl
    have htail : (inLine n).advanceAll (c :: cs) = ((inLine n).advance c).advanceAll cs := rfl
    rw [htail, hstep, ih hcs, List.length_cons, Nat.add_assoc, Nat.add_comm 1]

namespace Lexer

variable {b : Bool} {m : Mark} {rest taken : List Char} {k : TokenKind} {d : Char}

/-- A token at the start of the text: its span is that of its characters. -/
theorem Takes.next_at (hd : isBlank d = false) (h : Takes b (d :: taken ++ rest) k rest) (m : Mark) :
    Lexer.next b ⟨m, d :: taken ++ rest, .complete⟩ =
      .ok (⟨k, ⟨m, m.advanceAll (d :: taken)⟩⟩, ⟨m.advanceAll (d :: taken), rest, .complete⟩) := by
  obtain ⟨⟨k', sp⟩, m', hnext, rfl⟩ := h.next m
  obtain ⟨blanks, here, own, hblank, hb, hown, hspan, -⟩ := leads_next hnext
  have hsplit : d :: taken ++ rest = blanks ++ (own ++ rest) := hb.rest.trans (congrArg (blanks ++ ·) hown.rest)
  have hnone : blanks = [] := by
    cases blanks with
    | nil => rfl
    | cons e es =>
      obtain ⟨rfl, -⟩ := List.cons.inj hsplit
      rw [hblank d (by simp)] at hd
      cases hd
  subst hnone
  have htaken : d :: taken = own := List.append_cancel_right hsplit
  have hstart : here.mark = m := hb.mark
  have hstop : m' = m.advanceAll (d :: taken) := by
    rw [htaken, ← hstart]
    exact hown.mark
  rw [hnext, show sp = ⟨here.mark, m'⟩ from hspan, hstart, hstop]

end Lexer

inductive Adjoining : Bool → Mark → List Char → List Token → Prop
  | finish {b : Bool} {m : Mark} : Adjoining b m [] [⟨.finish, ⟨m, m⟩⟩]
  | token {b : Bool} {m : Mark} {d : Char} {taken rest : List Char} {k : TokenKind} {ts : List Token}
    (hd : isBlank d = false) (h : Lexer.Takes b (d :: taken ++ rest) k rest)
    (t : Adjoining k.endsOperand (m.advanceAll (d :: taken)) rest ts) :
    Adjoining b m (d :: taken ++ rest) (⟨k, ⟨m, m.advanceAll (d :: taken)⟩⟩ :: ts)

theorem Adjoining.readFrom {n : Nat} {b : Bool} {m : Mark} {cs : List Char} {ts : List Token} (h : Adjoining b m cs ts)
    (hn : cs.length < n) : Lexed.readFrom n b ⟨m, cs, .complete⟩ = ⟨ts, none⟩ := by
  induction h generalizing n with
  | finish =>
    obtain ⟨n, rfl⟩ := Nat.exists_eq_succ_of_ne_zero (by omega : n ≠ 0)
    rfl
  | @token b m d taken rest k ts hd h _ ih =>
    obtain ⟨n, rfl⟩ := Nat.exists_eq_succ_of_ne_zero (by omega : n ≠ 0)
    rw [Lexed.readFrom, h.next_at hd m]
    have hk : k ≠ .finish := h.ne_finish
    rw [List.length_append, List.length_cons] at hn
    simp only [hk, ↓reduceIte, @ih n (by omega)]

theorem Cursor.ofBytes_encode (cs : List Char) : ofBytes (Utf8.encode cs) = ⟨{}, cs, .complete⟩ := by
  rw [ofBytes, Utf8.read_encode]

/-- The token that a text starts with, whatever follows: its span is that of its characters. -/
theorem Lexed.head_of_takes {d : Char} {taken rest : List Char} {k : TokenKind} (hd : isBlank d = false)
    (h : Lexer.Takes false (d :: taken ++ rest) k rest) :
    (ofBytes (Utf8.encode (d :: taken ++ rest))).tokens.head? = some ⟨k, ⟨{}, Mark.advanceAll {} (d :: taken)⟩⟩ := by
  have hk : k ≠ .finish := h.ne_finish
  rw [ofBytes, Cursor.ofBytes_encode, readFrom, h.next_at hd]
  simp only [hk, ↓reduceIte, List.head?_cons]

/-- A text of adjoining tokens parses as they do. -/
theorem Parsed.ofText_adjoining {text : String} {ts : List Token} (h : Adjoining false {} text.toList ts) :
    ofText text = (Sentence.ofTokens none none ts).parse.map fun e => ⟨e, text⟩ := by
  have hlexed : Lexed.ofBytes (Utf8.encode text.toList) = ⟨ts, none⟩ := by
    rw [Lexed.ofBytes, Cursor.ofBytes_encode]
    exact h.readFrom (Nat.lt_succ_self _)
  rw [ofText, ofBytes, hlexed, Utf8.read_encode, String.ofList_toList]
  cases (Sentence.ofTokens none none ts).parse <;> rfl

end YamlQuery.Path
