import YamlQuery.Proofs.Path.JsonLiteral
import YamlQuery.Proofs.Path.Placement
/-!
Keys as they are written in a path: between quotes, or as JSON text between braces. Reading undoes the writing, whatever the
key holds and whatever text follows it.
-/
namespace YamlQuery.Path
open CharClass

def quoted (style : Escape.Quoting) (quote : Char) (s : String) : List Char :=
  quote :: (Escape.renderAll style s.toList ++ [quote])

def braced (v : JsonValue) : List Char := '\x7b' :: (v.compact.toList ++ ['\x7d'])

namespace Lexer

/-- A character that is written between single quotes is read back. -/
theorem singleQuoted_render (start m : Mark) (c : Char) (rest : List Char) :
    ∃ m', singleQuoted start .complete m (Escape.render .single c ++ rest) =
      prepend c (singleQuoted start .complete m' rest) := by
  by_cases hc : c = '\''
  · subst hc
    exact ⟨_, singleQuoted_pair⟩
  · refine ⟨m.advance c, ?_⟩
    rw [Escape.render, if_neg hc, List.singleton_append, singleQuoted_plain hc]

theorem singleQuoted_renderAll (start m : Mark) (cs : List Char) {rest : List Char} (h : rest.head? ≠ some '\'') :
    ∃ m', singleQuoted start .complete m (Escape.renderAll .single cs ++ '\'' :: rest) =
      .ok (cs, ⟨m', rest, .complete⟩) :=
  read_renderAll (singleQuoted_render start) (fun _ => (singleQuoted_close h).trans (by rw [Cursor.peek_complete]; rfl)) m cs

theorem takes_singleQuoted (b : Bool) (cs : List Char) {rest : List Char} (h : rest.head? ≠ some '\'') :
    Takes b ('\'' :: (Escape.renderAll .single cs ++ '\'' :: rest)) (.key (String.ofList cs)) rest := by
  have hb : isBlank '\'' = false := by decide
  obtain ⟨m', hread⟩ := singleQuoted_renderAll {} (Mark.advance {} '\'') cs h
  have hk : kindAt b '\'' ⟨{}, '\'' :: (Escape.renderAll .single cs ++ '\'' :: rest), .complete⟩ =
      (singleQuoted {} .complete (Mark.advance {} '\'') (Escape.renderAll .single cs ++ '\'' :: rest)).map fun r =>
        (.key (String.ofList r.1), r.2) := rfl
  rw [hread] at hk
  exact takes_cons hb hk

end Lexer

namespace Lexed

/-- A text between quotes is read as the key that it was, and its token covers the quotes and what is between them. Behind
single quotes no other one may follow. -/
theorem head_quoted (s r : String) :
    (ofBytes (Utf8.encode (quoted .double '"' s ++ r.toList))).tokens.head? =
        some ⟨.key s, ⟨{}, Mark.advanceAll {} (quoted .double '"' s)⟩⟩ ∧
      (r.toList.head? ≠ some '\'' →
        (ofBytes (Utf8.encode (quoted .single '\'' s ++ r.toList))).tokens.head? =
          some ⟨.key s, ⟨{}, Mark.advanceAll {} (quoted .single '\'' s)⟩⟩) := by
  constructor
  · have htakes := Lexer.takes_quoted false s.toList r.toList
    rw [String.ofList_toList] at htakes
    exact head_of_takes (by decide) (by simpa using htakes)
  · intro hr
    have htakes := Lexer.takes_singleQuoted false s.toList hr
    rw [String.ofList_toList] at htakes
    exact head_of_takes (by decide) (by simpa using htakes)

/-- A quote within single quotes, and a path behind them. -/
theorem head_quoted_apostrophe :
    (ofBytes (Utf8.encode (quoted .single '\'' "it's" ++ "/a".toList))).tokens.head? =
      some ⟨.key "it's", ⟨{}, ⟨7, 0, 7⟩⟩⟩ := (head_quoted "it's" "/a").2 (by decide)

/-- JSON text between braces is read as a key literal with that text, and its token ends with the closing brace. -/
theorem head_braced (v : JsonValue) (r : String) :
    (ofBytes (Utf8.encode (braced v ++ r.toList))).tokens.head? =
      some ⟨.keyLiteral v.compact, ⟨{}, Mark.advanceAll {} (braced v)⟩⟩ := by
  have htakes := Lexer.takes_literal false v r.toList
  exact head_of_takes (by decide) (by simpa using htakes)

end Lexed
end YamlQuery.Path
