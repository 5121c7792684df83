import YamlQuery.Proofs.Path.Grouping
import YamlQuery.Proofs.Outcome
/-!
The faults a parse reports: those of the grammar, and the one that cut the tokens off. Operands that no operator joins are
none of them.
-/
namespace YamlQuery.Path
open Outcome

def ParseError.Reported (failure : Option LexError) : ParseError → Prop
  | .lex e => failure = some e
  | .incompleteExpression _ => False
  | _ => True

open ParseError
variable {failure : Option LexError}

namespace Symbol

theorem errs_integer (text : String) (m : Mark) : Errs (Reported failure) (integer text m) := by
  unfold integer
  split
  · exact errs_ok _
  · exact errs_error trivial

theorem errs_keyLiteral (text : String) (sp : Span) : Errs (Reported failure) (keyLiteral text sp) := by
  unfold keyLiteral
  split
  · exact errs_error trivial
  · split
    · exact errs_error trivial
    · exact errs_ok _

theorem errs_siblingKey (t : Token) : Errs (Reported failure) (siblingKey t) := by
  unfold siblingKey
  split
  · exact errs_ok _
  · exact errs_keyLiteral _ _
  · exact errs_error trivial

theorem errs_fields (done : List (List Token)) (last ts : List Token) : Errs (Reported failure) (fields done last ts) := by
  induction ts generalizing done last with
  | nil => exact errs_ok _
  | cons t ts ih =>
    rw [fields]
    split
    · split
      · exact errs_error trivial
      · exact ih _ _
    · exact errs_error trivial
    · exact ih _ _

theorem errs_field (ts : List Token) : Errs (Reported failure) (field ts) := by
  match ts with
  | [] => exact errs_ok _
  | [t] =>
    rw [field]
    split
    · exact (errs_integer _ _).map _
    · exact errs_error trivial
  | _ :: _ :: _ => exact errs_error trivial

theorem errs_slice (ts : List Token) (sp : Span) : Errs (Reported failure) (slice ts sp) := by
  refine (errs_fields [] [] ts).bind fun fs _ => ?_
  refine (errs_mapM fun f _ => errs_field f).bind fun values _ => ?_
  dsimp only
  split
  · split
    · exact errs_error trivial
    · exact errs_ok _
  · exact errs_ok _

theorem errs_indices (close : Mark) (expecting : Bool) (ts : List Token) : Errs (Reported failure) (indices close expecting ts) := by
  induction ts generalizing expecting with
  | nil =>
    rw [indices]
    split
    · exact errs_error trivial
    · exact errs_ok _
  | cons t ts ih =>
    rw [indices]
    split
    · split
      · exact errs_error trivial
      · exact ih true
    · split
      · refine (errs_integer _ _).bind fun i _ => ?_
        exact (ih false).bind fun es _ => errs_ok _
      · exact errs_error trivial
    · exact errs_error trivial

theorem errs_bracket (ts : List Token) (close : Mark) (sp : Span) : Errs (Reported failure) (bracket ts close sp) := by
  unfold bracket
  split
  · exact errs_slice ts sp
  · exact (errs_indices close true ts).map _

end Symbol

namespace Sentence
variable {r : Sentence}

theorem errs_fail {e : ParseError} (h : e.Reported failure) : Errs (Reported failure) (fail e).ending := errs_error h

theorem errs_consPiece {made : Except ParseError (List Symbol)} (h : Errs (Reported failure) r.ending)
    (hm : Errs (Reported failure) made) : Errs (Reported failure) (consPiece made r).ending := by
  cases made with
  | error e => exact errs_fail (hm e rfl)
  | ok ss => exact h

theorem Piece.errs {b b' : Option Symbol.OpenBracket} {taken rest : List Token} {made : Except ParseError (List Symbol)}
    (h : Piece b taken rest b' made) : Errs (Reported failure) made := by
  cases h with
  | inner | bracket | sign | word => exact errs_ok _
  | close => exact (Symbol.errs_bracket _ _ _).map _
  | unclosed | foreign | stray => exact errs_error trivial
  | keyLiteral => exact (Symbol.errs_keyLiteral _ _).map _
  | sibling => exact (Symbol.errs_siblingKey _).map _
  | number => exact (Symbol.errs_integer _ _).map _
  | range => exact (Symbol.errs_integer _ _).bind fun _ _ => (Symbol.errs_integer _ _).map _

/-- Grouping tokens passes on the fault that cut them off. -/
theorem errs_ofTokens (failure : Option LexError) (b : Option Symbol.OpenBracket) (ts : List Token) :
    Errs (Reported failure) (ofTokens failure b ts).ending := by
  induction b, ts using piece_induction with
  | nil b =>
    rw [ofTokens_nil]
    cases failure with
    | none => exact errs_ok _
    | some e => exact errs_fail rfl
  | finish sp ts =>
    rw [ofTokens_finish]
    exact errs_ok _
  | colon sp =>
    rw [ofTokens_colon]
    cases failure with
    | none => exact errs_fail trivial
    | some e => exact errs_fail rfl
  | piece hp ih =>
    rw [ofTokens_piece hp]
    exact errs_consPiece ih hp.errs

end Sentence
end YamlQuery.Path
