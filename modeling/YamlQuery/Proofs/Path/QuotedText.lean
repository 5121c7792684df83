import YamlQuery.Path.Lexer
import YamlQuery.Proofs.Outcome
/-!
Texts that end with a character of their own: quoted texts and key literals, by what their readers do with the characters
that come next.
-/
namespace YamlQuery.Path
open CharClass Outcome

namespace Lexer
variable {start m : Mark} {e : Utf8.Ending} {c : Char} {cs text : List Char} {c' : Cursor}

theorem unterminated_ne_ok {α : Type} {fault : LexError} {a : α} : unterminated e m fault ≠ .ok a := by
  unfold unterminated
  split <;> simp

theorem prepend_eq_ok {x : Except LexError (List Char × Cursor)} (h : prepend c x = .ok (text, c')) :
    ∃ text', x = .ok (text', c') ∧ text = c :: text' := by
  obtain ⟨⟨text', c''⟩, hx, h⟩ := map_eq_ok.1 h
  cases h
  exact ⟨text', hx, rfl⟩

theorem prependAll_ok (taken text : List Char) (c' : Cursor) :
    taken.foldr prepend (.ok (text, c')) = .ok (taken ++ text, c') := by
  induction taken with
  | nil => rfl
  | cons d taken ih =>
    rw [List.foldr_cons, ih]
    rfl

theorem prependAll_eq_ok {taken : List Char} {x : Except LexError (List Char × Cursor)}
    (h : taken.foldr prepend x = .ok (text, c')) : ∃ text', x = .ok (text', c') ∧ text = taken ++ text' := by
  induction taken generalizing text with
  | nil => exact ⟨text, h, rfl⟩
  | cons d taken ih =>
    obtain ⟨text₁, h₁, rfl⟩ := prepend_eq_ok h
    obtain ⟨text', hx, rfl⟩ := ih h₁
    exact ⟨text', hx, rfl⟩

theorem errs_prependAll {E : LexError → Prop} {x : Except LexError (List Char × Cursor)} (taken : List Char) (h : Errs E x) :
    Errs E (taken.foldr prepend x) := by
  induction taken with
  | nil => exact h
  | cons d taken ih => exact ih.map _

theorem doubleQuoted_close : doubleQuoted start e 0 m ('"' :: cs) = .ok ([], ⟨m.advance '"', cs, e⟩) := by
  rw [doubleQuoted, if_pos rfl]

theorem doubleQuoted_escape {d : Char} {n : Nat} (h : Escape.decode cs = some (d, n)) :
    doubleQuoted start e 0 m ('\\' :: cs) = prepend d (doubleQuoted start e n (m.advance '\\') cs) := by
  have hne : cs ≠ [] := by
    rintro rfl
    cases h
  rw [doubleQuoted, if_neg (by decide), if_pos rfl, if_neg (fun hnil => hne hnil.1), h]

theorem doubleQuoted_fault (h : Escape.decode cs = none) : doubleQuoted start e 0 m ('\\' :: cs) =
    .error (if cs = [] ∧ e = .complete then .unterminatedQuote start else .invalidEscape m) := by
  rw [doubleQuoted, if_neg (by decide), if_pos rfl, h]
  split <;> rfl

theorem doubleQuoted_plain (hq : c ≠ '"') (hb : c ≠ '\\') :
    doubleQuoted start e 0 m (c :: cs) = prepend c (doubleQuoted start e 0 (m.advance c) cs) := by
  rw [doubleQuoted, if_neg hq, if_neg hb]

/-- Induction on a text up to a closing double quote. -/
@[elab_as_elim]
theorem doubleQuoted_induction {motive : Nat → List Char → Prop} (skip : Nat) (cs : List Char)
    (nil : ∀ skip, motive skip [])
    (skipped : ∀ skip c cs, motive skip cs → motive (skip + 1) (c :: cs))
    (close : ∀ cs, motive 0 ('"' :: cs))
    (escape : ∀ {cs d n}, Escape.decode cs = some (d, n) → motive n cs → motive 0 ('\\' :: cs))
    (fault : ∀ {cs}, Escape.decode cs = none → motive 0 ('\\' :: cs))
    (plain : ∀ {c cs}, c ≠ '"' → c ≠ '\\' → motive 0 cs → motive 0 (c :: cs)) : motive skip cs := by
  induction cs generalizing skip with
  | nil => exact nil skip
  | cons c cs ih =>
    cases skip with
    | succ skip => exact skipped skip c cs (ih skip)
    | zero =>
      by_cases hq : c = '"'
      · subst hq
        exact close cs
      · by_cases hb : c = '\\'
        · subst hb
          cases hd : Escape.decode cs with
          | none => exact fault hd
          | some r => exact escape hd (ih r.2)
        · exact plain hq hb (ih 0)

theorem singleQuoted_pair : singleQuoted start e m ('\'' :: '\'' :: cs) =
    prepend '\'' (singleQuoted start e ((m.advance '\'').advance '\'') cs) := by
  rw [singleQuoted]

theorem singleQuoted_close (h : cs.head? ≠ some '\'') : singleQuoted start e m ('\'' :: cs) =
    (Cursor.peek ⟨m.advance '\'', cs, e⟩).map fun _ => ([], ⟨m.advance '\'', cs, e⟩) := by
  rw [singleQuoted]
  · rfl
  · rintro ds - rfl
    exact h rfl

theorem singleQuoted_plain (h : c ≠ '\'') :
    singleQuoted start e m (c :: cs) = prepend c (singleQuoted start e (m.advance c) cs) := by
  rw [singleQuoted, if_neg h]
  rintro ds rfl
  exact absurd rfl h

/-- Induction on a text up to a closing single quote. -/
@[elab_as_elim]
theorem singleQuoted_induction {motive : List Char → Prop} (cs : List Char)
    (nil : motive [])
    (pair : ∀ cs, motive cs → motive ('\'' :: '\'' :: cs))
    (close : ∀ {cs}, cs.head? ≠ some '\'' → motive ('\'' :: cs))
    (plain : ∀ {c cs}, c ≠ '\'' → motive cs → motive (c :: cs)) : motive cs := by
  induction hn : cs.length using Nat.strongRecOn generalizing cs with
  | ind n ih =>
    subst hn
    match cs with
    | [] => exact nil
    | c :: cs =>
      by_cases hc : c = '\''
      · subst hc
        by_cases hd : cs.head? = some '\''
        · obtain ⟨ds, rfl⟩ := List.head?_eq_some_iff.1 hd
          exact pair ds (ih ds.length (by simp only [List.length_cons]; omega) ds rfl)
        · exact close hd
      · exact plain hc (ih cs.length (Nat.lt_succ_self _) cs rfl)

/-- `s.Step taken rest s'`: in the state `s` a key literal takes in the characters `taken` before `rest` and goes on in `s'`. -/
inductive LiteralState.Step : LiteralState → List Char → List Char → LiteralState → Prop
  | opens {depth : Nat} {before : Option Char} {c : Char} {rest : List Char} (h : c = '\x7b' ∨ c = '[') :
    Step (.bare depth before) [c] rest (.bare (depth + 1) (some c))
  | closes {depth : Nat} {before : Option Char} {c : Char} {rest : List Char} (h : c = '\x7d' ∨ c = ']')
    (hd : ¬(c = '\x7d' ∧ depth = 0)) : Step (.bare depth before) [c] rest (.bare (depth - 1) (some c))
  | opensDouble {depth : Nat} {before : Option Char} {rest : List Char} : Step (.bare depth before) ['"'] rest (.double depth)
  | opensSingle {depth : Nat} {before : Option Char} {rest : List Char} : Step (.bare depth before) ['\''] rest (.single depth)
  | plain {depth : Nat} {before : Option Char} {c : Char} {rest : List Char}
    (h : c ∉ ['\x7b', '\x7d', '[', ']', '"', '\''])
    (ht : c = '!' → opensTag before = true → TagShape.scan? (c :: rest) ≠ none) :
    Step (.bare depth before) [c] rest (.bare depth (some c))
  | escape {depth : Nat} {c : Char} {rest : List Char} : Step (.double depth) ['\\', c] rest (.double depth)
  | closesDouble {depth : Nat} {rest : List Char} : Step (.double depth) ['"'] rest (.bare depth (some '"'))
  | inDouble {depth : Nat} {c : Char} {rest : List Char} (hq : c ≠ '"') (hb : c = '\\' → rest = []) :
    Step (.double depth) [c] rest (.double depth)
  | pair {depth : Nat} {rest : List Char} : Step (.single depth) ['\'', '\''] rest (.single depth)
  | closesSingle {depth : Nat} {rest : List Char} (h : rest.head? ≠ some '\'') :
    Step (.single depth) ['\''] rest (.bare depth (some '\''))
  | inSingle {depth : Nat} {c : Char} {rest : List Char} (h : c ≠ '\'') : Step (.single depth) [c] rest (.single depth)

variable {s s' : LiteralState} {taken rest : List Char} {depth : Nat} {before : Option Char}

theorem LiteralState.Step.ne_nil (h : s.Step taken rest s') : taken ≠ [] := by
  cases h <;> simp

/-- A character that does not close a key literal, and is no tag that is none, is taken in. -/
theorem exists_step (s : LiteralState) (c : Char) (cs : List Char) :
    (∃ before, s = .bare 0 before ∧ c = '\x7d') ∨
      (∃ depth before, s = .bare depth before ∧ c = '!' ∧ opensTag before = true ∧ TagShape.scan? (c :: cs) = none) ∨
      ∃ taken rest s', c :: cs = taken ++ rest ∧ s.Step taken rest s' := by
  have hone : ∀ {s'}, s.Step [c] cs s' → ∃ taken rest s', c :: cs = taken ++ rest ∧ s.Step taken rest s' :=
    fun h => ⟨_, _, _, rfl, h⟩
  cases s with
  | bare depth before =>
    by_cases hend : c = '\x7d' ∧ depth = 0
    · obtain ⟨rfl, rfl⟩ := hend
      exact .inl ⟨before, rfl, rfl⟩
    · by_cases ht : c = '!' ∧ opensTag before = true ∧ TagShape.scan? (c :: cs) = none
      · exact .inr (.inl ⟨depth, before, rfl, ht⟩)
      · refine .inr (.inr ?_)
        by_cases hopen : c = '\x7b' ∨ c = '['
        · exact hone (.opens hopen)
        · by_cases hclose : c = '\x7d' ∨ c = ']'
          · exact hone (.closes hclose hend)
          · by_cases hd : c = '"'
            · subst hd
              exact hone .opensDouble
            · by_cases hs : c = '\''
              · subst hs
                exact hone .opensSingle
              · refine hone (.plain ?_ fun hc hb hn => ht ⟨hc, hb, hn⟩)
                simp_all
  | double depth =>
    refine .inr (.inr ?_)
    by_cases hq : c = '"'
    · subst hq
      exact hone .closesDouble
    · by_cases hb : c = '\\'
      · subst hb
        cases cs with
        | nil => exact hone (.inDouble hq fun _ => rfl)
        | cons d ds => exact ⟨['\\', d], ds, _, rfl, .escape⟩
      · exact hone (.inDouble hq fun h => absurd h hb)
  | single depth =>
    refine .inr (.inr ?_)
    by_cases hq : c = '\''
    · subst hq
      by_cases hd : cs.head? = some '\''
      · obtain ⟨ds, rfl⟩ := List.head?_eq_some_iff.1 hd
        exact ⟨['\'', '\''], ds, _, rfl, .pair⟩
      · exact hone (.closesSingle hd)
    · exact hone (.inSingle hq)

theorem keyLiteral_nil : keyLiteral start e s m [] = unterminated e m (.unterminatedKey start) := by
  rw [keyLiteral]

theorem keyLiteral_close :
    keyLiteral start e (.bare 0 before) m ('\x7d' :: cs) = .ok ([], ⟨m.advance '\x7d', cs, e⟩) := by
  rw [keyLiteral, if_pos ⟨rfl, rfl⟩]

theorem keyLiteral_fault (hb : opensTag before = true) (ht : TagShape.scan? ('!' :: cs) = none) :
    keyLiteral start e (.bare depth before) m ('!' :: cs) = .error (.invalidTag m) := by
  simp [keyLiteral, hb, ht]

theorem keyLiteral_step (h : s.Step taken rest s') : keyLiteral start e s m (taken ++ rest) =
    taken.foldr prepend (keyLiteral start e s' (m.advanceAll taken) rest) := by
  cases h with
  | @opens depth before c rest h => rcases h with rfl | rfl <;> simp [keyLiteral, Mark.advanceAll]
  | @closes depth before c rest h hd =>
    have hopen : ¬(c = '\x7b' ∨ c = '[') := by rcases h with rfl | rfl <;> decide
    simp only [List.singleton_append, keyLiteral, hd, hopen, h, ↓reduceIte]
    rfl
  | opensDouble | opensSingle => simp [keyLiteral, Mark.advanceAll]
  | @plain depth before c rest h ht =>
    have ht' : ¬(c = '!' ∧ opensTag before = true ∧ TagShape.scan? (c :: rest) = none) := fun hc => ht hc.1 hc.2.1 hc.2.2
    simp only [List.mem_cons, List.not_mem_nil, or_false, not_or] at h
    simp only [List.singleton_append, keyLiteral, h, ht', or_self, false_and, ↓reduceIte]
    rfl
  | escape | pair => simp [keyLiteral, Mark.advanceAll]
  | closesDouble =>
    rw [List.singleton_append, keyLiteral]
    · rfl
    · rintro d ds h
      cases h
  | @inDouble depth c rest hq hb =>
    rw [List.singleton_append, keyLiteral, if_neg hq]
    · rfl
    · rintro d ds rfl rfl
      cases hb rfl
  | closesSingle h =>
    rw [List.singleton_append, keyLiteral]
    · rfl
    · rintro ds - rfl
      exact h rfl
  | @inSingle depth c rest h =>
    rw [List.singleton_append, keyLiteral, if_neg h]
    · rfl
    · rintro ds rfl
      exact absurd rfl h

/-- Induction on a key literal by what it takes in. -/
@[elab_as_elim]
theorem keyLiteral_induction {motive : LiteralState → List Char → Prop} (s : LiteralState) (cs : List Char)
    (nil : ∀ s, motive s [])
    (close : ∀ before cs, motive (.bare 0 before) ('\x7d' :: cs))
    (fault : ∀ {depth before cs}, opensTag before = true → TagShape.scan? ('!' :: cs) = none →
      motive (.bare depth before) ('!' :: cs))
    (step : ∀ {s taken rest s'}, s.Step taken rest s' → motive s' rest → motive s (taken ++ rest)) : motive s cs := by
  induction hn : cs.length using Nat.strongRecOn generalizing s cs with
  | ind n ih =>
    subst hn
    match cs with
    | [] => exact nil s
    | c :: cs =>
      rcases exists_step s c cs with ⟨before, rfl, rfl⟩ | ⟨depth, before, rfl, rfl, hb, ht⟩ | ⟨taken, rest, s', hcs, hs⟩
      · exact close before cs
      · exact fault hb ht
      · have hpos := List.length_pos_iff.2 hs.ne_nil
        rw [hcs]
        exact step hs (ih rest.length (by rw [hcs, List.length_append]; omega) s' rest rfl)

end Lexer
end YamlQuery.Path
