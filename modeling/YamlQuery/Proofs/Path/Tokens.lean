import YamlQuery.Proofs.Path.QuotedText
import YamlQuery.Proofs.Text.CharClass
/-!
Reading a path text token by token. Reading a token leads from one place of the text to a later one, over exactly the
characters of the blanks before it and its own; so the tokens of a text end with its end or with a fault.
-/
namespace YamlQuery.Path
open CharClass Outcome

structure Cursor.Leads (c : Cursor) (taken : List Char) (c' : Cursor) : Prop where
  rest : c.rest = taken ++ c'.rest
  mark : c'.mark = c.mark.advanceAll taken
  ending : c'.ending = c.ending

namespace Cursor

theorem Leads.refl (c : Cursor) : c.Leads [] c := ⟨rfl, rfl, rfl⟩

theorem Leads.trans {c c' c'' : Cursor} {as bs : List Char} (h : c.Leads as c') (h' : c'.Leads bs c'') :
    c.Leads (as ++ bs) c'' where
  rest := by rw [h.rest, h'.rest, List.append_assoc]
  mark := by rw [h'.mark, h.mark, Mark.advanceAll, Mark.advanceAll, Mark.advanceAll, List.foldl_append]
  ending := h'.ending.trans h.ending

theorem leads_cons (m : Mark) (ch : Char) (rest : List Char) (e : Utf8.Ending) :
    Leads ⟨m, ch :: rest, e⟩ [ch] ⟨m.advance ch, rest, e⟩ := ⟨rfl, rfl, rfl⟩

theorem leads_advance {c : Cursor} {ch : Char} {rest : List Char} (h : c.rest = ch :: rest) :
    c.Leads [ch] c.advance := by
  obtain ⟨m, cs, e⟩ := c
  obtain rfl : cs = ch :: rest := h
  exact leads_cons m ch rest e

theorem peek_some {c : Cursor} {ch : Char} (h : c.peek = .ok (some ch)) : ∃ rest, c.rest = ch :: rest := by
  unfold peek at h
  split at h
  · next ch' rest hr =>
    cases h
    exact ⟨rest, hr⟩
  · obtain ⟨_, _, h⟩ := map_eq_ok.1 h
    simp at h

theorem leads_takeWhile {p : Char → Bool} {c c' : Cursor} {taken : List Char} (h : c.takeWhile p = .ok (taken, c')) :
    c.Leads taken c' := by
  obtain ⟨_, _, h⟩ := map_eq_ok.1 h
  cases h
  exact ⟨List.takeWhile_append_dropWhile.symm, rfl, rfl⟩

theorem leads_skipBlanks {c c' : Cursor} (h : c.skipBlanks = .ok c') :
    ∃ blanks, (∀ ch ∈ blanks, isBlank ch = true) ∧ c.Leads blanks c' := by
  obtain ⟨⟨taken, c''⟩, ht, rfl⟩ := map_eq_ok.1 h
  refine ⟨taken, ?_, leads_takeWhile ht⟩
  obtain ⟨_, _, ht⟩ := map_eq_ok.1 ht
  cases ht
  intro ch hc
  exact List.all_eq_true.1 List.all_takeWhile ch hc

end Cursor

namespace Lexer
open Cursor

theorem leads_append (m : Mark) (taken rest : List Char) (e : Utf8.Ending) :
    Leads ⟨m, taken ++ rest, e⟩ taken ⟨m.advanceAll taken, rest, e⟩ := ⟨rfl, rfl, rfl⟩

theorem leads_prepend (own : List Char) {m : Mark} {d : Char} {rest text : List Char} {e : Utf8.Ending}
    {x : Except LexError (List Char × Cursor)} {c' : Cursor} (h : prepend d x = .ok (text, c'))
    (ih : ∀ {text'}, x = .ok (text', c') → ∃ taken, Leads ⟨m.advanceAll own, rest, e⟩ taken c') :
    ∃ taken, Leads ⟨m, own ++ rest, e⟩ taken c' := by
  obtain ⟨text', h', _⟩ := prepend_eq_ok h
  obtain ⟨taken, ht⟩ := ih h'
  exact ⟨_, (leads_append m own rest e).trans ht⟩

theorem leads_doubleQuoted {start : Mark} {e : Utf8.Ending} {skip : Nat} {m : Mark} {cs text : List Char} {c' : Cursor}
    (h : doubleQuoted start e skip m cs = .ok (text, c')) : ∃ taken, Leads ⟨m, cs, e⟩ taken c' := by
  induction skip, cs using doubleQuoted_induction generalizing m text with
  | nil skip =>
    rw [doubleQuoted] at h
    exact absurd h unterminated_ne_ok
  | skipped skip c cs ih =>
    rw [doubleQuoted] at h
    obtain ⟨taken, ht⟩ := ih h
    exact ⟨_, (leads_cons m c cs e).trans ht⟩
  | close cs =>
    rw [doubleQuoted_close] at h
    cases h
    exact ⟨_, leads_cons m '"' cs e⟩
  | escape hd ih =>
    rw [doubleQuoted_escape hd] at h
    exact leads_prepend ['\\'] h ih
  | fault hd =>
    rw [doubleQuoted_fault hd] at h
    cases h
  | @plain c cs hq hb ih =>
    rw [doubleQuoted_plain hq hb] at h
    exact leads_prepend [c] h ih

theorem leads_singleQuoted {start : Mark} {e : Utf8.Ending} {m : Mark} {cs text : List Char} {c' : Cursor}
    (h : singleQuoted start e m cs = .ok (text, c')) : ∃ taken, Leads ⟨m, cs, e⟩ taken c' := by
  induction cs using singleQuoted_induction generalizing m text with
  | nil =>
    rw [singleQuoted] at h
    exact absurd h unterminated_ne_ok
  | pair cs ih =>
    rw [singleQuoted_pair] at h
    exact leads_prepend ['\'', '\''] h ih
  | close hd =>
    rw [singleQuoted_close hd] at h
    obtain ⟨_, _, hc⟩ := map_eq_ok.1 h
    obtain ⟨-, rfl⟩ := Prod.mk.inj hc
    exact ⟨_, leads_cons _ _ _ _⟩
  | @plain c cs hc ih =>
    rw [singleQuoted_plain hc] at h
    exact leads_prepend [c] h ih

theorem leads_keyLiteral {start : Mark} {e : Utf8.Ending} {s : LiteralState} {m : Mark} {cs text : List Char}
    {c' : Cursor} (h : keyLiteral start e s m cs = .ok (text, c')) : ∃ taken, Leads ⟨m, cs, e⟩ taken c' := by
  induction s, cs using keyLiteral_induction generalizing m text with
  | nil s =>
    rw [keyLiteral_nil] at h
    exact absurd h unterminated_ne_ok
  | close before cs =>
    rw [keyLiteral_close] at h
    cases h
    exact ⟨_, leads_cons _ _ _ _⟩
  | fault hb ht =>
    rw [keyLiteral_fault hb ht] at h
    cases h
  | @step s taken rest s' hs ih =>
    rw [keyLiteral_step hs] at h
    obtain ⟨text', h', _⟩ := prependAll_eq_ok h
    obtain ⟨behind, hb⟩ := ih h'
    exact ⟨_, (leads_append m taken rest e).trans hb⟩

theorem leads_number {sign : List Char} {c c' : Cursor} {k : TokenKind} (h : number sign c = .ok (k, c')) :
    ∃ taken, c.takeWhile isDigit = .ok (taken, c') ∧ k = .number (String.ofList (sign ++ taken)) := by
  obtain ⟨⟨taken, c''⟩, ht, hc⟩ := map_eq_ok.1 h
  obtain ⟨rfl, rfl⟩ := Prod.mk.inj hc
  exact ⟨taken, ht, rfl⟩

theorem leads_name {kind : String → TokenKind} {c c' : Cursor} {k : TokenKind} (h : name kind c = .ok (k, c')) :
    ∃ taken, c.takeWhile continuesName = .ok (taken, c') ∧ k = kind (String.ofList taken) := by
  obtain ⟨⟨taken, c''⟩, ht, hc⟩ := map_eq_ok.1 h
  obtain ⟨rfl, rfl⟩ := Prod.mk.inj hc
  exact ⟨taken, ht, rfl⟩

structure ReadAt (c : Cursor) (k : TokenKind) (c' : Cursor) : Prop where
  kind : k ≠ .finish
  leads : ∃ taken, c.Leads taken c'

section
variable {after c' : Cursor} {k : TokenKind}

theorem readAt_here {c : Cursor} (hk : k ≠ .finish) : ReadAt c k c := ⟨hk, _, .refl c⟩

theorem ReadAt.behind {c₁ : Cursor} {taken : List Char} (h : ReadAt c₁ k c') (ht : after.Leads taken c₁) : ReadAt after k c' := by
  obtain ⟨hk, own, hown⟩ := h
  exact ⟨hk, _, ht.trans hown⟩

theorem readAt_advance {ch : Char} (h : after.peek = .ok (some ch)) (hk : k ≠ .finish) : ReadAt after k after.advance := by
  obtain ⟨rest, hr⟩ := peek_some h
  exact ⟨hk, _, leads_advance hr⟩

theorem readAt_number {sign : List Char} (h : number sign after = .ok (k, c')) : ReadAt after k c' := by
  obtain ⟨taken, ht, rfl⟩ := leads_number h
  exact ⟨by simp, taken, leads_takeWhile ht⟩

theorem readAt_name {kind : String → TokenKind} (hk : ∀ text, kind text ≠ .finish) (h : name kind after = .ok (k, c')) :
    ReadAt after k c' := by
  obtain ⟨taken, ht, rfl⟩ := leads_name h
  exact ⟨hk _, taken, leads_takeWhile ht⟩

theorem readAt_doubled {c : Char} {one two : TokenKind} (h1 : one ≠ .finish) (h2 : two ≠ .finish)
    (h : doubled c one two after = .ok (k, c')) : ReadAt after k c' := by
  obtain ⟨p, hp, h⟩ := bind_eq_ok.1 h
  split at h
  · next hc =>
    cases h
    exact readAt_advance (hc ▸ hp) h2
  · cases h
    exact readAt_here h1

theorem readAt_star (h : star after = .ok (k, c')) : ReadAt after k c' := by
  obtain ⟨p, hp, h⟩ := bind_eq_ok.1 h
  split at h
  · cases h
    exact readAt_advance hp (by simp)
  · split at h
    · exact readAt_name (by simp) h
    · cases h
      exact readAt_here (by simp)
  · cases h
    exact readAt_here (by simp)

theorem readAt_ampersand {b : Bool} (h : ampersand b after = .ok (k, c')) : ReadAt after k c' := by
  obtain ⟨p, hp, h⟩ := bind_eq_ok.1 h
  split at h
  · split at h
    · cases h
      split
      · exact readAt_advance hp (by simp)
      · exact readAt_here (by simp)
    · split at h
      · exact readAt_name (by simp) h
      · cases h
        exact readAt_here (by simp)
  · cases h
    exact readAt_here (by simp)

theorem readAt_bracket (h : bracket after = .ok (k, c')) : ReadAt after k c' := by
  obtain ⟨c₁, h₁, h⟩ := bind_eq_ok.1 h
  obtain ⟨blanks, _, hb⟩ := leads_skipBlanks h₁
  obtain ⟨p, hp, h⟩ := bind_eq_ok.1 h
  split at h
  · next hc =>
    cases h
    exact (readAt_advance (hc ▸ hp) (by simp)).behind hb
  · cases h
    exact (readAt_here (by simp)).behind hb

theorem readAt_brace {start : Mark} (h : brace start after = .ok (k, c')) : ReadAt after k c' := by
  obtain ⟨c₁, h₁, h⟩ := bind_eq_ok.1 h
  obtain ⟨blanks, _, hb⟩ := leads_skipBlanks h₁
  obtain ⟨p, hp, h⟩ := bind_eq_ok.1 h
  split at h
  · next hc =>
    cases h
    exact (readAt_advance (hc ▸ hp) (by simp)).behind hb
  · obtain ⟨⟨raw, c₂⟩, hk, h⟩ := bind_eq_ok.1 h
    cases h
    obtain ⟨taken, ht⟩ := leads_keyLiteral hk
    exact ⟨by simp, _, hb.trans ht⟩

theorem readAt_key {x : Except LexError (List Char × Cursor)}
    (h : (x.map fun r => (TokenKind.key (String.ofList r.1), r.2)) = .ok (k, c'))
    (hx : ∀ {text}, x = .ok (text, c') → ∃ taken, after.Leads taken c') : ReadAt after k c' := by
  obtain ⟨⟨text, c''⟩, hq, hc⟩ := map_eq_ok.1 h
  obtain ⟨rfl, rfl⟩ := Prod.mk.inj hc
  exact ⟨by simp, hx hq⟩

theorem single_ne_finish {ch : Char} (h : single? ch = some k) : k ≠ .finish := by
  unfold single? at h
  split at h <;> simp at h <;> subst h <;> simp

theorem takeWhile_ne_nil {p : Char → Bool} {c : Cursor} {ch : Char} {rest taken : List Char} (hc : c.rest = ch :: rest)
    (hp : p ch = true) (h : c.takeWhile p = .ok (taken, c')) : taken ≠ [] := by
  obtain ⟨_, _, h⟩ := map_eq_ok.1 h
  obtain ⟨rfl, -⟩ := Prod.mk.inj h
  simp [hc, hp]

theorem leads_kindAt {b : Bool} {ch : Char} {rest : List Char} {here : Cursor} (hr : here.rest = ch :: rest)
    (h : kindAt b ch here = .ok (k, c')) : k ≠ .finish ∧ ∃ taken, taken ≠ [] ∧ here.Leads taken c' := by
  have hcons : ReadAt here.advance k c' → k ≠ .finish ∧ ∃ taken, taken ≠ [] ∧ here.Leads taken c' := by
    rintro ⟨hk, taken, ht⟩
    exact ⟨hk, _, List.cons_ne_nil ch taken, (leads_advance hr).trans ht⟩
  unfold kindAt at h
  dsimp only at h
  split at h
  · next hs =>
    cases h
    exact hcons (readAt_here (single_ne_finish hs))
  · split at h
    · exact hcons (readAt_doubled (by simp) (by simp) h)
    · exact hcons (readAt_doubled (by simp) (by simp) h)
    · exact hcons (readAt_star h)
    · exact hcons (readAt_ampersand h)
    · exact hcons (readAt_bracket h)
    · exact hcons (readAt_brace h)
    · exact hcons (readAt_key h leads_doubleQuoted)
    · exact hcons (readAt_key h leads_singleQuoted)
    · split at h
      · split at h
        · exact hcons (readAt_number h)
        · simp [throw, throwThe, MonadExceptOf.throw] at h
      · obtain ⟨_, _, h⟩ := bind_eq_ok.1 h
        simp [throw, throwThe, MonadExceptOf.throw] at h
    · split at h
      · next hd =>
        obtain ⟨taken, ht, rfl⟩ := leads_number h
        exact ⟨by simp, taken, takeWhile_ne_nil hr hd ht, leads_takeWhile ht⟩
      · split at h
        · next hs =>
          obtain ⟨taken, ht, rfl⟩ := leads_name h
          exact ⟨by simp, taken, takeWhile_ne_nil hr (startsName_continuesName hs) ht, leads_takeWhile ht⟩
        · simp at h

end

/-- A token spans what is read behind the blanks before it. Only the end of the text is empty. -/
theorem leads_next {b : Bool} {c c' : Cursor} {t : Token} (h : next b c = .ok (t, c')) :
    ∃ blanks here taken, (∀ ch ∈ blanks, isBlank ch = true) ∧ c.Leads blanks here ∧ here.Leads taken c' ∧
      t.span = ⟨here.mark, c'.mark⟩ ∧ (t.kind ≠ .finish → taken ≠ []) := by
  obtain ⟨here, hs, h⟩ := bind_eq_ok.1 h
  obtain ⟨blanks, hblank, hb⟩ := leads_skipBlanks hs
  obtain ⟨p, hp, h⟩ := bind_eq_ok.1 h
  split at h
  · cases h
    exact ⟨blanks, _, [], hblank, hb, .refl _, rfl, by simp⟩
  · next ch =>
    obtain ⟨rest, hr⟩ := peek_some hp
    obtain ⟨⟨k, c''⟩, hk, h⟩ := bind_eq_ok.1 h
    cases h
    obtain ⟨_, taken, hne, ht⟩ := leads_kindAt hr hk
    exact ⟨blanks, here, taken, hblank, hb, ht, rfl, fun _ => hne⟩

theorem next_shorter {b : Bool} {c c' : Cursor} {t : Token} (h : next b c = .ok (t, c')) (ht : t.kind ≠ .finish) :
    c'.rest.length < c.rest.length := by
  obtain ⟨blanks, here, taken, _, hb, hk, _, hne⟩ := leads_next h
  have hpos := List.length_pos_iff.2 (hne ht)
  rw [hb.rest, hk.rest]
  simp only [List.length_append]
  omega

end Lexer

def Lexed.Ends (r : Lexed) : Prop :=
  (r.failure = none ∧ ∃ ts t, r.tokens = ts ++ [t] ∧ t.kind = .finish ∧ ∀ t ∈ ts, t.kind ≠ .finish) ∨
    (r.failure ≠ none ∧ ∀ t ∈ r.tokens, t.kind ≠ .finish)

theorem Lexed.readFrom_ends {n : Nat} {b : Bool} {c : Cursor} (h : c.rest.length < n) : (readFrom n b c).Ends := by
  induction n generalizing b c with
  | zero => omega
  | succ n ih =>
    cases hn : Lexer.next b c with
    | error e =>
      rw [readFrom, hn]
      exact .inr ⟨by simp, by simp⟩
    | ok r =>
      obtain ⟨t, c'⟩ := r
      by_cases ht : t.kind = .finish
      · simp only [readFrom, hn, ht, ↓reduceIte]
        exact .inl ⟨rfl, [], t, rfl, ht, by simp⟩
      · have hlt := Lexer.next_shorter hn ht
        simp only [readFrom, hn, ht, ↓reduceIte]
        rcases @ih t.kind.endsOperand c' (by omega) with ⟨hf, ts, u, hts, hu, hall⟩ | ⟨hf, hall⟩
        · refine .inl ⟨hf, t :: ts, u, by simp [hts], hu, ?_⟩
          intro v hv
          rcases List.mem_cons.1 hv with rfl | hv
          · exact ht
          · exact hall v hv
        · refine .inr ⟨hf, ?_⟩
          intro v hv
          rcases List.mem_cons.1 hv with rfl | hv
          · exact ht
          · exact hall v hv

theorem Lexed.ofBytes_ends (bytes : List UInt8) : (ofBytes bytes).Ends := readFrom_ends (Nat.lt_succ_self _)

end YamlQuery.Path
