import Mathlib.Data.List.Forall2
import YamlQuery.Proofs.Outcome
import YamlQuery.Proofs.Path.Pieces
/-!
Grouping tokens into symbols follows the grammar of steps: what is grouped into steps is a step text, and every step
text is grouped so wherever it stands.
-/
namespace YamlQuery.Path
open Path.Expr Grammar Outcome

namespace Symbol

theorem fields_kinds {done fs : List (List Token)} {last items : List Token} (h : fields done last items = .ok fs) :
    ∃ g gs, fs = done ++ g :: gs ∧
      (last.reverse ++ items).map (·.kind) = [TokenKind.colon].intercalate ((g :: gs).map (·.map (·.kind))) := by
  induction items generalizing done last with
  | nil =>
    cases h
    exact ⟨last.reverse, [], by simp⟩
  | cons t ts ih =>
    rw [fields] at h
    split at h
    · next hk =>
      split at h
      · simp at h
      · obtain ⟨g, gs, rfl, hg⟩ := ih h
        refine ⟨last.reverse, g :: gs, by simp, ?_⟩
        simp only [List.reverse_nil, List.nil_append] at hg
        simp [hk, hg, List.intercalate]
    · simp at h
    · obtain ⟨g, gs, rfl, hg⟩ := ih h
      exact ⟨g, gs, rfl, by simpa using hg⟩

theorem fields_length {done fs : List (List Token)} {last items : List Token} (h : fields done last items = .ok fs)
    (hd : done.length ≤ 2) : fs.length ≤ 3 := by
  induction items generalizing done last with
  | nil =>
    cases h
    rw [List.length_append, List.length_singleton]
    exact Nat.succ_le_succ hd
  | cons t ts ih =>
    rw [fields] at h
    split at h
    · split at h
      · simp at h
      · exact ih h (by simp; omega)
    · simp at h
    · exact ih h hd

theorem integer_eq_ok {text : String} {m : Mark} {i : Int64} : integer text m = .ok i ↔ Numeral text i := by
  unfold integer Numeral
  split <;> simp_all

theorem field_bound {ts : List Token} {v : Option (Int64 × Mark)} (h : field ts = .ok v) :
    Bound (ts.map (·.kind)) (v.map (·.1)) := by
  match ts with
  | [] =>
    cases h
    exact .missing
  | [t] =>
    rw [field] at h
    split at h
    · next text hk =>
      obtain ⟨i, hi, rfl⟩ := map_eq_ok.1 h
      simpa [hk] using Bound.given (integer_eq_ok.1 hi)
    · simp at h
  | _ :: t :: _ => simp [field] at h

theorem field_of_bound {ts : List Token} {v : Option Int64} (h : Bound (ts.map (·.kind)) v) :
    ∃ w, field ts = .ok w ∧ w.map (·.1) = v := by
  generalize hk : ts.map (·.kind) = ks at h
  cases h with
  | missing =>
    obtain rfl : ts = [] := by simpa using hk
    exact ⟨none, rfl, rfl⟩
  | @given text i hi =>
    obtain ⟨t, rfl, ht⟩ := List.map_eq_singleton_iff.1 hk
    refine ⟨some (i, t.span.start), ?_, rfl⟩
    simp [field, ht, integer_eq_ok.2 hi, Except.map]

theorem mapM_field {fs : List (List Token)} {vs : List (Option (Int64 × Mark))} (h : fs.mapM field = .ok vs) :
    List.Forall₂ (fun g v => Bound (g.map (·.kind)) (v.map (·.1))) fs vs := by
  induction fs generalizing vs with
  | nil =>
    cases h
    exact .nil
  | cons g gs ih =>
    rw [List.mapM_cons] at h
    obtain ⟨v, hv, h⟩ := bind_eq_ok.1 h
    obtain ⟨ws, hw, h⟩ := bind_eq_ok.1 h
    cases h
    exact .cons (field_bound hv) (ih hw)

/-- A bracket that holds a colon, once it is read, holds the text of its slice. -/
theorem slice_range {items : List Token} {sp : Span} {e : Expr} (h : slice items sp = .ok e)
    (hc : TokenKind.colon ∈ items.map (·.kind)) : ∃ s, e = .step (.slice s) sp ∧ Range (items.map (·.kind)) s := by
  obtain ⟨fs, hf, hfs⟩ := bind_eq_ok.1 h
  obtain ⟨vs, hv, hvs⟩ := bind_eq_ok.1 hfs
  obtain ⟨g, gs, rfl, hg⟩ := fields_kinds hf
  have hlen : (g :: gs).length ≤ 3 := fields_length hf (Nat.zero_le _)
  have hb := mapM_field hv
  simp only [List.reverse_nil, List.nil_append] at hg hb
  simp only [pure, Except.pure] at hvs
  rw [hg] at hc ⊢
  match gs, vs, hb with
  | [], _, .cons hi .nil => exact absurd (by simpa using hc) hi.colon_not_mem
  | [g'], [v, w], .cons hi (.cons hj .nil) =>
    simp only [List.getElem?_cons_zero, List.getElem?_cons_succ, List.getElem?_nil, Option.join_none, Option.join_some,
      Option.map_none, Option.getD_none, Except.ok.injEq] at hvs
    refine ⟨_, hvs.symm, ?_⟩
    simpa using Range.short hi hj
  | [g', g''], [v, w, n], .cons hi (.cons hj (.cons hn .nil)) =>
    simp only [List.getElem?_cons_zero, List.getElem?_cons_succ, Option.join_some] at hvs
    cases n with
    | none =>
      simp only [Option.map_none, Option.getD_none, Except.ok.injEq] at hvs
      refine ⟨_, hvs.symm, ?_⟩
      simpa using Range.long hi hj hn (by simp)
    | some n =>
      obtain ⟨n, mark⟩ := n
      by_cases h0 : n = 0
      · simp only [h0, ↓reduceIte] at hvs
        cases hvs
      · simp only [h0, ↓reduceIte, Option.map_some, Option.getD_some, Except.ok.injEq] at hvs
        refine ⟨_, hvs.symm, ?_⟩
        simpa using Range.long hi hj hn (by simpa using h0)
  | _ :: _ :: _ :: _, _, _ =>
    simp only [List.length_cons] at hlen
    omega

theorem fields_of_bound {done : List (List Token)} {g rest : List Token} {v : Option Int64}
    (h : Bound (g.map (·.kind)) v) : fields done [] (g ++ rest) = fields done g.reverse rest := by
  generalize hk : g.map (·.kind) = ks at h
  cases h with
  | missing =>
    obtain rfl : g = [] := by simpa using hk
    rfl
  | given hi =>
    obtain ⟨t, rfl, ht⟩ := List.map_eq_singleton_iff.1 hk
    simp [fields, ht]

theorem fields_of_bound_end (done : List (List Token)) {g : List Token} {v : Option Int64}
    (h : Bound (g.map (·.kind)) v) : fields done [] g = .ok (done ++ [g]) := by
  have hg := @fields_of_bound done g [] v h
  simpa [fields] using hg

theorem fields_colon {done : List (List Token)} {last rest : List Token} {t : Token} (h : t.kind = .colon)
    (hd : done.length < 2) : fields done last (t :: rest) = fields (done ++ [last.reverse]) [] rest := by
  simp [fields, h, Nat.ne_of_lt hd]

theorem slice_of_range {items : List Token} {s : Slice} (sp : Span) (h : Range (items.map (·.kind)) s) :
    slice items sp = .ok (.step (.slice s) sp) := by
  generalize hk : items.map (·.kind) = ks at h
  cases h with
  | short hi hj =>
    obtain ⟨g, rest, rfl, rfl, hr⟩ := List.map_eq_append_iff.1 hk
    obtain ⟨t, g', rfl, ht, rfl⟩ := List.map_eq_cons_iff.1 hr
    obtain ⟨v, hv, rfl⟩ := field_of_bound hi
    obtain ⟨w, hw, rfl⟩ := field_of_bound hj
    have hf : fields [] [] (g ++ t :: g') = .ok [g, g'] := by
      rw [fields_of_bound hi, fields_colon ht (by simp)]
      simpa using fields_of_bound_end [g] hj
    simp [slice, hf, hv, hw, bind, Except.bind, pure, Except.pure]
  | long hi hj hn h0 =>
    obtain ⟨g, rest, rfl, rfl, hr⟩ := List.map_eq_append_iff.1 hk
    obtain ⟨t, rest', rfl, ht, hr'⟩ := List.map_eq_cons_iff.1 hr
    obtain ⟨g', rest'', rfl, rfl, hr''⟩ := List.map_eq_append_iff.1 hr'
    obtain ⟨t', g'', rfl, ht', rfl⟩ := List.map_eq_cons_iff.1 hr''
    obtain ⟨v, hv, rfl⟩ := field_of_bound hi
    obtain ⟨w, hw, rfl⟩ := field_of_bound hj
    obtain ⟨n, hn', rfl⟩ := field_of_bound hn
    have hf : fields [] [] (g ++ t :: (g' ++ t' :: g'')) = .ok [g, g', g''] := by
      rw [fields_of_bound hi, fields_colon ht (by simp), fields_of_bound hj, fields_colon ht' (by simp)]
      simpa using fields_of_bound_end [g, g'] hn
    cases n with
    | none => simp [slice, hf, hv, hw, hn', bind, Except.bind, pure, Except.pure]
    | some n =>
      obtain ⟨n, mark⟩ := n
      have hn0 : n ≠ 0 := by simpa using h0
      simp [slice, hf, hv, hw, hn', hn0, bind, Except.bind, pure, Except.pure]

theorem indices_kinds {close : Mark} {expecting : Bool} {items : List Token} {es : List Expr}
    (h : indices close expecting items = .ok es) :
    if expecting then ∃ is, Indices (items.map (·.kind)) is ∧ es.map unmarked = is.map fun i => .step (.index i) {}
    else (items = [] ∧ es = []) ∨ ∃ t ts is, items = t :: ts ∧ t.kind = .comma ∧ Indices (ts.map (·.kind)) is ∧
      es.map unmarked = is.map fun i => .step (.index i) {} := by
  induction items generalizing expecting es with
  | nil =>
    cases expecting with
    | true => simp [indices] at h
    | false =>
      simp only [indices, Bool.false_eq_true, ↓reduceIte, Except.ok.injEq] at h
      simp [h]
  | cons t ts ih =>
    rw [indices] at h
    split at h
    · next hk =>
      cases expecting with
      | true => simp at h
      | false =>
        simp only [Bool.false_eq_true, ↓reduceIte] at h
        obtain ⟨is, hi, he⟩ := ih h
        exact .inr ⟨t, ts, is, rfl, hk, hi, he⟩
    · next text hk =>
      cases expecting with
      | false => simp at h
      | true =>
        obtain ⟨i, hn, h⟩ := bind_eq_ok.1 h
        obtain ⟨fs, hr, h⟩ := bind_eq_ok.1 h
        cases h
        have hi := integer_eq_ok.1 hn
        rcases ih hr with ⟨rfl, rfl⟩ | ⟨c, cs, is, rfl, hc, his, he⟩
        · exact ⟨[i], by simpa [hk] using Indices.last hi, rfl⟩
        · exact ⟨i :: is, by simpa [hk, hc] using Indices.cons hi his, by simp [unmarked, he]⟩
    · simp at h

theorem indices_of_kinds {items : List Token} {is : List Int64} (close : Mark) (h : Indices (items.map (·.kind)) is) :
    ∃ es, indices close true items = .ok es ∧ es.map unmarked = is.map fun i => .step (.index i) {} := by
  generalize hk : items.map (·.kind) = ks at h
  induction h generalizing items with
  | last hi =>
    obtain ⟨t, rfl, ht⟩ := List.map_eq_singleton_iff.1 hk
    exact ⟨_, by simp [indices, ht, integer_eq_ok.2 hi, bind, Except.bind, pure, Except.pure]; rfl, rfl⟩
  | cons hi _ ih =>
    obtain ⟨t, rest, rfl, ht, hr⟩ := List.map_eq_cons_iff.1 hk
    obtain ⟨c, ts, rfl, hc, hts⟩ := List.map_eq_cons_iff.1 hr
    obtain ⟨es, he, hm⟩ := ih hts
    refine ⟨_, by simp [indices, ht, hc, integer_eq_ok.2 hi, he, bind, Except.bind, pure, Except.pure]; rfl, ?_⟩
    simp [unmarked, hm]

theorem any_colon (items : List Token) :
    items.any (fun t => t.kind = .colon) = true ↔ TokenKind.colon ∈ items.map (·.kind) := by
  simp

/-- The indices of a bracket as one expression. -/
theorem unmarked_indices (es : List Expr) (is : List Int64) (sp : Span) :
    (es.map unmarked = is.map fun i => .step (.index i) {}) →
    (match es with
      | [.step s _] => .step s sp
      | es => .join .multi es sp : Expr).unmarked = gather .multi (is.map fun i => .step (.index i) {}) := by
  intro h
  have hd : ∀ js : List Int64, (js.map fun i => Expr.step (.index i) {}).flatMap (operandsOf .multi) =
      js.map fun i => .step (.index i) {} := by
    intro js
    induction js with
    | nil => rfl
    | cons j js ih => simp [operandsOf, ih]
  cases is with
  | nil =>
    obtain rfl : es = [] := by simpa using h
    rfl
  | cons i is =>
    cases is with
    | nil =>
      obtain ⟨e, rfl, he⟩ := List.map_eq_singleton_iff.1 h
      cases e with
      | step s _ => simpa [unmarked, gather] using he
      | join => simp [unmarked] at he
    | cons j is =>
      obtain ⟨e, f, es, rfl⟩ : ∃ e f es', es = e :: f :: es' := by
        obtain ⟨e, es, rfl, -, hes⟩ := List.map_eq_cons_iff.1 h
        obtain ⟨f, es, rfl, -, -⟩ := List.map_eq_cons_iff.1 hes
        exact ⟨e, f, es, rfl⟩
      simp only [unmarked, unmarkedAll_eq_map, h, gather, List.map_cons]
      exact congrArg (join .multi · {}) (hd (i :: j :: is)).symm

theorem bracket_text {items : List Token} {close : Mark} {sp : Span} {e : Expr} (h : bracket items close sp = .ok e) :
    StepText (.openBracket :: (items.map (·.kind) ++ [.closeBracket])) [e.unmarked] := by
  unfold bracket at h
  split at h
  · next hc =>
    obtain ⟨s, rfl, hs⟩ := slice_range h ((any_colon items).1 hc)
    exact .slice hs
  · obtain ⟨es, hi, he⟩ := map_eq_ok.1 h
    obtain ⟨is, his, hes⟩ := indices_kinds hi
    have hu : e.unmarked = gather .multi (is.map fun i => .step (.index i) {}) := by
      rw [← he]
      exact unmarked_indices es is sp hes
    rw [hu]
    exact .indices his

theorem bracket_of_range {items : List Token} {s : Slice} (close : Mark) (sp : Span)
    (h : Range (items.map (·.kind)) s) : bracket items close sp = .ok (.step (.slice s) sp) := by
  rw [bracket, if_pos ((any_colon items).2 h.colon_mem), slice_of_range sp h]

theorem bracket_of_indices {items : List Token} {is : List Int64} (close : Mark) (sp : Span)
    (h : Indices (items.map (·.kind)) is) :
    ∃ e, bracket items close sp = .ok e ∧ e.unmarked = gather .multi (is.map fun i => .step (.index i) {}) := by
  obtain ⟨es, he, hm⟩ := indices_of_kinds close h
  refine ⟨_, ?_, unmarked_indices es is sp hm⟩
  rw [bracket, if_neg (fun hc => h.colon_not_mem ((any_colon items).1 hc)), he]
  rfl

end Symbol

namespace Grammar

inductive Groups : List TokenKind → List Symbol → Prop
  | nil : Groups [] []
  | steps {ks ls : List TokenKind} {ss : List Symbol} (es : List Expr) (h : StepText ks (es.map unmarked))
    (t : Groups ls ss) : Groups (ks ++ ls) (es.map .step ++ ss)
  | slash {ks : List TokenKind} {ss : List Symbol} (sp : Span) (t : Groups ks ss) :
    Groups (.slash :: ks) (.slash sp :: ss)
  | operator {ks : List TokenKind} {ss : List Symbol} (op : Operator) (m : Mark) (t : Groups ks ss) :
    Groups (op.kind :: ks) (.operator op m :: ss)
  | openParen {ks : List TokenKind} {ss : List Symbol} (m : Mark) (t : Groups ks ss) :
    Groups (.openParen :: ks) (.openParen m :: ss)
  | closeParen {ks : List TokenKind} {ss : List Symbol} (m : Mark) (t : Groups ks ss) :
    Groups (.closeParen :: ks) (.closeParen m :: ss)

def kindsToEnd (ts : List Token) : List TokenKind := (ts.map (·.kind)).takeWhile (· ≠ .finish)

theorem kindsToEnd_append {ts : List Token} (h : TokenKind.finish ∉ ts.map (·.kind)) (us : List Token) :
    kindsToEnd (ts ++ us) = ts.map (·.kind) ++ kindsToEnd us := by
  rw [kindsToEnd, List.map_append, List.takeWhile_append_of_pos]
  · rfl
  · intro k hk
    have hne : k ≠ .finish := fun he => h (he ▸ hk)
    simpa using hne

theorem kindsToEnd_finish {t : Token} (h : t.kind = .finish) (ts : List Token) : kindsToEnd (t :: ts) = [] := by
  simp [kindsToEnd, h]

def GroupsFrom (ts : List Token) (ss : List Symbol) : Option Symbol.OpenBracket → Prop
  | none => Groups (kindsToEnd ts) ss
  | some b => ∃ (inner : List Token) (close : Mark) (sp : Span) (ks : List TokenKind) (e : Expr) (ss' : List Symbol),
      kindsToEnd ts = inner.map (·.kind) ++ .closeBracket :: ks ∧
      Symbol.bracket (b.items.reverse ++ inner) close sp = .ok e ∧ ss = .step e :: ss' ∧ Groups ks ss'

theorem word_of_simpleStep {k : TokenKind} {s : Step} (h : Symbol.simpleStep? k = some s) :
    StepText [k] [.step s {}] := by
  cases k <;> simp only [Symbol.simpleStep?, Option.some.injEq, reduceCtorEq] at h <;> subst h
  case key text => exact .key (.name text)
  all_goals exact .word (by constructor)

theorem key_of_keyLiteral {text : String} {sp : Span} {e : Expr} (h : Symbol.keyLiteral text sp = .ok e) :
    ∃ s, e = .step s sp ∧ Key (.keyLiteral text) s := by
  unfold Symbol.keyLiteral at h
  split at h
  · simp at h
  · next key hk =>
    split at h
    · simp at h
    · next hr =>
      cases h
      refine ⟨_, rfl, .literal hk ?_⟩
      cases hroot : key.root <;> simp_all

theorem key_of_siblingKey {t : Token} {e : Expr} (h : Symbol.siblingKey t = .ok e) :
    ∃ s, e = .step s t.span ∧ Key t.kind s := by
  unfold Symbol.siblingKey at h
  split at h
  · next text hk =>
    cases h
    exact ⟨_, rfl, hk ▸ .name text⟩
  · next text hk =>
    obtain ⟨s, rfl, hs⟩ := key_of_keyLiteral h
    exact ⟨s, rfl, hk ▸ hs⟩
  · simp at h

end Grammar

namespace Sentence

theorem consPiece_eq {made : Except ParseError (List Symbol)} {r : Sentence} {ss : List Symbol} {stop : Mark}
    (h : consPiece made r = ⟨ss, .ok stop⟩) : ∃ ss₁ ss₂, made = .ok ss₁ ∧ r = ⟨ss₂, .ok stop⟩ ∧ ss = ss₁ ++ ss₂ := by
  cases made with
  | error e => simp [consPiece, fail] at h
  | ok ss₁ =>
    obtain ⟨symbols, ending⟩ := r
    simp only [consPiece, prepend, mk.injEq] at h
    exact ⟨ss₁, symbols, rfl, by rw [h.2], h.1.symm⟩

section
variable {b b' : Option Symbol.OpenBracket} {taken rest : List Token} {made : Except ParseError (List Symbol)}
  {ss ss' : List Symbol}

/-- The end of the text belongs to no piece but a fault. -/
theorem Piece.finish_notMem (h : Piece b taken rest b' made) (hm : made = .ok ss) :
    TokenKind.finish ∉ taken.map (·.kind) := by
  cases h with
  | inner hk => rcases hk with hk | hk | ⟨text, hk⟩ <;> simp [hk]
  | unclosed | foreign | stray => cases hm
  | sign hs =>
    cases hs with
    | operator op => cases op <;> simp [Operator.kind]
    | _ => simp
  | @word k => cases k <;> simp_all [Symbol.simpleStep?]
  | @sibling colon t =>
    obtain ⟨key, hkey, -⟩ := map_eq_ok.1 hm
    obtain ⟨s, -, hs⟩ := key_of_siblingKey hkey
    have ht : TokenKind.finish ≠ t.kind := by
      intro hk
      rw [← hk] at hs
      cases hs
    simp [ht]
  | close | bracket | keyLiteral | number | range => simp

/-- A piece before tokens that are grouped is grouped with them. -/
theorem Piece.groups (h : Piece b taken rest b' made) (hm : made = .ok ss) (hg : GroupsFrom rest ss' b') :
    GroupsFrom (taken ++ rest) (ss ++ ss') b := by
  have hkinds := kindsToEnd_append (h.finish_notMem hm) rest
  cases h with
  | @inner o t =>
    cases hm
    obtain ⟨inner, close, sp, ks, e, ss₁, hks, he, rfl, hg⟩ := hg
    exact ⟨t :: inner, close, sp, ks, e, ss₁, by rw [hkinds, hks]; rfl, by simpa using he, rfl, hg⟩
  | @close o sp =>
    obtain ⟨e, he, rfl⟩ := map_eq_ok.1 hm
    exact ⟨[], _, _, kindsToEnd rest, e, ss', hkinds, by simpa using he, rfl, hg⟩
  | unclosed | foreign | stray => cases hm
  | bracket =>
    cases hm
    obtain ⟨inner, close, sp, ks, e, ss₁, hks, he, rfl, hg⟩ := hg
    rw [GroupsFrom, hkinds, hks]
    simpa using Groups.steps [e] (Symbol.bracket_text he) hg
  | sign hs =>
    cases hm
    rw [GroupsFrom, hkinds]
    cases hs with
    | slash => exact .slash _ hg
    | operator op => exact .operator op _ hg
    | openParen => exact .openParen _ hg
    | closeParen => exact .closeParen _ hg
  | word hs =>
    cases hm
    rw [GroupsFrom, hkinds]
    exact Groups.steps [.step _ _] (word_of_simpleStep hs) hg
  | keyLiteral =>
    obtain ⟨e, he, rfl⟩ := map_eq_ok.1 hm
    obtain ⟨s, rfl, hs⟩ := key_of_keyLiteral he
    rw [GroupsFrom, hkinds]
    exact Groups.steps [.step s _] (.key hs) hg
  | @sibling colon t =>
    obtain ⟨e, he, rfl⟩ := map_eq_ok.1 hm
    obtain ⟨s, rfl, hs⟩ := key_of_siblingKey he
    rw [GroupsFrom, hkinds]
    exact Groups.steps [.step .parent colon, .step s t.span] (.sibling hs) hg
  | number =>
    obtain ⟨i, hi, rfl⟩ := map_eq_ok.1 hm
    rw [GroupsFrom, hkinds]
    exact Groups.steps [.step (.index i) _] (.index (Symbol.integer_eq_ok.1 hi)) hg
  | range =>
    obtain ⟨i, hi, hm⟩ := bind_eq_ok.1 hm
    obtain ⟨j, hj, rfl⟩ := map_eq_ok.1 hm
    rw [GroupsFrom, hkinds]
    have hs := StepText.range (Symbol.integer_eq_ok.1 hi) (Symbol.integer_eq_ok.1 hj)
    exact Groups.steps [.step (.slice ⟨some i, some j, 1⟩) _] hs hg

end

theorem groups_ofTokens {f : Option LexError} {b : Option Symbol.OpenBracket} {ts : List Token} {ss : List Symbol}
    {stop : Mark} (h : ofTokens f b ts = ⟨ss, .ok stop⟩) (hf : TokenKind.finish ∈ ts.map (·.kind)) :
    GroupsFrom ts ss b := by
  induction b, ts using piece_induction generalizing ss with
  | nil | colon => simp at hf
  | finish =>
    rw [ofTokens_finish] at h
    cases h
    rw [GroupsFrom, kindsToEnd_finish rfl]
    exact .nil
  | piece hp ih =>
    rw [ofTokens_piece hp] at h
    obtain ⟨ss₁, ss₂, hm, hr, rfl⟩ := consPiece_eq h
    rw [List.map_append, List.mem_append] at hf
    exact hp.groups hm (ih hr (hf.resolve_left (hp.finish_notMem hm)))

/-- A fault of the text that no end precedes is a fault of the sentence. -/
theorem ending_of_failure {e : LexError} {b : Option Symbol.OpenBracket} {ts : List Token}
    (hn : TokenKind.finish ∉ ts.map (·.kind)) : ∃ e', (ofTokens (some e) b ts).ending = .error e' := by
  induction b, ts using piece_induction with
  | nil b => exact ⟨.lex e, by rw [ofTokens_nil]; rfl⟩
  | finish => simp at hn
  | colon sp => exact ⟨.lex e, by rw [ofTokens_colon]; rfl⟩
  | @piece _ _ _ _ made hp ih =>
    rw [List.map_append, List.mem_append, not_or] at hn
    rw [ofTokens_piece hp]
    cases made with
    | error e' => exact ⟨e', rfl⟩
    | ok ss => exact ih hn.2

theorem prepend_prepend (ss rs : List Symbol) (r : Sentence) : prepend ss (prepend rs r) = prepend (ss ++ rs) r := by
  simp [prepend]

theorem ofTokens_openBracket {f : Option LexError} {t : Token} (rest : List Token) (h : t.kind = .openBracket) :
    ofTokens f none (t :: rest) = ofTokens f (some ⟨t.span.start, []⟩) rest := by
  obtain ⟨k, sp⟩ := t
  obtain rfl : k = .openBracket := h
  exact ofTokens_piece .bracket

theorem ofTokens_bracket {f : Option LexError} {b : Symbol.OpenBracket} {inner rest : List Token} {c : Token}
    (hi : ∀ k ∈ inner.map (·.kind), Bracketed k) (hc : c.kind = .closeBracket) :
    ofTokens f (some b) (inner ++ c :: rest) =
      consStep (Symbol.bracket (b.items.reverse ++ inner) c.span.start ⟨b.mark, c.span.stop⟩) (ofTokens f none rest) := by
  induction inner generalizing b with
  | nil =>
    obtain ⟨k, sp⟩ := c
    obtain rfl : k = .closeBracket := hc
    rw [consStep_eq_consPiece, List.append_nil]
    exact ofTokens_piece .close
  | cons t ts ih =>
    have ht : ofTokens f (some b) ([t] ++ (ts ++ c :: rest)) =
        ofTokens f (some { b with items := t :: b.items }) (ts ++ c :: rest) :=
      ofTokens_piece (.inner (hi t.kind (by simp)))
    rw [List.cons_append, ← List.singleton_append, ht, ih fun k hk => hi k (List.mem_cons_of_mem _ hk)]
    simp

theorem ofTokens_number {f : Option LexError} {t : Token} {rest : List Token} {text : String} (hk : t.kind = .number text)
    (hr : EndsNumber (rest.map (·.kind))) :
    ofTokens f none (t :: rest) =
      consStep ((Symbol.integer text t.span.start).map fun n => .step (.index n) t.span) (ofTokens f none rest) := by
  obtain ⟨k, sp⟩ := t
  obtain rfl : k = .number text := hk
  rw [consStep_eq_consPiece, ← List.singleton_append, ofTokens_piece (.number hr)]
  cases Symbol.integer text sp.start <;> rfl

theorem simpleStep_of_word {k : TokenKind} {s : Step} (h : Word k s) : Symbol.simpleStep? k = some s := by
  cases h <;> rfl

theorem keyLiteral_of_key {text : String} {s : Step} (sp : Span) (h : Key (.keyLiteral text) s) :
    Symbol.keyLiteral text sp = .ok (.step s sp) := by
  cases h with
  | literal h hr =>
    unfold Symbol.keyLiteral
    simp [h, Option.isSome_iff_ne_none.1 hr]

theorem siblingKey_of_key {t : Token} {s : Step} (h : Key t.kind s) : Symbol.siblingKey t = .ok (.step s t.span) := by
  obtain ⟨k, sp⟩ := t
  cases hk : k <;> rw [hk] at h <;> try (cases h; done)
  case key text =>
    cases h
    rfl
  case keyLiteral text => exact keyLiteral_of_key sp h

/-- The tokens `ts` are grouped into the symbols `ss` wherever they stand, unless they end in a number that what
follows continues to a slice. -/
def Grouped (ts : List Token) (ss : List Symbol) : Prop :=
  ∀ (f : Option LexError) (rest : List Token), EndsNumber (rest.map (·.kind)) →
    ofTokens f none (ts ++ rest) = prepend ss (ofTokens f none rest)

theorem grouped_of_piece {ts : List Token} {made : Except ParseError (List Symbol)} {ss : List Symbol}
    (h : ∀ rest : List Token, EndsNumber (rest.map (·.kind)) → Piece none ts rest none made) (hm : made = .ok ss) :
    Grouped ts ss := by
  subst hm
  exact fun _ rest hr => ofTokens_piece (h rest hr)

theorem grouped_key {t : Token} {s : Step} (h : Key t.kind s) : Grouped [t] [.step (.step s t.span)] := by
  obtain ⟨k, sp⟩ := t
  cases hk : k <;> rw [hk] at h <;> try (cases h; done)
  case key text =>
    cases h
    exact grouped_of_piece (fun _ _ => .word rfl) rfl
  case keyLiteral text => exact grouped_of_piece (fun _ _ => .keyLiteral) (by rw [keyLiteral_of_key sp h]; rfl)

theorem grouped_bracket {b c : Token} {inner : List Token} {e : Expr} (hb : b.kind = .openBracket)
    (hi : ∀ k ∈ inner.map (·.kind), Bracketed k) (hc : c.kind = .closeBracket)
    (he : Symbol.bracket inner c.span.start ⟨b.span.start, c.span.stop⟩ = .ok e) :
    Grouped (b :: (inner ++ [c])) [.step e] := by
  intro f rest _
  rw [List.cons_append, List.append_assoc, List.singleton_append, ofTokens_openBracket _ hb, ofTokens_bracket hi hc,
    consStep_eq_consPiece, List.reverse_nil, List.nil_append, he]
  rfl

theorem grouped_of_stepText {ts : List Token} {es : List Expr} (h : StepText (ts.map (·.kind)) es) :
    ∃ es' : List Expr, es'.map unmarked = es ∧ Grouped ts (es'.map .step) := by
  generalize hk : ts.map (·.kind) = ks at h
  cases h with
  | word hw =>
    obtain ⟨⟨k, sp⟩, rfl, rfl⟩ := List.map_eq_singleton_iff.1 hk
    exact ⟨[.step _ sp], rfl, grouped_of_piece (fun _ _ => .word (simpleStep_of_word hw)) rfl⟩
  | key hs =>
    obtain ⟨t, rfl, rfl⟩ := List.map_eq_singleton_iff.1 hk
    exact ⟨[.step _ t.span], rfl, grouped_key hs⟩
  | @sibling k s hs =>
    obtain ⟨⟨kc, sp⟩, ts, rfl, hc, hts⟩ := List.map_eq_cons_iff.1 hk
    obtain ⟨t, rfl, rfl⟩ := List.map_eq_singleton_iff.1 hts
    obtain rfl : kc = .colon := hc
    refine ⟨[.step .parent sp, .step s t.span], rfl, grouped_of_piece (fun _ _ => .sibling) ?_⟩
    rw [siblingKey_of_key hs]
    rfl
  | @index text i hi =>
    obtain ⟨⟨k, sp⟩, rfl, ht⟩ := List.map_eq_singleton_iff.1 hk
    obtain rfl : k = .number text := ht
    refine ⟨[.step (.index i) sp], rfl, grouped_of_piece (fun _ hr => .number hr) ?_⟩
    rw [Symbol.integer_eq_ok.2 hi]
    rfl
  | @range first second i j hi hj =>
    obtain ⟨⟨k₁, sp₁⟩, ts₁, rfl, h₁, hts₁⟩ := List.map_eq_cons_iff.1 hk
    obtain ⟨⟨k₂, sp₂⟩, ts₂, rfl, h₂, hts₂⟩ := List.map_eq_cons_iff.1 hts₁
    obtain ⟨⟨k₃, sp₃⟩, rfl, h₃⟩ := List.map_eq_singleton_iff.1 hts₂
    obtain rfl : k₁ = .number first := h₁
    obtain rfl : k₂ = .colon := h₂
    obtain rfl : k₃ = .number second := h₃
    refine ⟨[.step (.slice ⟨some i, some j, 1⟩) (sp₁.merge sp₃)], rfl, grouped_of_piece (fun _ _ => .range) ?_⟩
    rw [Symbol.integer_eq_ok.2 hi, Symbol.integer_eq_ok.2 hj]
    rfl
  | indices hi =>
    obtain ⟨b, ts₁, rfl, hb, hts₁⟩ := List.map_eq_cons_iff.1 hk
    obtain ⟨inner, ts₂, rfl, rfl, hts₂⟩ := List.map_eq_append_iff.1 hts₁
    obtain ⟨c, rfl, hc⟩ := List.map_eq_singleton_iff.1 hts₂
    obtain ⟨e, he, hu⟩ := Symbol.bracket_of_indices c.span.start ⟨b.span.start, c.span.stop⟩ hi
    exact ⟨[e], by simp [hu], grouped_bracket hb hi.bracketed hc he⟩
  | @slice ks s hs =>
    obtain ⟨b, ts₁, rfl, hb, hts₁⟩ := List.map_eq_cons_iff.1 hk
    obtain ⟨inner, ts₂, rfl, rfl, hts₂⟩ := List.map_eq_append_iff.1 hts₁
    obtain ⟨c, rfl, hc⟩ := List.map_eq_singleton_iff.1 hts₂
    have he := Symbol.bracket_of_range c.span.start ⟨b.span.start, c.span.stop⟩ hs
    exact ⟨[.step (.slice s) ⟨b.span.start, c.span.stop⟩], rfl, grouped_bracket hb hs.bracketed hc he⟩

end Sentence
end YamlQuery.Path
