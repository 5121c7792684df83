import YamlQuery.Proofs.Path.Scanning
import YamlQuery.Proofs.Path.Tiling
import YamlQuery.Proofs.Path.Unmarked
/-!
Blanks between tokens. A text that is read without a fault is read into tokens of the same kinds when blanks are put in
front of any of its tokens or behind the last one, and parses to the same tree or to the same error, up to marks.
-/
namespace YamlQuery.Path
open CharClass Outcome Cursor

/-- `cs'` is `cs`, with the tokens `ts` from mark `m` on, when blanks are put in front of tokens and behind the last one. -/
inductive Spread : Mark → List Char → List Token → List Char → Prop
  | finish {m : Mark} {cs cs' : List Char} {t : Token} (hk : t.kind = .finish) (hb : ∀ c ∈ cs', isBlank c = true)
    (hs : cs.Sublist cs') : Spread m cs [t] cs'
  | token {m : Mark} {blanks blanks' taken rest rest' : List Char} {t : Token} {ts : List Token}
    (hb : ∀ c ∈ blanks', isBlank c = true) (hs : blanks.Sublist blanks')
    (hspan : t.span = ⟨m.advanceAll blanks, (m.advanceAll blanks).advanceAll taken⟩)
    (h : Spread t.span.stop rest ts rest') : Spread m (blanks ++ (taken ++ rest)) (t :: ts) (blanks' ++ (taken ++ rest'))

namespace Lexer
variable {b : Bool} {m : Mark} {cs cs' rest : List Char} {k : TokenKind} {ks : List TokenKind}

theorem Takes.congr (h : Takes b cs k rest) (hc : cs.dropWhile isBlank = cs'.dropWhile isBlank) : Takes b cs' k rest := by
  obtain ⟨ch, tail, m, c, hcs, h⟩ := h
  exact ⟨ch, tail, m, c, hc ▸ hcs, h⟩

/-- Blanks in front of a text do not count. -/
theorem Lexes.congr (h : Lexes b cs ks) (hc : cs.dropWhile isBlank = cs'.dropWhile isBlank) : Lexes b cs' ks := by
  cases h with
  | finish hb =>
    refine .finish (List.dropWhile_eq_nil_iff.1 ?_)
    rw [← hc]
    exact List.dropWhile_eq_nil_iff.2 hb
  | token h hk t => exact .token (h.congr hc) hk t

/-- Two ways to split a text at the same byte are one. -/
theorem append_inj_of_encode {as bs as' bs' : List Char} (h : as ++ bs = as' ++ bs')
    (hl : (Utf8.encode as).length = (Utf8.encode as').length) : as = as' ∧ bs = bs' := by
  have hnil : ∀ {xs ys : List Char}, (Utf8.encode (xs ++ ys)).length = (Utf8.encode xs).length → ys = [] := by
    intro xs ys hxy
    by_contra hne
    have hpos := Utf8.encode_length_pos hne
    rw [Utf8.encode_append, List.length_append] at hxy
    omega
  rcases List.append_eq_append_iff.1 h with ⟨mid, rfl, rfl⟩ | ⟨mid, rfl, rfl⟩
  · obtain rfl := hnil hl.symm
    simp
  · obtain rfl := hnil hl
    simp

/-- The token that is read next, by the place of its span: it stands behind all blanks, and its characters are taken in. -/
theorem next_at {blanks taken : List Char} {t : Token} {c : Cursor}
    (h : Lexer.next b ⟨m, blanks ++ (taken ++ rest), .complete⟩ = .ok (t, c)) (ht : t.kind ≠ .finish)
    (hspan : t.span = ⟨m.advanceAll blanks, (m.advanceAll blanks).advanceAll taken⟩) :
    ∃ d ds, taken = d :: ds ∧ isBlank d = false ∧ (∀ d ∈ blanks, isBlank d = true) ∧ c = ⟨t.span.stop, rest, .complete⟩ := by
  simp only [Lexer.next, skipBlanks_complete, bind_ok, peek_complete] at h
  generalize hcs : blanks ++ (taken ++ rest) = cs at h
  cases hdrop : cs.dropWhile isBlank with
  | nil =>
    rw [hdrop] at h
    cases h
    exact absurd rfl ht
  | cons d ds =>
    rw [hdrop] at h
    obtain ⟨⟨k, c'⟩, hk, h⟩ := bind_eq_ok.1 h
    cases h
    obtain ⟨_, own, hne, hleads⟩ := leads_kindAt rfl hk
    obtain ⟨hstart, hstop⟩ := Span.mk.inj hspan
    have hsplit : cs.takeWhile isBlank ++ (d :: ds) = blanks ++ (taken ++ rest) := by
      rw [hcs, ← hdrop, List.takeWhile_append_dropWhile]
    obtain ⟨hblanks, htail⟩ := append_inj_of_encode hsplit (by
      have hpos := congrArg Mark.pos hstart
      rw [Mark.pos_advanceAll, Mark.pos_advanceAll] at hpos
      omega)
    have hown : own ++ c'.rest = taken ++ rest := hleads.rest.symm.trans htail
    obtain ⟨rfl, hrest⟩ := append_inj_of_encode hown (by
      have hpos := congrArg Mark.pos hstop
      rw [hleads.mark, hstart, Mark.pos_advanceAll (m.advanceAll blanks), Mark.pos_advanceAll (m.advanceAll blanks)] at hpos
      omega)
    obtain ⟨x, xs, rfl⟩ := List.exists_cons_of_ne_nil hne
    obtain ⟨rfl, -⟩ := List.cons.inj hleads.rest
    have hhead := List.head?_dropWhile_not isBlank cs
    rw [hdrop] at hhead
    refine ⟨d, xs, rfl, by simpa using hhead, ?_, ?_⟩
    · rw [← hblanks]
      exact fun x hx => List.all_eq_true.1 List.all_takeWhile x hx
    · obtain ⟨m', rest', e⟩ := c'
      obtain rfl : rest' = rest := hrest
      obtain rfl : e = .complete := hleads.ending
      rfl

end Lexer

namespace Spread
open Lexer
variable {b : Bool} {m : Mark} {cs cs' : List Char} {ts : List Token} {n : Nat}

/-- A spread text is made of the same tokens, and may stand for the text behind another one. -/
theorem lexes (h : Spread m cs ts cs') (hn : cs.length < n)
    (hr : Lexed.readFrom n b ⟨m, cs, .complete⟩ = ⟨ts, none⟩) :
    StandsFor cs cs' ∧ ∃ ks, ts.map (·.kind) = ks ++ [.finish] ∧ Lexes b cs' ks := by
  induction h generalizing n b with
  | @finish m cs cs' t hk hb hs =>
    have hcs : ∀ c ∈ cs, isBlank c = true := fun c hc => hb c (hs.subset hc)
    refine ⟨⟨?_, ?_⟩, [], by simp [hk], .finish hb⟩
    · exact fun d hd => .inl (isOuter_of_isBlank (hb d (List.mem_of_mem_head? hd)))
    · rw [List.dropWhile_eq_nil_iff.2 hb, List.dropWhile_eq_nil_iff.2 hcs]
  | @token m blanks blanks' taken rest rest' t ts hb hs hspan h ih =>
    obtain ⟨n, rfl⟩ := Nat.exists_eq_succ_of_ne_zero (by omega : n ≠ 0)
    cases hnext : Lexer.next b ⟨m, blanks ++ (taken ++ rest), .complete⟩ with
    | error e =>
      rw [Lexed.readFrom, hnext] at hr
      simp at hr
    | ok r =>
      obtain ⟨t', c⟩ := r
      rw [Lexed.readFrom, hnext] at hr
      by_cases hk : t'.kind = .finish
      · simp only [hk, ↓reduceIte, Lexed.mk.injEq, List.cons.injEq] at hr
        obtain ⟨⟨-, rfl⟩, -⟩ := hr
        cases h
      · simp only [hk, ↓reduceIte, Lexed.mk.injEq, List.cons.injEq] at hr
        obtain ⟨⟨rfl, hts⟩, hf⟩ := hr
        have hlt := next_shorter hnext hk
        obtain ⟨d, ds, rfl, hd, hblanks, rfl⟩ := next_at hnext hk hspan
        obtain ⟨hstands, ks, hks, hlexes⟩ := @ih t'.kind.endsOperand n (by dsimp only at hlt; omega)
          (by rw [← hts, ← hf])
        have hdrop : ∀ {bs : List Char} (more : List Char), (∀ c ∈ bs, isBlank c = true) →
            (bs ++ (d :: ds ++ more)).dropWhile isBlank = d :: ds ++ more := by
          intro bs more hbs
          rw [List.dropWhile_append_of_pos hbs]
          exact List.dropWhile_cons_of_neg (by simp [hd])
        have htakes : Takes b (d :: ds ++ rest) t'.kind rest :=
          (takes_of_next hnext hk).congr ((hdrop rest hblanks).trans (@hdrop [] rest (by simp)).symm)
        obtain ⟨left, hleft, hsame⟩ := htakes.spread hstands
        refine ⟨⟨?_, ?_⟩, t'.kind :: ks, by simp [hks], .token (hleft.blanks hb) hk (hlexes.congr hsame.symm)⟩
        · intro e he
          cases blanks' with
          | nil =>
            obtain rfl := List.sublist_nil.1 hs
            exact .inr he
          | cons x xs =>
            obtain rfl : x = e := by simpa using he
            exact .inl (isOuter_of_isBlank (hb x (by simp)))
        · rw [hdrop rest' hb, hdrop rest hblanks]
          rfl

end Spread

namespace Parsed
open Lexer

theorem unmarked_ofBytes (bytes : List UInt8) : unmarkedBy (fun p => p.expr.unmarked) (ofBytes bytes) =
    unmarkedBy Expr.unmarked (Sentence.ofTokens (Lexed.ofBytes bytes).failure none (Lexed.ofBytes bytes).tokens).parse := by
  unfold ofBytes
  dsimp only
  cases (Sentence.ofTokens (Lexed.ofBytes bytes).failure none (Lexed.ofBytes bytes).tokens).parse <;> rfl

/-- Blanks in front of tokens and behind the last one change neither the kinds of the tokens nor, up to marks, what they
parse to. -/
theorem ofBytes_spread {bytes : List UInt8} {cs' : List Char} (hf : (Lexed.ofBytes bytes).failure = none)
    (h : Spread {} (Utf8.read bytes).1 (Lexed.ofBytes bytes).tokens cs') :
    (Lexed.ofBytes (Utf8.encode cs')).failure = none ∧
      (Lexed.ofBytes (Utf8.encode cs')).tokens.map (·.kind) = (Lexed.ofBytes bytes).tokens.map (·.kind) ∧
      unmarkedBy (fun p => p.expr.unmarked) (ofBytes (Utf8.encode cs')) =
        unmarkedBy (fun p => p.expr.unmarked) (ofBytes bytes) := by
  have hread : Lexed.readFrom ((Utf8.read bytes).1.length + 1) false ⟨{}, (Utf8.read bytes).1, .complete⟩ =
      ⟨(Lexed.ofBytes bytes).tokens, none⟩ := by
    have hend : (Cursor.ofBytes bytes).ending = .complete := (Lexed.readFrom_tiled (Nat.lt_succ_self _) hf).1
    have hofBytes : Lexed.ofBytes bytes = Lexed.readFrom ((Utf8.read bytes).1.length + 1) false
        ⟨{}, (Utf8.read bytes).1, (Cursor.ofBytes bytes).ending⟩ := rfl
    rw [hend] at hofBytes
    rw [← hofBytes, ← hf]
  obtain ⟨-, ks, hks, hlexes⟩ := h.lexes (Nat.lt_succ_self _) hread
  have hyields : (Lexed.ofBytes (Utf8.encode cs')).Yields ks := by
    have htext := @ofText_yields_iff (String.ofList cs') ks
    rw [String.toList_ofList] at htext
    exact htext.2 hlexes
  obtain ⟨hf', hks'⟩ := hyields
  have hkinds := hks'.trans hks.symm
  refine ⟨hf', hkinds, ?_⟩
  rw [unmarked_ofBytes, unmarked_ofBytes, hf, hf']
  exact Sentence.parse_of_kinds hkinds

/-- Blanks around a bracket, a sign, an ampersand that joins two operands, and at both ends. -/
theorem ofBytes_spread_brackets :
    let text := Utf8.encode "[-1]&b".toList
    (Lexed.ofBytes text).failure = none ∧
      Spread {} (Utf8.read text).1 (Lexed.ofBytes text).tokens " [ -1\t]\n& b ".toList ∧
      unmarkedBy (fun p => p.expr.unmarked) (ofBytes (Utf8.encode " [ -1\t]\n& b ".toList)) =
        unmarkedBy (fun p => p.expr.unmarked) (ofBytes text) := by
  intro text
  have hf : (Lexed.ofBytes text).failure = none := by decide +kernel
  have htokens : (Lexed.ofBytes text).tokens =
      [⟨.openBracket, ⟨⟨0, 0, 0⟩, ⟨1, 0, 1⟩⟩⟩, ⟨.number "-1", ⟨⟨1, 0, 1⟩, ⟨3, 0, 3⟩⟩⟩, ⟨.closeBracket, ⟨⟨3, 0, 3⟩, ⟨4, 0, 4⟩⟩⟩,
        ⟨.and, ⟨⟨4, 0, 4⟩, ⟨5, 0, 5⟩⟩⟩, ⟨.key "b", ⟨⟨5, 0, 5⟩, ⟨6, 0, 6⟩⟩⟩, ⟨.finish, ⟨⟨6, 0, 6⟩, ⟨6, 0, 6⟩⟩⟩] := by
    decide +kernel
  have hspread : Spread {} (Utf8.read text).1 (Lexed.ofBytes text).tokens " [ -1\t]\n& b ".toList := by
    rw [htokens, Utf8.read_encode]
    refine @Spread.token _ [] [' '] ['['] _ _ _ _ (List.forall_mem_singleton.2 (by decide)) (by simp) rfl ?_
    refine @Spread.token _ [] [' '] ['-', '1'] _ _ _ _ (List.forall_mem_singleton.2 (by decide)) (by simp) rfl ?_
    refine @Spread.token _ [] ['\t'] [']'] _ _ _ _ (List.forall_mem_singleton.2 (by decide)) (by simp) rfl ?_
    refine @Spread.token _ [] ['\n'] ['&'] _ _ _ _ (List.forall_mem_singleton.2 (by decide)) (by simp) rfl ?_
    refine @Spread.token _ [] [' '] ['b'] _ _ _ _ (List.forall_mem_singleton.2 (by decide)) (by simp) rfl ?_
    exact .finish rfl (List.forall_mem_singleton.2 (by decide)) (by simp)
  exact ⟨hf, hspread, (ofBytes_spread hf hspread).2.2⟩

end Parsed
end YamlQuery.Path
