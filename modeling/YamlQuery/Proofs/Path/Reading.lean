import YamlQuery.Proofs.Path.Passing
import YamlQuery.Proofs.Path.Tokens
/-!
Reading a path is reading its tokens by the grammar: the two stacks accept what the grammar derives, and build the tree
that it spells.
-/
namespace YamlQuery.Path
open Path.Expr Grammar Outcome

def Lexed.Yields (r : Lexed) (ks : List TokenKind) : Prop :=
  r.failure = none ∧ r.tokens.map (·.kind) = ks ++ [.finish]

namespace Sentence

theorem kindsToEnd_concat {ts : List Token} {last : Token} (h : last.kind = .finish)
    (hts : ∀ t ∈ ts, t.kind ≠ .finish) : kindsToEnd (ts ++ [last]) = ts.map (·.kind) := by
  rw [kindsToEnd_append, kindsToEnd_finish h, List.append_nil]
  intro hm
  obtain ⟨t, ht, hk⟩ := List.mem_map.1 hm
  exact hts t ht hk

theorem reads_of_parse {f : Option LexError} {ts : List Token} {last : Token} {e : Expr} (hl : last.kind = .finish)
    (hts : ∀ t ∈ ts, t.kind ≠ .finish) (h : (ofTokens f none (ts ++ [last])).parse = .ok e) :
    Reads (ts.map (·.kind)) e.unmarked := by
  cases hs : ofTokens f none (ts ++ [last]) with
  | mk ss ending =>
    rw [hs] at h
    obtain ⟨m, hr, h⟩ := bind_eq_ok.1 h
    obtain ⟨stop, rfl, hf⟩ := bind_eq_ok.1 h
    have hg := groups_ofTokens hs (by simp [hl])
    have hg' : Groups (ts.map (·.kind)) ss := by
      rw [← kindsToEnd_concat hl hts]
      exact hg
    exact reads_of_run hg' hr hf

theorem finish_of_settles {m : Machine} {a : Expr} {n : Nat} (stop : Mark) (h : Settles n m [] a []) :
    m.finish stop = .ok a := by
  have hs : Machine.foldWhile 0 m.pending m.operands = .ok ([], [a]) := (h.loosen (Nat.zero_le n) trivial).2
  obtain ⟨os, ps, b⟩ := m
  obtain rfl : b = true := h.1
  simp [Machine.finish, hs, bind, Except.bind, pure, Except.pure]

theorem parse_of_reads {ts : List Token} {t : Expr} (f : Option LexError) (last : Token) (hl : last.kind = .finish)
    (h : Reads (ts.map (·.kind)) t) : ∃ e, (ofTokens f none (ts ++ [last])).parse = .ok e ∧ e.unmarked = t := by
  obtain ⟨es, hd, rfl⟩ := h
  obtain ⟨ss, hg, hp⟩ := hd.passes rfl
  have hs : ofTokens f none (ts ++ [last]) = ⟨ss, .ok last.span.start⟩ := by
    rw [hg f [last] (endsNumber_cons (by simp [hl]) [])]
    obtain ⟨k, sp⟩ := last
    obtain rfl : k = .finish := hl
    simp [ofTokens, prepend]
  obtain ⟨m, a, ha, hr, hm⟩ := hp [] [] [] rfl trivial
  refine ⟨a, ?_, ha⟩
  have hr' : Machine.run ss {} = .ok m := by simpa [Machine.run] using hr
  rw [hs, Sentence.parse, hr', bind_ok, bind_ok]
  exact finish_of_settles last.span.start hm

/-- Behind a fault of the text no expression is found. -/
theorem parse_of_failure {f : LexError} {ts : List Token} {e : Expr} (hts : ∀ t ∈ ts, t.kind ≠ .finish) :
    (ofTokens (some f) none ts).parse ≠ .ok e := by
  intro h
  have hn : TokenKind.finish ∉ ts.map (·.kind) := by
    intro hm
    obtain ⟨t, ht, hk⟩ := List.mem_map.1 hm
    exact hts t ht hk
  obtain ⟨e', he⟩ := ending_of_failure (e := f) (b := none) hn
  obtain ⟨m, _, h⟩ := bind_eq_ok.1 h
  obtain ⟨stop, hstop, _⟩ := bind_eq_ok.1 h
  simp [he] at hstop

theorem parse_iff_reads {r : Lexed} (h : r.Ends) (t : Expr) :
    (∃ e, (ofTokens r.failure none r.tokens).parse = .ok e ∧ e.unmarked = t) ↔ ∃ ks, r.Yields ks ∧ Reads ks t := by
  obtain ⟨tokens, failure⟩ := r
  rcases h with ⟨rfl, ts, last, rfl, hl, hts⟩ | ⟨hf, hts⟩
  · constructor
    · rintro ⟨e, he, rfl⟩
      exact ⟨ts.map (·.kind), ⟨rfl, by simp [hl]⟩, reads_of_parse hl hts he⟩
    · rintro ⟨ks, ⟨_, hks⟩, hr⟩
      have hk : ts.map (·.kind) = ks := by
        rw [List.map_append] at hks
        exact (List.append_inj_left' hks rfl)
      exact parse_of_reads _ last hl (hk ▸ hr)
  · obtain ⟨f, rfl⟩ := Option.ne_none_iff_exists'.1 hf
    constructor
    · rintro ⟨e, he, _⟩
      exact absurd he (parse_of_failure hts)
    · rintro ⟨ks, ⟨hn, _⟩, _⟩
      simp at hn

end Sentence

/-- The grammar is unambiguous: tokens spell one tree. -/
theorem Grammar.Reads.unique {ks : List TokenKind} {t t' : Expr} (h : Reads ks t) (h' : Reads ks t') : t = t' := by
  have hk : (ks.map fun k => (⟨k, {}⟩ : Token)).map (·.kind) = ks := by
    rw [List.map_map]
    exact List.map_id ks
  rw [← hk] at h h'
  obtain ⟨e, he, rfl⟩ := Sentence.parse_of_reads none ⟨.finish, {}⟩ rfl h
  obtain ⟨e', he', rfl⟩ := Sentence.parse_of_reads none ⟨.finish, {}⟩ rfl h'
  rw [he] at he'
  cases he'
  rfl

namespace Parsed

theorem ofBytes_eq_ok {bytes : List UInt8} {p : Parsed} (h : ofBytes bytes = .ok p) :
    (Sentence.ofTokens (Lexed.ofBytes bytes).failure none (Lexed.ofBytes bytes).tokens).parse = .ok p.expr := by
  obtain ⟨e, he, h⟩ := bind_eq_ok.1 h
  cases h
  exact he

theorem ofBytes_of_parse {bytes : List UInt8} {e : Expr}
    (h : (Sentence.ofTokens (Lexed.ofBytes bytes).failure none (Lexed.ofBytes bytes).tokens).parse = .ok e) :
    ∃ p, ofBytes bytes = .ok p ∧ p.expr = e := by
  refine ⟨⟨e, String.ofList (Utf8.read bytes).1⟩, ?_, rfl⟩
  rw [ofBytes, h]
  rfl

/-- A path that parses yields tokens that spell its tree. -/
theorem yields_of_ok {bytes : List UInt8} {p : Parsed} (h : ofBytes bytes = .ok p) :
    ∃ ks, (Lexed.ofBytes bytes).Yields ks ∧ Reads ks p.expr.unmarked :=
  (Sentence.parse_iff_reads (Lexed.ofBytes_ends bytes) _).1 ⟨_, ofBytes_eq_ok h, rfl⟩

/-- Tokens that spell a tree parse to it. -/
theorem ok_of_yields {bytes : List UInt8} {ks : List TokenKind} {t : Expr} (hy : (Lexed.ofBytes bytes).Yields ks)
    (h : Reads ks t) : ∃ p, ofBytes bytes = .ok p ∧ p.expr.unmarked = t := by
  obtain ⟨e, he, rfl⟩ := (Sentence.parse_iff_reads (Lexed.ofBytes_ends bytes) t).2 ⟨ks, hy, h⟩
  obtain ⟨p, hp, rfl⟩ := ofBytes_of_parse he
  exact ⟨p, hp, rfl⟩

/-- Parsing is reading by the grammar: a path parses to a tree exactly when its tokens spell it, and a path that has no
tokens up to its end does not parse. -/
theorem ofBytes_iff_reads (bytes : List UInt8) :
    (∀ t, (∃ p, ofBytes bytes = .ok p ∧ p.expr.unmarked = t) ↔ ∃ ks, (Lexed.ofBytes bytes).Yields ks ∧ Reads ks t) ∧
      ((Lexed.ofBytes bytes).failure ≠ none → ∀ p, ofBytes bytes ≠ .ok p) := by
  constructor
  · intro t
    constructor
    · rintro ⟨p, hp, rfl⟩
      exact yields_of_ok hp
    · rintro ⟨ks, hy, hr⟩
      exact ok_of_yields hy hr
  · intro hf p hp
    obtain ⟨ks, hy, _⟩ := yields_of_ok hp
    exact hf hy.1

end Parsed
end YamlQuery.Path
