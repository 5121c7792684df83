import YamlQuery.Proofs.Path.Tiling
/-!
The shape of parsed expressions. The tokens of a path stand one behind the other, so do the steps that the grammar makes of
them, and so do the operands on its stack. A combinator therefore covers its operands in the order of the text, and never
holds one of its own kind.
-/
namespace YamlQuery.Path
open Outcome

def Step.Sound : Step → Prop
  | slice s => s.stride ≠ 0
  | mapKey (.complex _ key) => key.root.isSome
  | _ => True

/-- A slice moves on by one where no stride is written. -/
theorem Step.sound_slice_one (start stop : Option Int64) : (slice ⟨start, stop, 1⟩).Sound := by
  show (1 : Int64) ≠ 0
  decide

namespace Expr

def Joins (c : Combinator) : Expr → Prop
  | step .. => False
  | join d _ _ => d = c

mutual

/-- Steps are sound and cover some text. Combinators have two operands at least and none of their own kind; these lie one
behind the other within the span of the whole. -/
def Sound : Expr → Prop
  | step s sp => s.Sound ∧ sp.start.pos < sp.stop.pos
  | join c es sp => 2 ≤ es.length ∧ (∀ e ∈ es, ¬e.Joins c) ∧ Row sp.start.pos sp.stop.pos es

def Row (a z : Nat) : List Expr → Prop
  | [] => a ≤ z
  | e :: es => a ≤ e.span.start.pos ∧ Sound e ∧ Row e.span.stop.pos z es

end

mutual

theorem Sound.lt : ∀ {e : Expr}, e.Sound → e.span.start.pos < e.span.stop.pos
  | step _ _, h => h.2
  | join _ [] _, h => absurd h.1 (by simp)
  | join _ (e :: es) _, h => by
    obtain ⟨_, _, hstart, he, hes⟩ := h
    exact Nat.lt_of_le_of_lt hstart (Nat.lt_of_lt_of_le he.lt hes.le)

theorem Row.le : ∀ {a z : Nat} {es : List Expr}, Row a z es → a ≤ z
  | _, _, [], h => h
  | _, _, e :: es, h => by
    obtain ⟨hstart, he, hes⟩ := h
    exact Nat.le_trans hstart (Nat.le_trans (Nat.le_of_lt he.lt) hes.le)

end

variable {a b y z : Nat} {e f : Expr} {es fs : List Expr} {c : Combinator}

theorem Row.from (h : Row a z es) (hb : b ≤ a) : Row b z es := by
  cases es with
  | nil => exact Nat.le_trans hb h
  | cons e es => exact ⟨Nat.le_trans hb h.1, h.2⟩

theorem Row.upTo (h : Row a y es) (hz : y ≤ z) : Row a z es := by
  induction es generalizing a with
  | nil => exact Nat.le_trans h hz
  | cons e es ih => exact ⟨h.1, h.2.1, ih h.2.2⟩

theorem row_append : Row a z (es ++ fs) ↔ ∃ y, Row a y es ∧ Row y z fs := by
  induction es generalizing a with
  | nil =>
    constructor
    · exact fun h => ⟨a, Nat.le_refl a, h⟩
    · rintro ⟨y, hle, h⟩
      exact h.from hle
  | cons e es ih =>
    constructor
    · rintro ⟨hstart, he, h⟩
      obtain ⟨y, hes, hfs⟩ := ih.1 h
      exact ⟨y, ⟨hstart, he, hes⟩, hfs⟩
    · rintro ⟨y, ⟨hstart, he, hes⟩, hfs⟩
      exact ⟨hstart, he, ih.2 ⟨y, hes, hfs⟩⟩

theorem row_singleton : Row a z [e] ↔ a ≤ e.span.start.pos ∧ e.Sound ∧ e.span.stop.pos ≤ z := Iff.rfl

theorem Sound.row (h : e.Sound) : Row e.span.start.pos e.span.stop.pos [e] := ⟨Nat.le_refl _, h, Nat.le_refl _⟩

/-- Every expression of a row is sound and between its two places. -/
theorem Row.mem (h : Row a z es) (he : e ∈ es) : Row a z [e] := by
  obtain ⟨before, after, rfl⟩ := List.append_of_mem he
  obtain ⟨y, hbefore, hstart, hsound, hafter⟩ := row_append.1 h
  exact ⟨Nat.le_trans hbefore.le hstart, hsound, hafter.le⟩

theorem Row.pairwise (h : Row a z es) : es.Pairwise fun e f => e.span.stop.pos ≤ f.span.start.pos := by
  induction es generalizing a with
  | nil => exact List.Pairwise.nil
  | cons e es ih => exact List.pairwise_cons.2 ⟨fun f hf => (h.2.2.mem hf).1, ih h.2.2⟩

theorem operandsOf_joins (h : e.Joins c) : e.operandsOf c = e.operands := by
  cases e with
  | step => exact h.elim
  | join d es sp => exact if_pos h

theorem operandsOf_not_joins (h : ¬e.Joins c) : e.operandsOf c = [e] := by
  cases e with
  | step => rfl
  | join d es sp => exact if_neg h

/-- What a sound expression contributes to a combinator: one operand at least, none of that kind, and all in a row. -/
theorem Sound.operandsOf (h : e.Sound) (c : Combinator) : 1 ≤ (e.operandsOf c).length ∧
    (∀ x ∈ e.operandsOf c, ¬x.Joins c) ∧ Row e.span.start.pos e.span.stop.pos (e.operandsOf c) := by
  by_cases hc : e.Joins c
  · rw [operandsOf_joins hc]
    cases e with
    | step => exact hc.elim
    | join d es sp =>
      obtain rfl : d = c := hc
      exact ⟨Nat.le_of_succ_le h.1, h.2⟩
  · rw [operandsOf_not_joins hc]
    exact ⟨Nat.le_refl 1, List.forall_mem_singleton.2 hc, h.row⟩

theorem span_combine (h : Row a z [e, f]) : (combine c e f).span = ⟨e.span.start, f.span.stop⟩ := by
  obtain ⟨_, he, hbetween, hf, _⟩ := h
  have hlt := he.lt
  have hlt' := hf.lt
  rw [combine, span, Span.merge, if_neg (by omega), if_pos (by omega)]

/-- Two expressions in a row are one under a combinator. -/
theorem Row.combine (h : Row a z [e, f]) (c : Combinator) : Row a z [combine c e f] := by
  have hspan : (Expr.combine c e f).span = ⟨e.span.start, f.span.stop⟩ := span_combine h
  obtain ⟨hstart, he, hbetween, hf, hstop⟩ := h
  obtain ⟨hlen, hkind, hrow⟩ := he.operandsOf c
  obtain ⟨hlen', hkind', hrow'⟩ := hf.operandsOf c
  refine row_singleton.2 ⟨?_, ⟨?_, ?_, ?_⟩, ?_⟩
  · rw [hspan]
    exact hstart
  · rw [List.length_append]
    omega
  · intro x hx
    rcases List.mem_append.1 hx with hx | hx
    · exact hkind x hx
    · exact hkind' x hx
  · have hmerge : e.span.merge f.span = ⟨e.span.start, f.span.stop⟩ := hspan
    rw [hmerge]
    exact row_append.2 ⟨e.span.stop.pos, hrow, hrow'.from hbetween⟩
  · rw [hspan]
    exact hstop

end Expr

namespace Symbol
variable {a b z : Nat} {t : Token} {ts : List Token} {e : Expr} {es : List Expr} {sp : Span} {ss : List Symbol}

def Row (a : Nat) : List Symbol → Prop
  | [] => True
  | step e :: ss => a ≤ e.span.start.pos ∧ e.Sound ∧ Row e.span.stop.pos ss
  | slash sp :: ss => a ≤ sp.start.pos ∧ sp.start.pos < sp.stop.pos ∧ Row sp.stop.pos ss
  | operator .. :: ss | openParen _ :: ss | closeParen _ :: ss => Row a ss

theorem Row.from (h : Row a ss) (hb : b ≤ a) : Row b ss := by
  induction ss with
  | nil => exact trivial
  | cons s ss ih =>
    cases s with
    | step | slash => exact ⟨Nat.le_trans hb h.1, h.2⟩
    | operator | openParen | closeParen => exact ih h

theorem sound_simpleStep {k : TokenKind} {s : Step} (h : simpleStep? k = some s) : s.Sound := by
  cases k <;> simp [simpleStep?] at h <;> subst h <;> exact trivial

/-- The step of a key literal stands in its place. -/
theorem keyLiteral_sound {text : String} (h : keyLiteral text sp = .ok e) (hsp : sp.start.pos < sp.stop.pos) :
    e.span = sp ∧ e.Sound := by
  unfold keyLiteral at h
  split at h
  · cases h
  · next key _ =>
    split at h
    · cases h
    · next hroot =>
      cases h
      refine ⟨rfl, ?_, hsp⟩
      show key.root.isSome
      simpa [Option.isSome_iff_ne_none] using hroot

theorem siblingKey_sound (h : siblingKey t = .ok e) (ht : t.Covers) : e.span = t.span ∧ e.Sound := by
  unfold siblingKey at h
  split at h
  · next text hk =>
    cases h
    exact ⟨rfl, trivial, ht.2 (by simp [hk])⟩
  · next text hk => exact keyLiteral_sound h (ht.2 (by simp [hk]))
  · cases h

theorem slice_sound (h : slice ts sp = .ok e) (hsp : sp.start.pos < sp.stop.pos) : e.span = sp ∧ e.Sound := by
  obtain ⟨fs, _, h⟩ := bind_eq_ok.1 h
  obtain ⟨values, _, h⟩ := bind_eq_ok.1 h
  dsimp only at h
  split at h
  · next n mark hv =>
    by_cases hn : n = 0
    · simp [hn, throw, throwThe, MonadExceptOf.throw, bind, Except.bind] at h
    · simp only [hn, hv, ↓reduceIte, pure, Except.pure, Except.ok.injEq] at h
      subst h
      exact ⟨rfl, hn, hsp⟩
  · next hv =>
    simp only [hv, pure, Except.pure, Except.ok.injEq] at h
    subst h
    exact ⟨rfl, Step.sound_slice_one _ _, hsp⟩

/-- Indices are steps in the places of their numbers, up to the token behind them. -/
theorem indices_row {close : Mark} {expecting : Bool} {u : Token} {us : List Token}
    (h : indices close expecting ts = .ok es) (hts : Token.Row a (ts ++ u :: us)) :
    Expr.Row a u.span.start.pos es ∧ (∀ e ∈ es, ∃ s sp, e = .step s sp) ∧ (expecting = true → es ≠ []) := by
  induction ts generalizing a expecting es with
  | nil =>
    rw [indices] at h
    split at h
    · cases h
    · next hexp =>
      cases h
      exact ⟨hts.1, by simp, by simp [hexp]⟩
  | cons t ts ih =>
    obtain ⟨hstart, ht, hts⟩ := hts
    rw [indices] at h
    split at h
    · next hk =>
      have hlt := ht.2 (by simp [hk])
      split at h
      · cases h
      · next hexp =>
        obtain ⟨hrow, hsteps, _⟩ := ih h hts
        exact ⟨hrow.from (by omega), hsteps, by simp [hexp]⟩
    · next text hk =>
      split at h
      · obtain ⟨i, _, h⟩ := bind_eq_ok.1 h
        obtain ⟨es, hes, h⟩ := bind_eq_ok.1 h
        cases h
        obtain ⟨hrow, hsteps, _⟩ := ih hes hts
        refine ⟨⟨hstart, ⟨trivial, ht.2 (by simp [hk])⟩, hrow⟩, ?_, by simp⟩
        exact List.forall_mem_cons.2 ⟨⟨_, _, rfl⟩, hsteps⟩
      · cases h
    · cases h

/-- The step of a bracket covers it. Several indices lie within it side by side. -/
theorem bracket_sound {u : Token} {us : List Token} {close : Mark} (h : bracket ts close sp = .ok e)
    (hts : Token.Row sp.start.pos (ts ++ u :: us)) (hstop : u.span.stop = sp.stop) (hu : u.kind ≠ .finish) :
    e.span = sp ∧ e.Sound := by
  obtain ⟨hstart, hcovers, _⟩ := hts.behind
  have hlt := hcovers.2 hu
  rw [hstop] at hlt
  have hsp : sp.start.pos < sp.stop.pos := Nat.lt_of_le_of_lt hstart hlt
  unfold bracket at h
  split at h
  · exact slice_sound h hsp
  · obtain ⟨es, hes, h⟩ := map_eq_ok.1 h
    obtain ⟨hrow, hsteps, hne⟩ := indices_row hes hts
    split at h
    · next s sp' =>
      subst h
      exact ⟨rfl, (hrow.mem (List.mem_singleton.2 rfl)).2.1.1, hsp⟩
    · next hmany =>
      subst h
      refine ⟨rfl, ?_, ?_, hrow.upTo (Nat.le_of_lt hlt)⟩
      · rcases es with _ | ⟨e, _ | ⟨f, es⟩⟩
        · exact absurd rfl (hne rfl)
        · obtain ⟨s, sp', rfl⟩ := hsteps e (List.mem_singleton.2 rfl)
          exact absurd rfl (hmany s sp')
        · simp
      · intro e he
        obtain ⟨s, sp', rfl⟩ := hsteps e he
        exact id

end Symbol

namespace Sentence
variable {a : Nat} {e : Expr} {r : Sentence} {sp : Span} {failure : Option LexError} {ts : List Token}

theorem row_consPiece {made : Except ParseError (List Symbol)} (h : ∀ ss, made = .ok ss → Symbol.Row a (ss ++ r.symbols)) :
    Symbol.Row a (consPiece made r).symbols := by
  cases made with
  | error e => trivial
  | ok ss => exact h ss rfl

theorem row_step (he : e.span = sp ∧ e.Sound) (ha : a ≤ sp.start.pos) {ss : List Symbol} (h : Symbol.Row sp.stop.pos ss) :
    Symbol.Row a (.step e :: ss) := by
  obtain ⟨rfl, he⟩ := he
  exact ⟨ha, he, h⟩

theorem row_word {s : Step} {ss : List Symbol} (sp : Span) (hs : s.Sound) (hsp : sp.start.pos < sp.stop.pos) (ha : a ≤ sp.start.pos)
    (h : Symbol.Row sp.stop.pos ss) : Symbol.Row a (.step (.step s sp) :: ss) := ⟨ha, ⟨hs, hsp⟩, h⟩

def Ungrouped (a : Nat) : Option Symbol.OpenBracket → List Token → Prop
  | none, ts => Token.Row a ts
  | some b, ts => a ≤ b.mark.pos ∧ Token.Row b.mark.pos (b.items.reverse ++ ts)

/-- The symbols of a piece stand in the row of its tokens, before those of the tokens behind them. -/
theorem Piece.row {b b' : Option Symbol.OpenBracket} {taken rest : List Token} {made : Except ParseError (List Symbol)}
    {ss : List Symbol} (h : Piece b taken rest b' made) (hm : made = .ok ss) (hu : Ungrouped a b (taken ++ rest)) :
    ∃ z, Ungrouped z b' rest ∧ ∀ rs, Symbol.Row z rs → Symbol.Row a (ss ++ rs) := by
  cases h with
  | @inner o t =>
    cases hm
    obtain ⟨ha, hrow⟩ := hu
    exact ⟨a, ⟨ha, by simpa using hrow⟩, fun _ => id⟩
  | @close o sp =>
    obtain ⟨e, he, rfl⟩ := map_eq_ok.1 hm
    obtain ⟨ha, hrow⟩ := hu
    obtain ⟨_, _, hrest⟩ := hrow.behind
    exact ⟨_, hrest, fun rs => row_step (Symbol.bracket_sound he hrow rfl (by simp)) ha⟩
  | unclosed | foreign | stray => cases hm
  | bracket =>
    cases hm
    obtain ⟨hstart, ht, hrest⟩ := hu
    exact ⟨a, ⟨hstart, hrest.from ht.1⟩, fun _ => id⟩
  | sign hs =>
    cases hm
    obtain ⟨hstart, ht, hrest⟩ := hu
    refine ⟨_, hrest, fun rs hrs => ?_⟩
    cases hs with
    | slash => exact ⟨hstart, ht.2 (by simp), hrs⟩
    | operator | openParen | closeParen => exact hrs.from (Nat.le_trans hstart ht.1)
  | @word k s sp rest hs =>
    cases hm
    obtain ⟨hstart, ht, hrest⟩ := hu
    have hne : k ≠ .finish := by
      rintro rfl
      cases hs
    exact ⟨_, hrest, fun rs => row_word sp (Symbol.sound_simpleStep hs) (ht.2 hne) hstart⟩
  | keyLiteral =>
    obtain ⟨e, he, rfl⟩ := map_eq_ok.1 hm
    obtain ⟨hstart, ht, hrest⟩ := hu
    exact ⟨_, hrest, fun rs => row_step (Symbol.keyLiteral_sound he (ht.2 (by simp))) hstart⟩
  | @sibling colon t =>
    obtain ⟨e, he, rfl⟩ := map_eq_ok.1 hm
    obtain ⟨hstart, hcolon, hbetween, ht, hrest⟩ := hu
    exact ⟨_, hrest, fun rs hrs =>
      row_word colon trivial (hcolon.2 (by simp)) hstart (row_step (Symbol.siblingKey_sound he ht) hbetween hrs)⟩
  | number =>
    obtain ⟨i, _, rfl⟩ := map_eq_ok.1 hm
    obtain ⟨hstart, ht, hrest⟩ := hu
    exact ⟨_, hrest, fun rs => row_word _ trivial (ht.2 (by simp)) hstart⟩
  | @range first second sp colon sp' rest =>
    obtain ⟨i, _, hm⟩ := bind_eq_ok.1 hm
    obtain ⟨j, _, rfl⟩ := map_eq_ok.1 hm
    obtain ⟨hstart, hsp, hbetween, hcolon, hbetween', hsp', hrest⟩ := hu
    have hlt := hsp.2 (by simp)
    have hlt₁ := hcolon.2 (by simp)
    have hlt₂ := hsp'.2 (by simp)
    dsimp only at hstart hlt hbetween hlt₁ hbetween' hlt₂ hrest
    have hmerge : sp.merge sp' = ⟨sp.start, sp'.stop⟩ := by
      rw [Span.merge, if_neg (by omega), if_pos (by omega)]
    have hslice : sp.start.pos < sp'.stop.pos := by omega
    rw [hmerge]
    exact ⟨_, hrest, fun rs => row_word ⟨sp.start, sp'.stop⟩ (Step.sound_slice_one _ _) hslice hstart⟩

/-- Tokens in a row make symbols in a row. -/
theorem row_ofTokens {b : Option Symbol.OpenBracket} (h : Ungrouped a b ts) :
    Symbol.Row a (ofTokens failure b ts).symbols := by
  induction b, ts using piece_induction generalizing a with
  | nil b =>
    rw [ofTokens_nil]
    cases failure <;> trivial
  | finish sp ts =>
    rw [ofTokens_finish]
    trivial
  | colon sp =>
    rw [ofTokens_colon]
    trivial
  | piece hp ih =>
    rw [ofTokens_piece hp]
    refine row_consPiece fun ss hm => ?_
    obtain ⟨z, hrest, hrow⟩ := hp.row hm h
    exact hrow _ (ih hrest)

end Sentence

namespace Machine
open Path.Expr
variable {a y z : Nat} {e f : Expr} {m m' : Machine} {op : Operator} {mark : Mark} {pending pending' : List Pending}
  {operands operands' rest : List Expr}

def Sound (z : Nat) (m : Machine) : Prop := Row 0 z m.operands.reverse

/-- The two latest operands become one. -/
theorem row_join (h : Row 0 z (f :: e :: rest).reverse) (c : Combinator) : Row 0 z (e.combine c f :: rest).reverse := by
  rw [List.reverse_cons, List.reverse_cons, List.append_assoc] at h
  rw [List.reverse_cons]
  obtain ⟨y, hrest, hlast⟩ := row_append.1 h
  exact row_append.2 ⟨y, hrest, Row.combine hlast c⟩

theorem Sound.upTo (h : m.Sound y) (hz : y ≤ z) : m.Sound z := Row.upTo h hz

/-- A step behind the operands is the latest one, or a part of it. -/
theorem Sound.pushStep (h : m.Sound a) (he : Row a z [e]) : (m.pushStep e).Sound z := by
  have hpushed : Row 0 z (e :: m.operands).reverse := by
    rw [List.reverse_cons]
    exact row_append.2 ⟨a, h, he⟩
  unfold Machine.pushStep
  split
  · next prev rest _ hops =>
    rw [hops] at hpushed
    exact row_join hpushed .chain
  · exact hpushed

theorem fold_row (h : fold op mark operands = .ok operands') (hrow : Row 0 z operands.reverse) :
    Row 0 z operands'.reverse := by
  unfold fold at h
  split at h
  · cases h
    exact row_join hrow _
  · cases h

theorem foldWhile_row {n : Nat} (h : foldWhile n pending operands = .ok (pending', operands'))
    (hrow : Row 0 z operands.reverse) : Row 0 z operands'.reverse := by
  induction pending generalizing operands with
  | nil =>
    cases h
    exact hrow
  | cons p pending ih =>
    cases p with
    | group =>
      cases h
      exact hrow
    | operator op mark =>
      rw [foldWhile] at h
      split at h
      · cases h
        exact hrow
      · obtain ⟨folded, hfold, h⟩ := bind_eq_ok.1 h
        exact ih h (fold_row hfold hrow)

theorem Sound.pushOperator (h : m.Sound z) (ho : m.pushOperator op mark = .ok m') : m'.Sound z := by
  unfold Machine.pushOperator at ho
  split at ho
  · cases ho
  · obtain ⟨⟨pending, operands⟩, hfold, ho⟩ := bind_eq_ok.1 ho
    cases ho
    exact foldWhile_row hfold h

theorem Sound.closeGroup (h : m.Sound z) (hc : m.closeGroup mark = .ok m') : m'.Sound z := by
  unfold Machine.closeGroup at hc
  dsimp only at hc
  split at hc
  · split at hc <;> cases hc
  · obtain ⟨⟨pending, operands⟩, hfold, hc⟩ := bind_eq_ok.1 hc
    have hrow : Row 0 z operands.reverse := foldWhile_row hfold h
    dsimp only at hc
    split at hc
    · next follows base start rest =>
      split at hc
      · cases hc
      · split at hc
        · split at hc
          · cases hc
            exact row_join hrow .chain
          · cases hc
        · cases hc
          exact hrow
    · cases hc

/-- A slash adds a step in its place, or nothing. -/
theorem Sound.slash {sp : Span} (h : m.Sound a) (ha : a ≤ sp.start.pos) (hsp : sp.start.pos < sp.stop.pos)
    (next : List Symbol) : (m.slash sp next).Sound sp.stop.pos := by
  unfold Machine.slash
  split
  · exact h.pushStep ⟨ha, ⟨trivial, hsp⟩, Nat.le_refl _⟩
  · split
    · exact h.pushStep ⟨ha, ⟨trivial, hsp⟩, Nat.le_refl _⟩
    · exact h.upTo (Nat.le_trans ha (Nat.le_of_lt hsp))

/-- Taking in a symbol keeps the operands in front of those that follow. -/
theorem Sound.take {s : Symbol} {next : List Symbol} (h : m.Sound a) (hs : Symbol.Row a (s :: next))
    (ht : m.take s next = .ok m') : ∃ z, m'.Sound z ∧ Symbol.Row z next := by
  cases s with
  | step e =>
    cases ht
    exact ⟨e.span.stop.pos, h.pushStep ⟨hs.1, hs.2.1, Nat.le_refl _⟩, hs.2.2⟩
  | slash sp =>
    cases ht
    exact ⟨sp.stop.pos, h.slash hs.1 hs.2.1 next, hs.2.2⟩
  | operator op mark => exact ⟨a, h.pushOperator ht, hs⟩
  | openParen mark =>
    cases ht
    exact ⟨a, h, hs⟩
  | closeParen mark => exact ⟨a, h.closeGroup ht, hs⟩

theorem Sound.run {ss : List Symbol} (h : m.Sound a) (hs : Symbol.Row a ss) (hr : Machine.run ss m = .ok m') :
    ∃ z, m'.Sound z := by
  induction ss generalizing m a with
  | nil =>
    cases hr
    exact ⟨a, h⟩
  | cons s ss ih =>
    obtain ⟨m₁, ht, hr⟩ := bind_eq_ok.1 hr
    obtain ⟨y, hm₁, hss⟩ := h.take hs ht
    exact ih hm₁ hss hr

/-- The one operand that is left at the end is the expression. -/
theorem Sound.finish {stop : Mark} (h : m.Sound z) (hf : m.finish stop = .ok e) : e.Sound := by
  unfold Machine.finish at hf
  dsimp only at hf
  split at hf
  · cases hf
  · cases hf
  · obtain ⟨⟨pending, operands⟩, hfold, hf⟩ := bind_eq_ok.1 hf
    have hrow : Row 0 z operands.reverse := foldWhile_row hfold h
    dsimp only at hf
    split at hf
    · cases hf
    · split at hf
      · next e' he =>
        cases hf
        rw [he] at hrow
        exact hrow.2.1
      · cases hf
      · cases hf

end Machine

namespace Parsed
variable {bytes : List UInt8} {p : Parsed}

/-- What parses is a sound expression. -/
theorem ofBytes_sound (h : ofBytes bytes = .ok p) : p.expr.Sound := by
  obtain ⟨ks, ⟨hf, _⟩, _⟩ := yields_of_ok h
  obtain ⟨_, htiled⟩ := Lexed.readFrom_tiled (Nat.lt_succ_self _) hf
  obtain ⟨m, hrun, hparse⟩ := bind_eq_ok.1 (ofBytes_eq_ok h)
  obtain ⟨stop, _, hfinish⟩ := bind_eq_ok.1 hparse
  have hsymbols : Symbol.Row 0 (Sentence.ofTokens (Lexed.ofBytes bytes).failure none (Lexed.ofBytes bytes).tokens).symbols :=
    Sentence.row_ofTokens htiled.row
  have hempty : Machine.Sound 0 {} := Nat.le_refl 0
  obtain ⟨z, hm⟩ := hempty.run hsymbols hrun
  exact hm.finish hfinish

end Parsed
end YamlQuery.Path
