import YamlQuery.Proofs.Outcome
import YamlQuery.Proofs.Path.Grouping
import YamlQuery.Proofs.Path.NodeList
/-!
Marks of parsed expressions and of parse errors. The grammar makes no marks of its own: whatever holds of the marks of all
tokens, of a fault behind them and of the start of the text holds of every mark that a parse reports.
-/
namespace YamlQuery.Path
open Outcome

def Span.Marked (P : Mark → Prop) (sp : Span) : Prop := P sp.start ∧ P sp.stop

theorem Span.Marked.merge {P : Mark → Prop} {a b : Span} (ha : a.Marked P) (hb : b.Marked P) : (a.merge b).Marked P := by
  unfold Span.merge
  constructor
  · dsimp only
    split
    · exact hb.1
    · exact ha.1
  · dsimp only
    split
    · exact hb.2
    · exact ha.2

namespace Expr

mutual

def Marked (P : Mark → Prop) : Expr → Prop
  | step _ sp => sp.Marked P
  | join _ es sp => sp.Marked P ∧ MarkedAll P es

def MarkedAll (P : Mark → Prop) : List Expr → Prop
  | [] => True
  | e :: es => Marked P e ∧ MarkedAll P es

end

variable {P : Mark → Prop}

theorem markedAll_iff {es : List Expr} : MarkedAll P es ↔ ∀ e ∈ es, e.Marked P := by
  induction es with
  | nil => simp [MarkedAll]
  | cons e es ih => simp [MarkedAll, ih]

theorem Marked.span {e : Expr} (h : e.Marked P) : e.span.Marked P := by
  cases e with
  | step => exact h
  | join => exact h.1

theorem Marked.operandsOf {e : Expr} (h : e.Marked P) (c : Combinator) : ∀ x ∈ e.operandsOf c, x.Marked P := by
  intro x hx
  cases e with
  | step =>
    obtain rfl := List.mem_singleton.1 hx
    exact h
  | join d es sp =>
    rw [Expr.operandsOf] at hx
    split at hx
    · exact markedAll_iff.1 h.2 x hx
    · obtain rfl := List.mem_singleton.1 hx
      exact h

theorem Marked.combine {a b : Expr} (ha : a.Marked P) (hb : b.Marked P) (c : Combinator) : (combine c a b).Marked P := by
  refine ⟨ha.span.merge hb.span, markedAll_iff.2 ?_⟩
  intro x hx
  rcases List.mem_append.1 hx with hx | hx
  · exact ha.operandsOf c x hx
  · exact hb.operandsOf c x hx

theorem Marked.operands {e : Expr} (h : e.Marked P) : ∀ x ∈ e.operands, x.Marked P := by
  cases e with
  | step => simp [Expr.operands]
  | join => exact markedAll_iff.1 h.2

/-- The nodes listed for a tree are those that the property is about. -/
theorem Marked.nodes {e : Expr} (h : e.Marked P) : ∀ n ∈ e.nodes, n.expr.span.Marked P :=
  fun n hn => (nodes_induction h (fun _ hx => hx.operands) n hn).span

end Expr

/-- What is parsed satisfies `Q`, and an error is at a mark that satisfies `P`. -/
abbrev Carries {α : Type} (P : Mark → Prop) (Q : α → Prop) : Except ParseError α → Prop := Safe Q fun e => P e.mark

def Token.Marked (P : Mark → Prop) (t : Token) : Prop := t.span.Marked P

namespace Symbol
variable {P : Mark → Prop} {t : Token} {ts : List Token} {sp : Span} {m : Mark}

def Marked (P : Mark → Prop) : Symbol → Prop
  | step e => e.Marked P
  | slash sp => sp.Marked P
  | operator _ m | openParen m | closeParen m => P m

theorem carries_integer (text : String) (h : P m) : Carries P (fun _ => True) (integer text m) := by
  unfold integer
  split
  · exact safe_ok trivial
  · exact safe_error h

theorem carries_keyLiteral (text : String) (h : sp.Marked P) : Carries P (Expr.Marked P) (keyLiteral text sp) := by
  unfold keyLiteral
  split
  · exact safe_error h.1
  · split
    · exact safe_error h.1
    · exact safe_ok h

theorem carries_siblingKey (h : t.Marked P) : Carries P (Expr.Marked P) (siblingKey t) := by
  unfold siblingKey
  split
  · exact safe_ok h
  · exact carries_keyLiteral _ h
  · exact safe_error h.1

theorem marked_fields {done : List (List Token)} {last : List Token} (hd : ∀ f ∈ done, ∀ t ∈ f, t.Marked P)
    (hl : ∀ t ∈ last, t.Marked P) : ∀ f ∈ done ++ [last.reverse], ∀ t ∈ f, t.Marked P := by
  intro f hf
  rcases List.mem_append.1 hf with hf | hf
  · exact hd f hf
  · obtain rfl := List.mem_singleton.1 hf
    simpa using hl

theorem carries_fields {done : List (List Token)} {last : List Token} (hd : ∀ f ∈ done, ∀ t ∈ f, t.Marked P)
    (hl : ∀ t ∈ last, t.Marked P) (h : ∀ t ∈ ts, t.Marked P) :
    Carries P (fun fs => ∀ f ∈ fs, ∀ t ∈ f, t.Marked P) (fields done last ts) := by
  induction ts generalizing done last with
  | nil => exact safe_ok (marked_fields hd hl)
  | cons t ts ih =>
    obtain ⟨ht, hts⟩ := List.forall_mem_cons.1 h
    rw [fields]
    split
    · split
      · exact safe_error ht.1
      · exact ih (marked_fields hd hl) (by simp) hts
    · exact safe_error ht.1
    · exact ih hd (List.forall_mem_cons.2 ⟨ht, hl⟩) hts

theorem carries_field (h : ∀ t ∈ ts, t.Marked P) :
    Carries P (fun v : Option (Int64 × Mark) => ∀ n m, v = some (n, m) → P m) (field ts) := by
  match ts with
  | [] => exact safe_ok (by simp)
  | [t] =>
    have ht := h t (by simp)
    rw [field]
    split
    · refine (carries_integer _ ht.1).map ?_
      intro n _ n' m hm
      cases hm
      exact ht.1
    · exact safe_error ht.1
  | t :: u :: ts => exact safe_error (h u (by simp)).1

theorem carries_slice (h : ∀ t ∈ ts, t.Marked P) (hsp : sp.Marked P) : Carries P (Expr.Marked P) (slice ts sp) := by
  refine (carries_fields (by simp) (by simp) h).bind ?_
  intro fs hfs
  refine (safe_mapM fun f hf => carries_field (hfs f hf)).bind ?_
  intro values hvalues
  have hstride : ∀ n m, (values[2]?).join = some (n, m) → P m := by
    intro n m hv
    have hmem : some (some (n, m)) = values[2]? := by
      cases hx : values[2]? with
      | none => simp [hx] at hv
      | some v => simpa [hx] using hv.symm
    exact hvalues _ (List.mem_of_getElem? hmem.symm) n m rfl
  dsimp only
  split
  · next n mark hv =>
    split
    · show Carries P _ (.error (.zeroStride mark))
      exact safe_error (hstride n mark hv)
    · exact safe_ok hsp
  · exact safe_ok hsp

theorem carries_indices {close : Mark} (hc : P close) (h : ∀ t ∈ ts, t.Marked P) (expecting : Bool) :
    Carries P (fun es => ∀ e ∈ es, e.Marked P) (indices close expecting ts) := by
  induction ts generalizing expecting with
  | nil =>
    rw [indices]
    split
    · exact safe_error hc
    · exact safe_ok (by simp)
  | cons t ts ih =>
    obtain ⟨ht, hts⟩ := List.forall_mem_cons.1 h
    rw [indices]
    split
    · split
      · exact safe_error ht.1
      · exact ih hts true
    · split
      · refine (carries_integer _ ht.1).bind ?_
        intro i _
        refine (ih hts false).bind ?_
        intro es hes
        exact safe_ok (List.forall_mem_cons.2 ⟨ht, hes⟩)
      · exact safe_error ht.1
    · exact safe_error ht.1

theorem carries_bracket {close : Mark} (hc : P close) (h : ∀ t ∈ ts, t.Marked P) (hsp : sp.Marked P) :
    Carries P (Expr.Marked P) (bracket ts close sp) := by
  unfold bracket
  split
  · exact carries_slice h hsp
  · refine (carries_indices hc h true).map ?_
    intro es hes
    split
    · exact hsp
    · exact ⟨hsp, Expr.markedAll_iff.2 hes⟩

end Symbol

namespace Sentence
variable {P : Mark → Prop} {failure : Option LexError} {ts : List Token} {r : Sentence}

def Marked (P : Mark → Prop) (r : Sentence) : Prop := (∀ s ∈ r.symbols, s.Marked P) ∧ Carries P P r.ending

theorem marked_fail {e : ParseError} (h : P e.mark) : (fail e).Marked P := ⟨by simp [fail], safe_error h⟩

theorem Marked.consPiece {made : Except ParseError (List Symbol)} (h : r.Marked P)
    (hm : Carries P (fun ss => ∀ s ∈ ss, s.Marked P) made) : (consPiece made r).Marked P := by
  cases made with
  | error e => exact marked_fail hm
  | ok ss => exact ⟨List.forall_mem_append.2 ⟨hm, h.1⟩, h.2⟩

def OpenMarked (P : Mark → Prop) (b : Option Symbol.OpenBracket) : Prop :=
  ∀ o, b = some o → P o.mark ∧ ∀ t ∈ o.items, t.Marked P

theorem openMarked_none : OpenMarked P none := by
  intro o ho
  simp at ho

theorem OpenMarked.cons {o : Symbol.OpenBracket} {t : Token} (h : OpenMarked P (some o)) (ht : t.Marked P) :
    OpenMarked P (some { o with items := t :: o.items }) := by
  intro o' ho
  cases ho
  exact ⟨(h o rfl).1, List.forall_mem_cons.2 ⟨ht, (h o rfl).2⟩⟩

theorem Sign.marked {k : TokenKind} {s : Span → Symbol} {sp : Span} (h : Sign k s) (hsp : sp.Marked P) : (s sp).Marked P := by
  cases h with
  | slash => exact hsp
  | operator | openParen | closeParen => exact hsp.1

/-- A piece keeps the marks of its tokens, in its symbols or in the bracket that is open behind them. -/
theorem Piece.marked {b b' : Option Symbol.OpenBracket} {taken rest : List Token} {made : Except ParseError (List Symbol)}
    (h : Piece b taken rest b' made) (hb : OpenMarked P b) (ht : ∀ t ∈ taken, t.Marked P) :
    OpenMarked P b' ∧ Carries P (fun ss => ∀ s ∈ ss, s.Marked P) made := by
  cases h with
  | @inner o t => exact ⟨hb.cons (ht t (by simp)), safe_ok (by simp)⟩
  | @close o sp =>
    obtain ⟨hmark, hitems⟩ := hb o rfl
    have hsp : sp.Marked P := ht ⟨.closeBracket, sp⟩ (by simp)
    have hspan : Span.Marked P ⟨o.mark, sp.stop⟩ := ⟨hmark, hsp.2⟩
    have hinner : ∀ t ∈ o.items.reverse, t.Marked P := by simpa using hitems
    have hbracket := Symbol.carries_bracket hsp.1 hinner hspan
    exact ⟨openMarked_none, hbracket.map fun e he => List.forall_mem_singleton.2 he⟩
  | @unclosed o => exact ⟨openMarked_none, safe_error (hb o rfl).1⟩
  | @foreign o t => exact ⟨openMarked_none, safe_error (ht t (by simp)).1⟩
  | @bracket sp =>
    have hsp : sp.Marked P := ht ⟨.openBracket, sp⟩ (by simp)
    refine ⟨?_, safe_ok (by simp)⟩
    intro o ho
    cases ho
    exact ⟨hsp.1, by simp⟩
  | @sign k s sp rest hs =>
    have hsp : sp.Marked P := ht ⟨k, sp⟩ (by simp)
    exact ⟨openMarked_none, safe_ok (List.forall_mem_singleton.2 (hs.marked hsp))⟩
  | @word k s sp =>
    have hsp : sp.Marked P := ht ⟨k, sp⟩ (by simp)
    exact ⟨openMarked_none, safe_ok (List.forall_mem_singleton.2 hsp)⟩
  | @keyLiteral text sp =>
    have hsp : sp.Marked P := ht ⟨.keyLiteral text, sp⟩ (by simp)
    exact ⟨openMarked_none, (Symbol.carries_keyLiteral text hsp).map fun e he => List.forall_mem_singleton.2 he⟩
  | @sibling colon t =>
    have hc : colon.Marked P := ht ⟨.colon, colon⟩ (by simp)
    have hkey := Symbol.carries_siblingKey (ht t (by simp))
    exact ⟨openMarked_none, hkey.map fun key hk => List.forall_mem_cons.2 ⟨hc, List.forall_mem_singleton.2 hk⟩⟩
  | @number text sp =>
    have hsp : sp.Marked P := ht ⟨.number text, sp⟩ (by simp)
    exact ⟨openMarked_none, (Symbol.carries_integer text hsp.1).map fun _ _ => List.forall_mem_singleton.2 hsp⟩
  | @range first second sp colon sp' =>
    have hsp : sp.Marked P := ht ⟨.number first, sp⟩ (by simp)
    have hsp' : sp'.Marked P := ht ⟨.number second, sp'⟩ (by simp)
    have hmerge : (sp.merge sp').Marked P := hsp.merge hsp'
    refine ⟨openMarked_none, (Symbol.carries_integer first hsp.1).bind fun _ _ => ?_⟩
    exact (Symbol.carries_integer second hsp'.1).map fun _ _ => List.forall_mem_singleton.2 hmerge
  | @stray k sp =>
    have hsp : sp.Marked P := ht ⟨k, sp⟩ (by simp)
    exact ⟨openMarked_none, safe_error hsp.1⟩

/-- Grouping tokens keeps their marks. -/
theorem marked_ofTokens (h0 : P {}) (hf : ∀ e, failure = some e → P e.mark) {b : Option Symbol.OpenBracket}
    (hb : OpenMarked P b) (h : ∀ t ∈ ts, t.Marked P) : (ofTokens failure b ts).Marked P := by
  induction b, ts using piece_induction with
  | nil b =>
    rw [ofTokens_nil]
    cases failure with
    | none => exact ⟨by simp, safe_ok h0⟩
    | some e => exact marked_fail (hf e rfl)
  | finish sp ts =>
    have hsp : sp.Marked P := h ⟨.finish, sp⟩ (by simp)
    rw [ofTokens_finish]
    exact ⟨by simp, safe_ok hsp.1⟩
  | colon sp =>
    have hsp : sp.Marked P := h ⟨.colon, sp⟩ (by simp)
    rw [ofTokens_colon]
    cases failure with
    | none => exact marked_fail hsp.1
    | some e => exact marked_fail (hf e rfl)
  | piece hp ih =>
    obtain ⟨htaken, hrest⟩ := List.forall_mem_append.1 h
    obtain ⟨hopen, hmade⟩ := hp.marked hb htaken
    rw [ofTokens_piece hp]
    exact (ih hopen hrest).consPiece hmade

end Sentence

namespace Machine
variable {P : Mark → Prop} {m : Machine} {op : Operator} {mark : Mark} {operands : List Expr} {pending : List Pending}

def Marked (P : Mark → Prop) (m : Machine) : Prop := (∀ e ∈ m.operands, e.Marked P) ∧ ∀ p ∈ m.pending, P p.mark

def FoldMarked (P : Mark → Prop) (r : List Pending × List Expr) : Prop := (∀ p ∈ r.1, P p.mark) ∧ ∀ e ∈ r.2, e.Marked P

theorem Marked.pushStep {e : Expr} (h : m.Marked P) (he : e.Marked P) : (m.pushStep e).Marked P := by
  obtain ⟨operands, pending, after⟩ := m
  unfold Machine.pushStep
  split
  · next prev rest ha hops =>
    dsimp only at hops
    subst hops
    obtain ⟨hprev, hrest⟩ := List.forall_mem_cons.1 h.1
    exact ⟨List.forall_mem_cons.2 ⟨hprev.combine he .chain, hrest⟩, h.2⟩
  · exact ⟨List.forall_mem_cons.2 ⟨he, h.1⟩, h.2⟩

theorem carries_fold (hm : P mark) (h : ∀ e ∈ operands, e.Marked P) :
    Carries P (fun es => ∀ e ∈ es, e.Marked P) (fold op mark operands) := by
  unfold fold
  split
  · next b a rest =>
    obtain ⟨hb, hrest⟩ := List.forall_mem_cons.1 h
    obtain ⟨ha, hrest⟩ := List.forall_mem_cons.1 hrest
    exact safe_ok (List.forall_mem_cons.2 ⟨ha.combine hb _, hrest⟩)
  · exact safe_error hm

theorem carries_foldWhile (n : Nat) (hp : ∀ p ∈ pending, P p.mark) (h : ∀ e ∈ operands, e.Marked P) :
    Carries P (FoldMarked P) (foldWhile n pending operands) := by
  induction pending generalizing operands with
  | nil => exact safe_ok ⟨hp, h⟩
  | cons p pending ih =>
    cases p with
    | group => exact safe_ok ⟨hp, h⟩
    | operator op mark =>
      obtain ⟨hmark, hpending⟩ := List.forall_mem_cons.1 hp
      rw [foldWhile]
      split
      · exact safe_ok ⟨hp, h⟩
      · exact (carries_fold hmark h).bind fun _ hes => ih hpending hes

theorem Marked.pushOperator (h : m.Marked P) (hm : P mark) (op : Operator) : Carries P (Marked P) (m.pushOperator op mark) := by
  unfold Machine.pushOperator
  split
  · show Carries P _ (.error (.missingOperand mark))
    exact safe_error hm
  · refine (carries_foldWhile _ h.2 h.1).bind ?_
    rintro ⟨pending, operands⟩ ⟨hp, ho⟩
    exact safe_ok ⟨ho, List.forall_mem_cons.2 ⟨hm, hp⟩⟩

theorem Marked.openGroup (h : m.Marked P) (hm : P mark) : (m.openGroup mark).Marked P :=
  ⟨h.1, List.forall_mem_cons.2 ⟨hm, h.2⟩⟩

theorem Marked.slash {sp : Span} (h : m.Marked P) (hsp : sp.Marked P) (next : List Symbol) : (m.slash sp next).Marked P := by
  unfold Machine.slash
  split
  · exact h.pushStep hsp
  · split
    · exact h.pushStep hsp
    · exact h

/-- The latest entry that waits. -/
theorem Marked.head {p : Pending} {ps : List Pending} (h : m.Marked P) (hp : m.pending = p :: ps) : P p.mark :=
  h.2 p (by simp [hp])

theorem Marked.closeGroup (h : m.Marked P) (hm : P mark) : Carries P (Marked P) (m.closeGroup mark) := by
  unfold Machine.closeGroup
  dsimp only
  split
  · split
    · next start rest hp =>
      show Carries P _ (.error (.emptyExpression start))
      exact safe_error (h.head hp)
    · next op opMark rest hp =>
      show Carries P _ (.error (.missingOperand opMark))
      exact safe_error (h.head hp)
    · show Carries P _ (.error (.unmatchedParen mark))
      exact safe_error hm
  · refine (carries_foldWhile 0 h.2 h.1).bind ?_
    rintro ⟨pending, operands⟩ ⟨hp, ho⟩
    dsimp only at hp ho ⊢
    split
    · next follows base start rest =>
      obtain ⟨hstart, hrest⟩ := List.forall_mem_cons.1 hp
      split
      · show Carries P _ (.error (.incompleteExpression start))
        exact safe_error hstart
      · split
        · split
          · next inner outer others =>
            obtain ⟨hinner, ho⟩ := List.forall_mem_cons.1 ho
            obtain ⟨houter, ho⟩ := List.forall_mem_cons.1 ho
            exact safe_ok ⟨List.forall_mem_cons.2 ⟨houter.combine hinner .chain, ho⟩, hrest⟩
          · exact safe_error hstart
        · exact safe_ok ⟨ho, hrest⟩
    · exact safe_error hm

theorem carries_take {s : Symbol} (hs : s.Marked P) (h : m.Marked P) (next : List Symbol) :
    Carries P (Marked P) (m.take s next) := by
  cases s with
  | step e => exact safe_ok (h.pushStep hs)
  | slash sp => exact safe_ok (h.slash hs next)
  | operator op mark => exact h.pushOperator hs op
  | openParen mark => exact safe_ok (h.openGroup hs)
  | closeParen mark => exact h.closeGroup hs

theorem carries_run {ss : List Symbol} (hs : ∀ s ∈ ss, s.Marked P) (h : m.Marked P) :
    Carries P (Marked P) (run ss m) := by
  induction ss generalizing m with
  | nil => exact safe_ok h
  | cons s ss ih =>
    obtain ⟨hhead, htail⟩ := List.forall_mem_cons.1 hs
    exact (carries_take hhead h ss).bind fun _ hm => ih htail hm

theorem Marked.finish {stop : Mark} (h : m.Marked P) (hstop : P stop) : Carries P (Expr.Marked P) (m.finish stop) := by
  unfold Machine.finish
  dsimp only
  split
  · next base mark rest _ hp =>
    show Carries P _ (.error (.unmatchedParen mark))
    exact safe_error (h.head hp)
  · next op mark rest _ hp =>
    show Carries P _ (.error (.missingOperand mark))
    exact safe_error (h.head hp)
  · refine (carries_foldWhile 0 h.2 h.1).bind ?_
    rintro ⟨pending, operands⟩ ⟨hp, ho⟩
    dsimp only at hp ho ⊢
    split
    · next p rest => exact safe_error (hp p (by simp))
    · have hreverse : ∀ e ∈ operands.reverse, e.Marked P := fun e he => ho e (List.mem_reverse.1 he)
      split
      · next e he => exact safe_ok (hreverse e (by simp [he]))
      · exact safe_error hstop
      · next first e rest he => exact safe_error (hreverse e (by simp [he])).span.1

end Machine

/-- A parse reports no mark but those of the symbols. -/
theorem Sentence.Marked.parse {P : Mark → Prop} {r : Sentence} (h : r.Marked P) : Carries P (Expr.Marked P) r.parse := by
  refine (Machine.carries_run h.1 ⟨by simp, by simp⟩).bind ?_
  intro m hm
  exact h.2.bind fun stop hstop => hm.finish hstop

end YamlQuery.Path
