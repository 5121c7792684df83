import YamlQuery.Proofs.Path.PrintedKey
/-!
Plain scalars as key literals. Between the braces a quote opens a quoted part wherever it stands, and an exclamation mark
behind a blank or a comma is taken for a tag. Where that finds no fault, a text that reads as a plain scalar selects what the
quoted key selects.
-/
namespace YamlQuery.Path
open CharClass Outcome

namespace Lexer

inductive Escaped : List Char → Prop
  | nil : Escaped []
  | char {c : Char} {cs : List Char} (hq : c ≠ '"') (hb : c ≠ '\\') (h : Escaped cs) : Escaped (c :: cs)
  | pair {c : Char} {cs : List Char} (h : Escaped cs) : Escaped ('\\' :: c :: cs)

/-- The quoted parts of a text are closed, and where a tag may start no exclamation mark stands but that of a tag. `before`
is the character before the text, and a brace follows it. -/
inductive Closes : Option Char → List Char → Prop
  | nil {before : Option Char} : Closes before []
  | char {before : Option Char} {c : Char} {cs : List Char} (hd : c ≠ '"') (hs : c ≠ '\'')
    (ht : c = '!' → opensTag before = true → TagShape.scan? (c :: (cs ++ ['\x7d'])) ≠ none) (h : Closes (some c) cs) :
    Closes before (c :: cs)
  | double {before : Option Char} {body cs : List Char} (hb : Escaped body) (h : Closes (some '"') cs) :
    Closes before ('"' :: (body ++ '"' :: cs))
  | single {before : Option Char} {body cs : List Char} (hb : '\'' ∉ body) (h : Closes (some '\'') cs) :
    Closes before ('\'' :: (body ++ '\'' :: cs))

/-- A text without quotes and exclamation marks closes. -/
theorem closes_of_unquoted {before : Option Char} {cs : List Char} (h : ∀ c ∈ cs, c ∉ ['"', '\'', '!']) : Closes before cs := by
  induction cs generalizing before with
  | nil => exact .nil
  | cons c cs ih =>
    obtain ⟨hc, hcs⟩ := List.forall_mem_cons.1 h
    simp only [List.mem_cons, List.not_mem_nil, or_false, not_or] at hc
    exact .char hc.1 hc.2.1 (fun he => absurd he hc.2.2) (ih hcs)

def ClosesFrom : LiteralState → List Char → Prop
  | .bare _ before, cs => Closes before cs
  | .double _, cs => ∃ body tail, cs = body ++ '"' :: tail ∧ Escaped body ∧ Closes (some '"') tail
  | .single _, cs => ∃ body tail, cs = body ++ '\'' :: tail ∧ '\'' ∉ body ∧ Closes (some '\'') tail

section
variable {before : Option Char} {c : Char} {cs : List Char} {depth : Nat}

theorem closes_quote : Closes before ('"' :: cs) ↔ ClosesFrom (.double depth) cs := by
  constructor
  · rintro (_ | ⟨hd, _, _, _⟩ | ⟨hb, h⟩ | _)
    · exact absurd rfl hd
    · exact ⟨_, _, rfl, hb, h⟩
  · rintro ⟨body, tail, rfl, hb, h⟩
    exact .double hb h

theorem closes_apostrophe : Closes before ('\'' :: cs) ↔ ClosesFrom (.single depth) cs := by
  constructor
  · rintro (_ | ⟨_, hs, _, _⟩ | _ | ⟨hb, h⟩)
    · exact absurd rfl hs
    · exact ⟨_, _, rfl, hb, h⟩
  · rintro ⟨body, tail, rfl, hb, h⟩
    exact .single hb h

theorem closes_char (hd : c ≠ '"') (hs : c ≠ '\'') : Closes before (c :: cs) ↔
    (c = '!' → opensTag before = true → TagShape.scan? (c :: (cs ++ ['\x7d'])) ≠ none) ∧ Closes (some c) cs := by
  constructor
  · rintro (_ | ⟨_, _, ht, h⟩ | _ | _)
    · exact ⟨ht, h⟩
    · exact absurd rfl hd
    · exact absurd rfl hs
  · rintro ⟨ht, h⟩
    exact .char hd hs ht h

theorem not_closes_double_nil : ¬ClosesFrom (.double depth) [] := by
  rintro ⟨body, tail, h, -, -⟩
  simp at h

theorem closes_double_quote : ClosesFrom (.double depth) ('"' :: cs) ↔ Closes (some '"') cs := by
  constructor
  · rintro ⟨body, tail, h, hb, ht⟩
    cases hb with
    | nil => exact (List.cons.inj h).2 ▸ ht
    | char hq => exact absurd (List.cons.inj h).1.symm hq
    | pair => simp at h
  · exact fun h => ⟨[], cs, rfl, .nil, h⟩

theorem closes_double_pair : ClosesFrom (.double depth) ('\\' :: c :: cs) ↔ ClosesFrom (.double depth) cs := by
  constructor
  · rintro ⟨body, tail, h, hb, ht⟩
    cases hb with
    | nil => simp at h
    | char _ hb => exact absurd (List.cons.inj h).1.symm hb
    | pair hb => exact ⟨_, tail, (List.cons.inj (List.cons.inj h).2).2, hb, ht⟩
  · rintro ⟨body, tail, rfl, hb, ht⟩
    exact ⟨_, tail, rfl, .pair hb, ht⟩

theorem not_closes_double_backslash : ¬ClosesFrom (.double depth) ['\\'] := by
  rintro ⟨body, tail, h, hb, -⟩
  cases hb with
  | nil => simp at h
  | char _ hb => exact absurd (List.cons.inj h).1.symm hb
  | pair => simp at h

theorem closes_double_char (hq : c ≠ '"') (hb : c ≠ '\\') :
    ClosesFrom (.double depth) (c :: cs) ↔ ClosesFrom (.double depth) cs := by
  constructor
  · rintro ⟨body, tail, h, hbody, ht⟩
    cases hbody with
    | nil => exact absurd (List.cons.inj h).1 hq
    | char _ _ hbody => exact ⟨_, tail, (List.cons.inj h).2, hbody, ht⟩
    | pair => exact absurd (List.cons.inj h).1 hb
  · rintro ⟨body, tail, rfl, hbody, ht⟩
    exact ⟨_, tail, rfl, .char hq hb hbody, ht⟩

theorem not_closes_single_nil : ¬ClosesFrom (.single depth) [] := by
  rintro ⟨body, tail, h, -, -⟩
  simp at h

theorem closes_single_quote : ClosesFrom (.single depth) ('\'' :: cs) ↔ Closes (some '\'') cs := by
  constructor
  · rintro ⟨body, tail, h, hb, ht⟩
    cases body with
    | nil => exact (List.cons.inj h).2 ▸ ht
    | cons d body =>
      obtain ⟨rfl, -⟩ := List.cons.inj h
      simp at hb
  · exact fun h => ⟨[], cs, rfl, by simp, h⟩

theorem closes_single_char (hs : c ≠ '\'') : ClosesFrom (.single depth) (c :: cs) ↔ ClosesFrom (.single depth) cs := by
  constructor
  · rintro ⟨body, tail, h, hb, ht⟩
    cases body with
    | nil => exact absurd (List.cons.inj h).1 hs
    | cons d body => exact ⟨body, tail, (List.cons.inj h).2, fun hm => hb (List.mem_cons_of_mem d hm), ht⟩
  · rintro ⟨body, tail, rfl, hb, ht⟩
    exact ⟨c :: body, tail, rfl, by simp [hb, hs.symm], ht⟩

end

def depthOf : LiteralState → Nat
  | .bare depth _ | .double depth | .single depth => depth

theorem isOk_prependAll (taken : List Char) (r : Except LexError (List Char × Cursor)) :
    (taken.foldr prepend r).isOk = r.isOk := by
  induction taken with
  | nil => rfl
  | cons c taken ih =>
    rw [← ih, List.foldr_cons]
    cases taken.foldr prepend r <;> rfl

section
variable {s s' : LiteralState} {taken : List Char}

/-- Between brackets only those change the depth. -/
theorem LiteralState.Step.depthOf_eq {rest : List Char} (h : s.Step taken rest s')
    (hflat : ∀ c ∈ taken, c ∉ ['\x7b', '\x7d', '[', ']']) : depthOf s' = depthOf s := by
  cases h with
  | opens h => rcases h with rfl | rfl <;> simp at hflat
  | closes h => rcases h with rfl | rfl <;> simp at hflat
  | _ => rfl

/-- What is taken in before the closing brace closes if, and only if, what is left closes. -/
theorem LiteralState.Step.closesFrom_iff (h : s.Step taken (cs ++ ['\x7d']) s')
    (hflat : ∀ c ∈ taken, c ∉ ['\x7b', '\x7d', '[', ']']) : ClosesFrom s (taken ++ cs) ↔ ClosesFrom s' cs := by
  cases h with
  | opens h => rcases h with rfl | rfl <;> simp at hflat
  | closes h => rcases h with rfl | rfl <;> simp at hflat
  | opensDouble => exact closes_quote
  | opensSingle => exact closes_apostrophe
  | plain h ht =>
    simp only [List.mem_cons, List.not_mem_nil, or_false, not_or] at h
    exact (closes_char h.2.2.2.2.1 h.2.2.2.2.2).trans (and_iff_right ht)
  | escape => exact closes_double_pair
  | closesDouble => exact closes_double_quote
  | inDouble hq hb => exact closes_double_char hq fun hc => by simpa using hb hc
  | pair => exact closes_single_quote.trans closes_apostrophe
  | closesSingle => exact closes_single_quote
  | inSingle h => exact closes_single_char h

/-- Where the closing brace is taken in, it is within a quoted part. -/
theorem LiteralState.Step.not_closesFrom (h : s.Step (cs ++ ['\x7d']) [] s') (hs : depthOf s = 0) : ¬ClosesFrom s cs := by
  have hlast : ∀ l c, cs ++ ['\x7d'] = l ++ [c] → cs = l ∧ '\x7d' = c := fun l c h => by simpa using List.append_inj' h rfl
  generalize htaken : cs ++ ['\x7d'] = taken at h
  cases h with
  | opens h =>
    obtain ⟨-, rfl⟩ := hlast [] _ htaken
    simp at h
  | closes _ hd =>
    obtain ⟨-, rfl⟩ := hlast [] _ htaken
    exact absurd ⟨rfl, hs⟩ hd
  | opensDouble | closesDouble => exact absurd (hlast [] _ htaken).2 (by decide)
  | opensSingle | closesSingle => exact absurd (hlast [] _ htaken).2 (by decide)
  | plain h =>
    obtain ⟨-, rfl⟩ := hlast [] _ htaken
    simp at h
  | escape =>
    obtain ⟨rfl, -⟩ := hlast ['\\'] _ htaken
    exact not_closes_double_backslash
  | inDouble =>
    obtain ⟨rfl, -⟩ := hlast [] _ htaken
    exact not_closes_double_nil
  | pair => exact absurd (hlast ['\''] _ htaken).2 (by decide)
  | inSingle =>
    obtain ⟨rfl, -⟩ := hlast [] _ htaken
    exact not_closes_single_nil

end

/-- A text without brackets is read up to the brace behind it if, and only if, its quotes and tags close. -/
theorem keyLiteral_isOk_iff (start m : Mark) {s : LiteralState} {cs : List Char} (hflat : ∀ c ∈ cs, c ∉ ['\x7b', '\x7d', '[', ']'])
    (hs : depthOf s = 0) : (keyLiteral start .complete s m (cs ++ ['\x7d'])).isOk = true ↔ ClosesFrom s cs := by
  generalize hfull : cs ++ ['\x7d'] = full
  induction s, full using keyLiteral_induction generalizing m cs with
  | nil s => simp at hfull
  | close before rest =>
    rw [keyLiteral_close]
    rcases List.append_eq_cons_iff.1 hfull with ⟨rfl, -⟩ | ⟨cs', rfl, -⟩
    · exact ⟨fun _ => .nil, fun _ => rfl⟩
    · simp at hflat
  | @fault depth before rest hb ht =>
    rw [keyLiteral_fault hb ht]
    rcases List.append_eq_cons_iff.1 hfull with ⟨rfl, h⟩ | ⟨cs', rfl, rfl⟩
    · simp at h
    · have hno : ¬Closes before ('!' :: cs') := fun hc => ((closes_char (by decide) (by decide)).1 hc).1 rfl hb ht
      simp [ClosesFrom, hno, Except.isOk, Except.toBool]
  | @step s taken rest s' hstep ih =>
    rw [keyLiteral_step hstep, isOk_prependAll]
    have hleft : ∀ cs', cs = taken ++ cs' → cs' ++ ['\x7d'] = rest →
        ((keyLiteral start .complete s' (m.advanceAll taken) rest).isOk = true ↔ ClosesFrom s cs) := by
      rintro cs' rfl rfl
      obtain ⟨htaken, hcs'⟩ := List.forall_mem_append.1 hflat
      rw [hstep.closesFrom_iff htaken]
      exact ih _ hcs' ((hstep.depthOf_eq htaken).trans hs) rfl
    rcases List.append_eq_append_iff.1 hfull with ⟨own, rfl, hbrace⟩ | ⟨cs', hcs, hrest⟩
    · cases own with
      | nil => exact hleft [] (by simp) (by simpa using hbrace)
      | cons c own =>
        obtain ⟨rfl, hnil⟩ := List.cons.inj hbrace
        obtain ⟨rfl, rfl⟩ := List.append_eq_nil_iff.1 hnil.symm
        rw [keyLiteral_nil]
        exact iff_of_false Bool.false_ne_true (hstep.not_closesFrom hs)
    · exact hleft cs' hcs hrest.symm

theorem errs_keyLiteral_complete (start m : Mark) (s : LiteralState) (cs : List Char) :
    Errs (fun e => e = .unterminatedKey start ∨ ∃ m, e = .invalidTag m) (keyLiteral start .complete s m cs) := by
  induction s, cs using keyLiteral_induction generalizing m with
  | nil s =>
    rw [keyLiteral_nil]
    exact errs_error (.inl rfl)
  | close before cs =>
    rw [keyLiteral_close]
    exact errs_ok _
  | fault hb ht =>
    rw [keyLiteral_fault hb ht]
    exact errs_error (.inr ⟨m, rfl⟩)
  | @step s taken rest s' hstep ih =>
    rw [keyLiteral_step hstep]
    exact errs_prependAll taken (ih (m.advanceAll taken))

end Lexer

structure PlainKey (s : String) (key : Document) (probe : NodeId) : Prop where
  nonempty : s ≠ ""
  first : ∀ c ∈ s.toList.head?, isBlank c = false
  last : ∀ c ∈ s.toList.getLast?, isBlank c = false
  flat : ∀ c ∈ s.toList, c ∉ ['\x7b', '\x7d', '[', ']']
  read : Document.read s = .ok key
  root : key.root = some probe
  content : key.content? probe = some (.scalar s .plain)
  tag : key.tag? probe = none

theorem Segment.spells_key (s : String) : Grammar.StepText [.key s] [.step (.mapKey (.simple s)) {}] := .key (.name s)

def Segment.ofQuoted (s : String) : Segment where
  text := "\"" ++ String.ofList (Escape.renderAll .double s.toList) ++ "\""
  kind := .key s
  step := .mapKey (.simple s)
  takes := takes_quote s
  spells := spells_key s

namespace PlainKey
open Lexer
variable {s : String} {key : Document} {probe : NodeId} (h : PlainKey s key probe)
include h

theorem toList_cons : ∃ c cs, s.toList = c :: cs ∧ isBlank c = false ∧ c ≠ '\x7d' := by
  have hne : s.toList ≠ [] := fun hnil => h.nonempty (String.toList_eq_nil_iff.1 hnil)
  obtain ⟨c, cs, hcs⟩ := List.exists_cons_of_ne_nil hne
  refine ⟨c, cs, hcs, h.first c (by simp [hcs]), ?_⟩
  rintro rfl
  exact h.flat '\x7d' (by simp [hcs]) (by simp)

theorem trimEnd_eq : trimEnd s.toList = s.toList := by
  have hne : s.toList ≠ [] := fun hnil => h.nonempty (String.toList_eq_nil_iff.1 hnil)
  have hlast := h.last (s.toList.getLast hne) (by simp [List.getLast?_eq_some_getLast hne])
  rw [← List.dropLast_append_getLast hne]
  exact trimEnd_concat _ hlast

/-- What is read between the braces is the text, to its end. -/
theorem keyLiteral_eq (hc : Closes none s.toList) (m : Mark) :
    ∃ m', keyLiteral {} .complete (.bare 0 none) m (s.toList ++ ['\x7d']) = .ok (s.toList, ⟨m', [], .complete⟩) := by
  have hok := (keyLiteral_isOk_iff {} m (s := .bare 0 none) h.flat rfl).2 hc
  cases hread : keyLiteral {} .complete (.bare 0 none) m (s.toList ++ ['\x7d']) with
  | error e =>
    rw [hread] at hok
    cases hok
  | ok r =>
    obtain ⟨text, m', rest, ending⟩ := r
    have hsplit : s.toList ++ ['\x7d'] = text ++ '\x7d' :: rest := keyLiteral_closes hread
    obtain ⟨taken, hleads⟩ := leads_keyLiteral hread
    obtain rfl : ending = .complete := hleads.ending
    have hmem : '\x7d' ∉ s.toList := fun hm => h.flat _ hm (by simp)
    rcases List.append_eq_append_iff.1 hsplit with ⟨mid, rfl, hmid⟩ | ⟨mid, htext, hmid⟩
    · cases mid with
      | nil =>
        obtain rfl : rest = [] := by simpa using hmid.symm
        exact ⟨m', by rw [List.append_nil]⟩
      | cons d mid => simp at hmid
    · cases mid with
      | nil =>
        obtain rfl : rest = [] := by simpa using hmid
        exact ⟨m', by rw [htext, List.append_nil]⟩
      | cons d mid =>
        obtain ⟨rfl, -⟩ := List.cons.inj hmid
        exact absurd (by simp [htext]) hmem

theorem takes_literal (hc : Closes none s.toList) : Takes false ("\x7b" ++ s ++ "\x7d").toList (.keyLiteral s) [] := by
  obtain ⟨c, cs, hcs, hblank, hclose⟩ := h.toList_cons
  obtain ⟨m', hread⟩ := h.keyLiteral_eq hc (Mark.advance {} '\x7b')
  have htrim := h.trimEnd_eq
  have htext : TokenKind.keyLiteral s = .keyLiteral (String.ofList (c :: cs)) := by rw [← hcs, String.ofList_toList]
  have hlist : ("\x7b" ++ s ++ "\x7d").toList = '\x7b' :: (c :: cs ++ ['\x7d']) := by
    rw [String.toList_append, String.toList_append, hcs]
    rfl
  rw [hcs] at hread htrim
  rw [htext, hlist]
  exact takes_braced false hblank hclose hread htrim

def segment (hc : Closes none s.toList) : Segment where
  text := "\x7b" ++ s ++ "\x7d"
  kind := .keyLiteral s
  step := .mapKey (.complex s key)
  takes := h.takes_literal hc
  spells := .key (.literal h.read (by simp [h.root]))

/-- Where the quotes or tags do not close, the path is no path. -/
theorem ofText_error (hc : ¬Closes none s.toList) :
    ∃ e, Parsed.ofText ("\x7b" ++ s ++ "\x7d") = .error (.lex e) ∧ (e = .unterminatedKey {} ∨ ∃ m, e = .invalidTag m) := by
  obtain ⟨c, cs, hcs, hblank, hclose⟩ := h.toList_cons
  have hno := mt (keyLiteral_isOk_iff {} (Mark.advance {} '\x7b') (s := .bare 0 none) h.flat rfl).1 hc
  cases hread : keyLiteral {} .complete (.bare 0 none) (Mark.advance {} '\x7b') (s.toList ++ ['\x7d']) with
  | ok r =>
    rw [hread] at hno
    exact absurd rfl hno
  | error e =>
    refine ⟨e, ?_, errs_keyLiteral_complete _ _ _ _ e hread⟩
    have hlist : ("\x7b" ++ s ++ "\x7d").toList = '\x7b' :: (c :: cs ++ ['\x7d']) := by
      rw [String.toList_append, String.toList_append, hcs]
      rfl
    have hnext : Lexer.next false ⟨{}, '\x7b' :: (c :: cs ++ ['\x7d']), .complete⟩ = .error e := by
      have hbrace := brace_literal hblank hclose {} (Mark.advance {} '\x7b') (cs ++ ['\x7d'])
      rw [← List.cons_append, ← hcs, hread, Except.map, hcs] at hbrace
      have hskip : Cursor.skipBlanks ⟨{}, '\x7b' :: (c :: cs ++ ['\x7d']), .complete⟩ =
          .ok ⟨{}, '\x7b' :: (c :: cs ++ ['\x7d']), .complete⟩ := Cursor.skipBlanks_complete _ _
      have hkind : kindAt false '\x7b' ⟨{}, '\x7b' :: (c :: cs ++ ['\x7d']), .complete⟩ = .error e := hbrace
      simp only [Lexer.next, hskip, bind_ok, Cursor.peek_complete, List.head?_cons, hkind]
      rfl
    have hlexed : Lexed.ofBytes (Utf8.encode ("\x7b" ++ s ++ "\x7d").toList) = ⟨[], some e⟩ := by
      have hcursor : Cursor.ofBytes (Utf8.encode ("\x7b" ++ s ++ "\x7d").toList) =
          ⟨{}, '\x7b' :: (c :: cs ++ ['\x7d']), .complete⟩ := by
        rw [Cursor.ofBytes, Utf8.read_encode, hlist]
      rw [Lexed.ofBytes, hcursor, Lexed.readFrom, hnext]
    rw [Parsed.ofText, Parsed.ofBytes, hlexed]
    rfl

theorem lookupKey_eq (d : Document) (m : NodeId) : d.lookupKey? m key probe = d.lookupText? m s := by
  have htext : key.text? probe = some s := by
    rw [Document.text?, h.content]
    rfl
  have heq : ∀ x, d.nodesEqual x key probe = (d.text? x == some s) := fun x => Document.equalWithin_text h.tag htext
  simp only [Document.lookupKey?, Document.lookupText?, heq]

theorem execute_eq {p q : Parsed} (hp : p.expr.unmarked = .step (.mapKey (.complex s key)) {})
    (hq : q.expr.unmarked = .step (.mapKey (.simple s)) {}) (d : Document) (id : NodeId) (options : EvalOptions) :
    p.expr.execute d id options = q.expr.execute d id options := by
  have hlookup : Walk.lookup? ⟨d, options⟩ (.complex s key) = Walk.lookup? ⟨d, options⟩ (.simple s) := by
    funext m
    simp only [Walk.lookup?, h.root, Option.bind_some, h.lookupKey_eq]
  rw [Parsed.execute_of_unmarked (f := .step (.mapKey (.complex s key)) {}) hp,
    Parsed.execute_of_unmarked (f := .step (.mapKey (.simple s)) {}) hq]
  simp only [Expr.execute, Walk.eval, Walk.step, hlookup]

end PlainKey

theorem Expr.eq_step_of_unmarked {e : Expr} {s : Step} (h : e.unmarked = .step s {}) : ∃ sp, e = .step s sp := by
  cases e with
  | step t sp =>
    obtain ⟨rfl, -⟩ := Expr.step.inj h
    exact ⟨sp, rfl⟩
  | join => cases h

/-- A text that reads as a plain scalar is a key literal that selects what the quoted key selects, on every node of every
document, if its quotes and tags close; otherwise the literal is a fault. Without quotes and exclamation marks they close. -/
theorem plainKey_selects {s : String} {key : Document} {probe : NodeId} (h : PlainKey s key probe) :
    (Lexer.Closes none s.toList → ∃ p q sp sq,
      Parsed.ofText ("\x7b" ++ s ++ "\x7d") = .ok p ∧ p.expr = .step (.mapKey (.complex s key)) sp ∧
      Parsed.ofText ("\"" ++ String.ofList (Escape.renderAll .double s.toList) ++ "\"") = .ok q ∧
      q.expr = .step (.mapKey (.simple s)) sq ∧
      ∀ (d : Document) (id : NodeId) (options : EvalOptions), p.expr.execute d id options = q.expr.execute d id options) ∧
    (¬Lexer.Closes none s.toList → ∃ e, Parsed.ofText ("\x7b" ++ s ++ "\x7d") = .error (.lex e) ∧
      (e = .unterminatedKey {} ∨ ∃ m, e = .invalidTag m)) ∧
    ((∀ c ∈ s.toList, c ∉ ['"', '\'', '!']) → Lexer.Closes none s.toList) := by
  refine ⟨?_, h.ofText_error, Lexer.closes_of_unquoted⟩
  intro hc
  obtain ⟨p, hp, hstep⟩ := (h.segment hc).ofText_text
  obtain ⟨q, hq, hquoted⟩ := (Segment.ofQuoted s).ofText_text
  obtain ⟨sp, hsp⟩ := Expr.eq_step_of_unmarked hstep
  obtain ⟨sq, hsq⟩ := Expr.eq_step_of_unmarked hquoted
  exact ⟨p, q, sp, sq, hp, hsp, hq, hsq, h.execute_eq hstep hquoted⟩

/-- What makes a text a plain key, in a form that can be evaluated. -/
theorem exists_plainKey {s : String} (hs : s ≠ "" ∧ s.toList.head?.all (fun c => !isBlank c) = true ∧
      s.toList.getLast?.all (fun c => !isBlank c) = true ∧
      s.toList.all (fun c => c ∉ ['\x7b', '\x7d', '[', ']']) = true)
    (hread : (Document.read s).toOption.map (fun d => (d.root, d.content? 0, d.tag? 0)) =
      some (some 0, some (.scalar s .plain), none)) : ∃ key, PlainKey s key 0 := by
  obtain ⟨hne, hfirst, hlast, hflat⟩ := hs
  obtain ⟨key, hkey, hroot⟩ := Option.map_eq_some_iff.1 hread
  simp only [Prod.mk.injEq] at hroot
  simp only [Option.all_eq_true, List.all_eq_true, Bool.not_eq_true', decide_eq_true_eq] at hfirst hlast hflat
  exact ⟨key, hne, hfirst, hlast, hflat, eq_ok_of_toOption hkey, hroot.1, hroot.2.1, hroot.2.2⟩

/-- Quotes, a tag and commas within a plain scalar. -/
theorem plainKey_selects_quotation : ∃ key, PlainKey "say \"a, 'b\", !c d" key 0 ∧
    Lexer.Closes none "say \"a, 'b\", !c d".toList ∧ ∃ p q,
      Parsed.ofText "\x7bsay \"a, 'b\", !c d\x7d" = .ok p ∧ Parsed.ofText "\"say \\\"a, 'b\\\", !c d\"" = .ok q ∧
      ∀ (d : Document) (id : NodeId) (options : EvalOptions), p.expr.execute d id options = q.expr.execute d id options := by
  obtain ⟨key, hkey⟩ := exists_plainKey (s := "say \"a, 'b\", !c d") (by decide +kernel) (by decide +kernel)
  have hcloses : Lexer.Closes none "say \"a, 'b\", !c d".toList :=
    (Lexer.keyLiteral_isOk_iff {} {} (s := .bare 0 none) hkey.flat rfl).1 (by decide +kernel)
  obtain ⟨p, q, _, _, hp, -, hq, -, hexec⟩ := (plainKey_selects hkey).1 hcloses
  exact ⟨key, hkey, hcloses, p, q, hp, hq, hexec⟩

/-- An apostrophe within a word is read as an open quote: the literal is a fault, while the quoted key selects. -/
theorem plainKey_apostrophe : ∃ key, PlainKey "it's" key 0 ∧
    Parsed.ofText "\x7bit's\x7d" = .error (.lex (.unterminatedKey {})) ∧
    ∃ d q, Document.read "it's: v" = .ok d ∧ Parsed.ofText "\"it's\"" = .ok q ∧ q.expr.execute d 0 {} = .ok [2] := by
  obtain ⟨key, hkey⟩ := exists_plainKey (s := "it's") (by decide +kernel) (by decide +kernel)
  have hfault : Parsed.ofText "\x7bit's\x7d" = .error (.lex (.unterminatedKey {})) := rfl
  have hquoted : ((Document.read "it's: v").toOption.bind fun d => (Parsed.ofText "\"it's\"").toOption.bind fun q =>
      (q.expr.execute d 0 {}).toOption) = some [2] := by decide +kernel
  obtain ⟨d, hd, hquoted⟩ := Option.bind_eq_some_iff.1 hquoted
  obtain ⟨q, hq, hexec⟩ := Option.bind_eq_some_iff.1 hquoted
  exact ⟨key, hkey, hfault, d, q, eq_ok_of_toOption hd, eq_ok_of_toOption hq, eq_ok_of_toOption hexec⟩

end YamlQuery.Path
