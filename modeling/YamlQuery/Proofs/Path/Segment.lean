import YamlQuery.Path.OfNode
import YamlQuery.Proofs.Path.Scanning
import YamlQuery.Proofs.Text.Decimal
import YamlQuery.Proofs.Text.Escape
/-!
Segments of written paths: an index or a key, written as one token that spells the step back.
-/
namespace YamlQuery.Path
open CharClass Path.Expr Grammar

namespace Lexer
variable {b : Bool} {c : Char} {cs : List Char} {here : Cursor} {m start : Mark}

def marks : List Char :=
  ['/', '^', ',', ':', '(', ')', ']', '$', '%', '=', '.', '|', '*', '&', '[', '\x7b', '"', '\'', '-']

theorem kindAt_word (h : c ∉ marks) (b : Bool) (here : Cursor) :
    kindAt b c here =
      if isDigit c then number [] here
      else if startsName c then name .key here else .error (.unexpectedChar c here.mark) := by
  have hsingle : single? c = none := by
    unfold single?
    split
    all_goals first | rfl | exact absurd (by decide) h
  unfold kindAt
  rw [hsingle]
  dsimp only
  split
  all_goals first | exact absurd (by decide) h | rfl

/-- A character of a class that has no marks is none itself. -/
theorem not_mark {p : Char → Bool} (hp : marks.all (fun x => !p x) = true) (h : p c = true) : c ∉ marks := by
  intro hm
  have := List.all_eq_true.1 hp c hm
  simp [h] at this

theorem takeWhile_all {p : Char → Bool} (h : cs.all p = true) : cs.takeWhile p = cs ∧ cs.dropWhile p = [] := by
  have hall := List.all_eq_true.1 h
  exact ⟨List.takeWhile_eq_self_iff.2 hall, List.dropWhile_eq_nil_iff.2 hall⟩

theorem takes_name (b : Bool) (h : startsName c = true) (hcs : cs.all continuesName = true) :
    Takes b (c :: cs) (.key (String.ofList (c :: cs))) [] := by
  have hall : (c :: cs).all continuesName = true := by
    rw [List.all_cons, startsName_continuesName h, hcs]
    rfl
  obtain ⟨ht, hd⟩ := takeWhile_all hall
  have hk := kindAt_word (not_mark (by decide) h) b ⟨{}, c :: cs, .complete⟩
  rw [isDigit_of_startsName h, h, name, Cursor.takeWhile_complete, ht, hd] at hk
  exact takes_cons (isBlank_of_startsName h) hk

theorem number_ends {digits rest : List Char} (hall : ∀ c ∈ digits, isDigit c = true)
    (hr : ∀ c ∈ rest.head?, isDigit c = false) (sign : List Char) (m : Mark) : number sign ⟨m, digits ++ rest, .complete⟩ =
      .ok (.number (String.ofList (sign ++ digits)), ⟨m.advanceAll digits, rest, .complete⟩) := by
  obtain ⟨htake, hdrop⟩ := takeWhile_run hall hr
  rw [number, Cursor.takeWhile_complete, htake, hdrop]
  rfl

/-- Digits are a token up to the first character that is none. -/
theorem takes_number (b : Bool) {rest : List Char} (hcs : (c :: cs).all isDigit = true)
    (hr : ∀ d ∈ rest.head?, isDigit d = false) :
    Takes b (c :: cs ++ rest) (.number (String.ofList (c :: cs))) rest := by
  have hall := List.all_eq_true.1 hcs
  have h : isDigit c = true := hall c (by simp)
  have hk := kindAt_word (not_mark (by decide) h) b ⟨{}, c :: cs ++ rest, .complete⟩
  rw [h, number_ends hall hr] at hk
  exact takes_cons (isBlank_of_isDigit h) hk

theorem doubleQuoted_skip (start m : Mark) (body rest : List Char) :
    ∃ m', doubleQuoted start .complete body.length m (body ++ rest) = doubleQuoted start .complete 0 m' rest := by
  induction body generalizing m with
  | nil => exact ⟨m, rfl⟩
  | cons c body ih =>
    obtain ⟨m', h⟩ := ih (m.advance c)
    refine ⟨m', ?_⟩
    rw [List.cons_append, List.length_cons, doubleQuoted]
    exact h

/-- A character that is written between double quotes is read back. -/
theorem doubleQuoted_render (start m : Mark) (c : Char) (rest : List Char) :
    ∃ m', doubleQuoted start .complete 0 m (Escape.render .double c ++ rest) =
      prepend c (doubleQuoted start .complete 0 m' rest) := by
  rcases Escape.render_double c with ⟨hr, hq, hb⟩ | ⟨body, hr, hbody⟩
  · refine ⟨m.advance c, ?_⟩
    rw [hr, List.singleton_append, doubleQuoted_plain hq hb]
  · obtain ⟨m', hskip⟩ := doubleQuoted_skip start (m.advance '\\') body rest
    refine ⟨m', ?_⟩
    rw [hr, List.cons_append, doubleQuoted_escape (hbody.decodes rest), hskip]

/-- A reader that undoes the writing of each character and stops at a quote reads what is written before that quote. -/
theorem read_renderAll {style : Escape.Quoting} {quote : Char} {rest : List Char}
    {read : Mark → List Char → Except LexError (List Char × Cursor)}
    (hrender : ∀ m c more, ∃ m', read m (Escape.render style c ++ more) = prepend c (read m' more))
    (hclose : ∀ m, read m (quote :: rest) = .ok ([], ⟨m.advance quote, rest, .complete⟩)) (m : Mark) (cs : List Char) :
    ∃ m', read m (Escape.renderAll style cs ++ quote :: rest) = .ok (cs, ⟨m', rest, .complete⟩) := by
  induction cs generalizing m with
  | nil => exact ⟨_, hclose m⟩
  | cons c cs ih =>
    have hcons : Escape.renderAll style (c :: cs) ++ quote :: rest =
        Escape.render style c ++ (Escape.renderAll style cs ++ quote :: rest) := by
      simp [Escape.renderAll]
    obtain ⟨m₁, h₁⟩ := hrender m c (Escape.renderAll style cs ++ quote :: rest)
    obtain ⟨m₂, h₂⟩ := ih m₁
    refine ⟨m₂, ?_⟩
    rw [hcons, h₁, h₂]
    rfl

theorem doubleQuoted_renderAll (start m : Mark) (cs rest : List Char) :
    ∃ m', doubleQuoted start .complete 0 m (Escape.renderAll .double cs ++ '"' :: rest) =
      .ok (cs, ⟨m', rest, .complete⟩) :=
  read_renderAll (doubleQuoted_render start) (fun _ => rfl) m cs

/-- A text between double quotes is a key, whatever follows. -/
theorem takes_quoted (b : Bool) (cs rest : List Char) :
    Takes b ('"' :: (Escape.renderAll .double cs ++ '"' :: rest)) (.key (String.ofList cs)) rest := by
  have hb : isBlank '"' = false := by decide
  obtain ⟨m', h⟩ := doubleQuoted_renderAll {} (Mark.advance {} '"') cs rest
  have hk : kindAt b '"' ⟨{}, '"' :: (Escape.renderAll .double cs ++ '"' :: rest), .complete⟩ =
      (doubleQuoted {} .complete 0 (Mark.advance {} '"') (Escape.renderAll .double cs ++ '"' :: rest)).map fun r =>
        (.key (String.ofList r.1), r.2) := rfl
  rw [h] at hk
  exact takes_cons hb hk

end Lexer

structure Segment where
  text : String
  kind : TokenKind
  step : Step
  takes : Lexer.Takes false text.toList kind []
  spells : StepText [kind] [.step step {}]

namespace Segment

def ofIndex (i : Nat) (h : i < 2 ^ 63) : Segment where
  text := toString i
  kind := .number (toString i)
  step := .index (Int64.ofNat i)
  takes := by
    have hall : (Nat.toDigits 10 i).all isDigit = true := List.all_eq_true.2 (Integer.toDigits_isDigit i)
    rw [Nat.toString_eq_repr, Nat.toList_repr, Nat.repr_eq_ofList_toDigits]
    obtain ⟨c, cs, hcs⟩ := List.exists_cons_of_ne_nil (@Nat.toDigits_ne_nil i 10)
    rw [hcs] at hall ⊢
    have htakes : Lexer.Takes false (c :: cs ++ []) _ [] := Lexer.takes_number false hall (by simp)
    rwa [List.append_nil] at htakes
  spells := by
    apply StepText.index
    rw [Numeral, Nat.toString_eq_repr, Nat.toList_repr]
    exact Integer.int64_toDigits h

theorem takes_quote (s : String) :
    Lexer.Takes false ("\"" ++ String.ofList (Escape.renderAll .double s.toList) ++ "\"").toList (.key s) [] := by
  have ht := Lexer.takes_quoted false s.toList []
  rw [String.ofList_toList] at ht
  simpa using ht

def ofKey (text : String) : Segment where
  text := if Document.isBareKey text then text else "\"" ++ String.ofList (Escape.renderAll .double text.toList) ++ "\""
  kind := .key text
  step := .mapKey (.simple text)
  takes := by
    split
    · next h =>
      unfold Document.isBareKey at h
      split at h
      · next c cs hcs =>
        obtain ⟨hc, hall⟩ := Bool.and_eq_true_iff.1 h
        have ht := Lexer.takes_name false hc hall
        rw [← hcs, String.ofList_toList] at ht
        exact ht
      · simp at h
    · exact takes_quote text
  spells := .key (.name text)

variable (segments : List Segment)

def pathText : String := "/" ++ "/".intercalate (segments.map text)

def kinds : List TokenKind := segments.flatMap fun s => [.slash, s.kind]

def steps : List Expr := segments.map fun s => .step s.step {}

theorem toList_pathText (s : Segment) (segments : List Segment) :
    (pathText (s :: segments)).toList = (s :: segments).flatMap fun s => '/' :: s.text.toList := by
  induction segments generalizing s with
  | nil => simp [pathText]
  | cons t segments ih =>
    have ht := ih t
    simp only [pathText, List.map_cons, String.intercalate_cons_cons] at ht ⊢
    simp only [String.toList_append] at ht ⊢
    rw [List.flatMap_cons, ← ht]
    simp

theorem delimits_segments : Lexer.Delimits (segments.flatMap fun s => '/' :: s.text.toList) := by
  cases segments with
  | nil => exact Lexer.delimits_nil
  | cons s segments => exact Lexer.delimits_cons (.inr (.inr rfl)) _

theorem lexes_segments (b : Bool) : Lexer.Lexes b (segments.flatMap fun s => '/' :: s.text.toList) (kinds segments) := by
  induction segments generalizing b with
  | nil => exact .finish (by simp)
  | cons s segments ih =>
    have htoken := s.takes.append (delimits_segments segments)
    rw [List.nil_append] at htoken
    have hrest := Lexer.Lexes.token htoken s.takes.ne_finish (ih _)
    exact .token (Lexer.takes_single (by decide) rfl _) (by simp) hrest

/-- Segments behind slashes continue a chain. -/
theorem derives_append {ks : List TokenKind} {es : List Expr} (h : Derives .steps ks es) :
    Derives .steps (ks ++ kinds segments) (es ++ steps segments) := by
  induction segments generalizing ks es with
  | nil => simpa [kinds, steps] using h
  | cons s segments ih =>
    have hnext := Derives.next 1 h (.step s.spells)
    have hrest := ih hnext
    simpa [kinds, steps] using hrest

/-- The slash of a first segment is the root. -/
theorem derives_path (s : Segment) : Derives .steps (kinds (s :: segments)) (.step .root {} :: steps (s :: segments)) := by
  have hfirst := Derives.next 0 .root (.step s.spells)
  have hrest := derives_append segments hfirst
  simpa [kinds, steps] using hrest

/-- A path reads as the root and then the steps of its segments. -/
theorem ofText_pathText : ∃ p, Parsed.ofText (pathText segments) = .ok p ∧
    p.expr.unmarked = gather .chain (.step .root {} :: steps segments) := by
  cases segments with
  | nil =>
    have hlex : Lexer.Lexes false (pathText []).toList [.slash] :=
      .token (Lexer.takes_single (by decide) rfl []) (by simp) (.finish (by simp))
    exact Parsed.ok_of_lexes hlex (reads_of_chain (.bare .root))
  | cons s segments =>
    have hlex := lexes_segments (s :: segments) false
    rw [← toList_pathText] at hlex
    exact Parsed.ok_of_lexes hlex (reads_of_chain (.bare (derives_path segments s)))

end Segment
end YamlQuery.Path
