import YamlQuery.Proofs.Path.TagExtent
import YamlQuery.Proofs.Path.Tokens
/-!
What follows a token. A token is found by its own characters and at most one behind them: another text that goes on alike, or
with a delimiter or a blank, can stand in the place of what follows. An opening bracket looks behind the blanks that follow
it, and takes them in.
-/
namespace YamlQuery.Path
open CharClass Outcome

namespace Cursor

theorem peek_complete (m : Mark) (cs : List Char) : peek ⟨m, cs, .complete⟩ = .ok cs.head? := by
  cases cs <;> rfl

theorem takeWhile_complete (p : Char → Bool) (m : Mark) (cs : List Char) :
    takeWhile p ⟨m, cs, .complete⟩ =
      .ok (cs.takeWhile p, ⟨m.advanceAll (cs.takeWhile p), cs.dropWhile p, .complete⟩) := by
  simp [takeWhile, peek_complete, Except.map]

theorem skipBlanks_complete (m : Mark) (cs : List Char) :
    skipBlanks ⟨m, cs, .complete⟩ = .ok ⟨m.advanceAll (cs.takeWhile isBlank), cs.dropWhile isBlank, .complete⟩ := by
  simp [skipBlanks, takeWhile_complete, Except.map]

theorem skipBlanks_run {blanks rest : List Char} (hb : ∀ c ∈ blanks, isBlank c = true)
    (hr : ∀ c ∈ rest.head?, isBlank c = false) (m : Mark) :
    skipBlanks ⟨m, blanks ++ rest, .complete⟩ = .ok ⟨m.advanceAll blanks, rest, .complete⟩ := by
  obtain ⟨htake, hdrop⟩ := takeWhile_run hb hr
  rw [skipBlanks_complete, htake, hdrop]

end Cursor

namespace Lexer
open Cursor

def isOuter (d : Char) : Bool := d == '(' || d == ')' || d == '/' || isBlank d

def Near (rest rest' : List Char) : Prop := ∀ d ∈ rest'.head?, isOuter d = true ∨ d ∈ rest.head?

def Inner (p : Char → Bool) : Prop := ∀ d, isOuter d = true → p d = false

variable {rest rest' cs : List Char}

theorem inner_of_class {p : Char → Bool} (h : p '(' = false ∧ p ')' = false ∧ p '/' = false)
    (hb : ∀ d, p d = true → isBlank d = false) : Inner p := by
  intro d hd
  simp only [isOuter, Bool.or_eq_true, beq_iff_eq] at hd
  obtain ⟨h1, h2, h3⟩ := h
  rcases hd with ((rfl | rfl) | rfl) | hd
  · exact h1
  · exact h2
  · exact h3
  · rw [Bool.eq_false_iff]
    intro hpd
    rw [hb d hpd] at hd
    cases hd

theorem inner_isDigit : Inner isDigit := inner_of_class (by decide) fun _ => isBlank_of_isDigit

theorem inner_startsName : Inner startsName := inner_of_class (by decide) fun _ => isBlank_of_startsName

theorem inner_continuesName : Inner continuesName := inner_of_class (by decide) fun _ => isBlank_of_continuesName

/-- A class of characters that does not go on in `rest` does not go on in `rest'`. -/
theorem Near.head {p : Char → Bool} (h : Near rest rest') (hp : Inner p) (hr : ∀ d ∈ rest.head?, p d = false) :
    ∀ d ∈ rest'.head?, p d = false := by
  intro d hd
  cases h d hd with
  | inl hd => exact hp d hd
  | inr hd => exact hr d hd

theorem Near.head_ne {c : Char} (h : Near rest rest') (hc : isOuter c = false) (hr : rest.head? ≠ some c) :
    rest'.head? ≠ some c := by
  intro hd
  cases h c hd with
  | inl hd => simp [hc] at hd
  | inr hd => exact hr hd

/-- What `x` reads of the text `cs` is read by `y` of every text that has the characters of the token, and behind them what
may stand for what follows. -/
def Found {α : Type} (cs : List Char) (x : Except LexError (α × Cursor)) (y : List Char → Except LexError (α × Cursor)) :
    Prop :=
  ∀ a c, x = .ok (a, c) → ∃ taken, cs = taken ++ c.rest ∧
    ∀ rest', Near c.rest rest' → ∃ m, y (taken ++ rest') = .ok (a, ⟨m, rest', .complete⟩)

namespace Found
variable {α β : Type} {a : α} {m : Mark} {x : Except LexError (α × Cursor)} {y : List Char → Except LexError (α × Cursor)}

theorem of_error {e : LexError} : Found cs (.error e) y := by
  intro a c h
  cases h

theorem here (h : ∀ rest', Near cs rest' → ∃ m, y rest' = .ok (a, ⟨m, rest', .complete⟩)) :
    Found cs (.ok (a, ⟨m, cs, .complete⟩)) y := by
  intro a c hx
  cases hx
  exact ⟨[], rfl, h⟩

theorem cons {d : Char} (h : Found cs x fun cs' => y (d :: cs')) : Found (d :: cs) x y := by
  intro a c hx
  obtain ⟨taken, hcs, hy⟩ := h a c hx
  exact ⟨d :: taken, by rw [hcs]; rfl, hy⟩

theorem append {own : List Char} (h : Found cs x fun cs' => y (own ++ cs')) : Found (own ++ cs) x y := by
  intro a c hx
  obtain ⟨taken, hcs, hy⟩ := h a c hx
  refine ⟨own ++ taken, by rw [hcs, List.append_assoc], fun rest' hr => ?_⟩
  rw [List.append_assoc]
  exact hy rest' hr

theorem map (f : α → β) (h : Found cs x y) :
    Found cs (x.map fun r => (f r.1, r.2)) fun cs' => (y cs').map fun r => (f r.1, r.2) := by
  intro b c hb
  obtain ⟨⟨a, c'⟩, hx, he⟩ := map_eq_ok.1 hb
  obtain ⟨rfl, rfl⟩ := Prod.mk.inj he
  obtain ⟨taken, hcs, hy⟩ := h a c' hx
  refine ⟨taken, hcs, fun rest' hr => ?_⟩
  obtain ⟨m, hm⟩ := hy rest' hr
  exact ⟨m, map_eq_ok.2 ⟨_, hm, rfl⟩⟩

end Found

variable {m m' start start' : Mark} {c : Char}

theorem takeWhile_found {p : Char → Bool} (hp : Inner p) (hc : p c = true) (m m' : Mark) (cs : List Char) :
    Found cs (takeWhile p ⟨m, c :: cs, .complete⟩) fun cs' => takeWhile p ⟨m', c :: cs', .complete⟩ := by
  rw [takeWhile_complete]
  intro a c' h
  cases h
  refine ⟨cs.takeWhile p, by simp [hc], fun rest' hr => ?_⟩
  have hall : ∀ d ∈ c :: cs.takeWhile p, p d = true :=
    List.forall_mem_cons.2 ⟨hc, fun d hd => List.all_eq_true.1 List.all_takeWhile d hd⟩
  have hstop : ∀ d ∈ (cs.dropWhile p).head?, p d = false := by
    intro d hd
    have hnot := List.head?_dropWhile_not p cs
    rw [Option.mem_def.1 hd] at hnot
    simpa using hnot
  rw [List.dropWhile_cons_of_pos hc] at hr
  obtain ⟨htake, hdrop⟩ := takeWhile_run hall (hr.head hp hstop)
  have hread := takeWhile_complete p m' (c :: cs.takeWhile p ++ rest')
  rw [htake, hdrop] at hread
  rw [List.takeWhile_cons_of_pos hc]
  exact ⟨_, hread⟩

theorem name_found {kind : String → TokenKind} (hc : startsName c = true) (m m' : Mark) (cs : List Char) :
    Found cs (name kind ⟨m, c :: cs, .complete⟩) fun cs' => name kind ⟨m', c :: cs', .complete⟩ :=
  (takeWhile_found inner_continuesName (startsName_continuesName hc) m m' cs).map fun taken => kind (String.ofList taken)

theorem number_found (sign : List Char) (hc : isDigit c = true) (m m' : Mark) (cs : List Char) :
    Found cs (number sign ⟨m, c :: cs, .complete⟩) fun cs' => number sign ⟨m', c :: cs', .complete⟩ :=
  (takeWhile_found inner_isDigit hc m m' cs).map fun taken => TokenKind.number (String.ofList (sign ++ taken))

theorem doubled_found {one two : TokenKind} (hc : isOuter c = false) (m m' : Mark) (cs : List Char) :
    Found cs (doubled c one two ⟨m, cs, .complete⟩) fun cs' => doubled c one two ⟨m', cs', .complete⟩ := by
  simp only [doubled, peek_complete, bind_ok]
  split
  · next h =>
    obtain ⟨ds, rfl⟩ := List.head?_eq_some_iff.1 h
    exact .cons (.here fun rest' _ => ⟨m'.advance c, by rw [List.head?_cons, if_pos rfl]; rfl⟩)
  · next h => exact .here fun rest' hr => ⟨m', by rw [if_neg (hr.head_ne hc h)]; rfl⟩

theorem star_other (hc : c ≠ '*') (m : Mark) (cs : List Char) :
    star ⟨m, c :: cs, .complete⟩ =
      if startsName c then name .reference ⟨m, c :: cs, .complete⟩ else .ok (.star, ⟨m, c :: cs, .complete⟩) := by
  simp [star, peek_complete, bind_ok, pure, Except.pure]

theorem star_alone (m : Mark) (h : cs.head? ≠ some '*') (hs : ∀ d ∈ cs.head?, startsName d = false) :
    star ⟨m, cs, .complete⟩ = .ok (.star, ⟨m, cs, .complete⟩) := by
  cases cs with
  | nil => rfl
  | cons d ds =>
    have hd : d ≠ '*' := fun he => h (congrArg some he)
    rw [star_other hd, hs d rfl]
    rfl

theorem star_found (m m' : Mark) (cs : List Char) :
    Found cs (star ⟨m, cs, .complete⟩) fun cs' => star ⟨m', cs', .complete⟩ := by
  cases cs with
  | nil => exact .here fun rest' hr => ⟨m', star_alone m' (hr.head_ne (by decide) (by simp)) (hr.head inner_startsName (by simp))⟩
  | cons d ds =>
    by_cases hd : d = '*'
    · subst hd
      exact .cons (.here fun rest' _ => ⟨_, rfl⟩)
    · rw [star_other hd]
      split
      · next hs =>
        refine .cons ?_
        simp only [star_other hd, hs, ↓reduceIte]
        exact name_found hs m m' ds
      · next hs =>
        exact .here fun rest' hr => ⟨m', star_alone m' (hr.head_ne (by decide) (by simpa using hd))
          (hr.head inner_startsName (by simpa using hs))⟩

theorem ampersand_cons (b : Bool) (c : Char) (m : Mark) (cs : List Char) :
    ampersand b ⟨m, c :: cs, .complete⟩ =
      if b then .ok (.and, if c = '&' then ⟨m.advance c, cs, .complete⟩ else ⟨m, c :: cs, .complete⟩)
      else if startsName c then name .reference ⟨m, c :: cs, .complete⟩
      else .ok (.and, ⟨m, c :: cs, .complete⟩) := rfl

theorem ampersand_alone {b : Bool} (m : Mark) (h : b = true → cs.head? ≠ some '&')
    (hs : b = false → ∀ d ∈ cs.head?, startsName d = false) :
    ampersand b ⟨m, cs, .complete⟩ = .ok (.and, ⟨m, cs, .complete⟩) := by
  cases cs with
  | nil => rfl
  | cons d ds =>
    cases b with
    | true =>
      have hd : d ≠ '&' := fun he => h rfl (congrArg some he)
      simp [ampersand_cons, hd]
    | false => simp [ampersand_cons, hs rfl d rfl]

theorem ampersand_found (b : Bool) (m m' : Mark) (cs : List Char) :
    Found cs (ampersand b ⟨m, cs, .complete⟩) fun cs' => ampersand b ⟨m', cs', .complete⟩ := by
  have halone : (b = true → cs.head? ≠ some '&') → (b = false → ∀ d ∈ cs.head?, startsName d = false) →
      Found cs (.ok (.and, ⟨m, cs, .complete⟩)) fun cs' => ampersand b ⟨m', cs', .complete⟩ := fun h hs =>
    .here fun rest' hr => ⟨m', ampersand_alone m' (fun hb => hr.head_ne (by decide) (h hb))
      fun hb => hr.head inner_startsName (hs hb)⟩
  cases cs with
  | nil => exact halone (by simp) (by simp)
  | cons d ds =>
    rw [ampersand_cons]
    cases b with
    | true =>
      by_cases hd : d = '&'
      · subst hd
        exact .cons (.here fun rest' _ => ⟨_, rfl⟩)
      · simp only [hd, ↓reduceIte]
        exact halone (by simpa using hd) (by simp)
    | false =>
      simp only [Bool.false_eq_true, ↓reduceIte]
      split
      · next hs =>
        refine .cons ?_
        simp only [ampersand_cons, hs, Bool.false_eq_true, ↓reduceIte]
        exact name_found hs m m' ds
      · next hs => exact halone (by simp) (by simpa using hs)

theorem decode_congr {taken : List Char} {d : Char} {n : Nat} (h : Escape.decode (taken ++ rest) = some (d, n))
    (hn : n < taken.length) : Escape.decode (taken ++ rest') = some (d, n) := by
  obtain ⟨c, cs, rfl⟩ := List.exists_cons_of_ne_nil (List.length_pos_iff.1 (Nat.zero_lt_of_lt hn))
  rw [List.cons_append, Escape.decode] at h ⊢
  split at h
  · exact h
  · next k _ =>
    dsimp only at h ⊢
    have hk : k ≤ cs.length := by
      split at h
      · obtain ⟨d, _, hd⟩ := Option.map_eq_some_iff.1 h
        obtain ⟨-, rfl⟩ := Prod.mk.inj hd
        rw [List.length_cons] at hn
        omega
      · simp at h
    rw [List.take_append_of_le_length hk] at h ⊢
    exact h

/-- A text between double quotes is found by its characters alone, and has more of them than are passed over. -/
theorem doubleQuoted_local {skip : Nat} {text : List Char} {c' : Cursor}
    (h : doubleQuoted start .complete skip m cs = .ok (text, c')) : ∃ taken, cs = taken ++ c'.rest ∧ skip < taken.length ∧
      ∀ start' m' rest', ∃ m₂, doubleQuoted start' .complete skip m' (taken ++ rest') = .ok (text, ⟨m₂, rest', .complete⟩) := by
  induction skip, cs using doubleQuoted_induction generalizing m text with
  | nil skip =>
    rw [doubleQuoted] at h
    exact absurd h unterminated_ne_ok
  | skipped skip c cs ih =>
    rw [doubleQuoted] at h
    obtain ⟨taken, rfl, hskip, hread⟩ := ih h
    refine ⟨c :: taken, rfl, by simpa using hskip, fun start' m' rest' => ?_⟩
    rw [List.cons_append, doubleQuoted]
    exact hread start' _ rest'
  | close cs =>
    rw [doubleQuoted_close] at h
    cases h
    exact ⟨['"'], rfl, by simp, fun start' m' rest' => ⟨_, doubleQuoted_close⟩⟩
  | @escape cs d n hd ih =>
    rw [doubleQuoted_escape hd] at h
    obtain ⟨text', h', rfl⟩ := prepend_eq_ok h
    obtain ⟨taken, rfl, hskip, hread⟩ := ih h'
    refine ⟨'\\' :: taken, rfl, by simp, fun start' m' rest' => ?_⟩
    obtain ⟨m₂, hm⟩ := hread start' (m'.advance '\\') rest'
    rw [List.cons_append, doubleQuoted_escape (decode_congr hd hskip), hm]
    exact ⟨m₂, rfl⟩
  | fault hd =>
    rw [doubleQuoted_fault hd] at h
    cases h
  | @plain c cs hq hb ih =>
    rw [doubleQuoted_plain hq hb] at h
    obtain ⟨text', h', rfl⟩ := prepend_eq_ok h
    obtain ⟨taken, rfl, -, hread⟩ := ih h'
    refine ⟨c :: taken, rfl, by simp, fun start' m' rest' => ?_⟩
    obtain ⟨m₂, hm⟩ := hread start' (m'.advance c) rest'
    rw [List.cons_append, doubleQuoted_plain hq hb, hm]
    exact ⟨m₂, rfl⟩

theorem doubleQuoted_found (start start' m m' : Mark) (cs : List Char) :
    Found cs (doubleQuoted start .complete 0 m cs) fun cs' => doubleQuoted start' .complete 0 m' cs' := by
  intro text c h
  obtain ⟨taken, hcs, -, hread⟩ := doubleQuoted_local h
  exact ⟨taken, hcs, fun rest' _ => hread start' m' rest'⟩

theorem singleQuoted_found (start start' m m' : Mark) (cs : List Char) :
    Found cs (singleQuoted start .complete m cs) fun cs' => singleQuoted start' .complete m' cs' := by
  induction cs using singleQuoted_induction generalizing m m' with
  | nil =>
    intro text c h
    rw [singleQuoted] at h
    exact absurd h unterminated_ne_ok
  | pair cs ih =>
    refine .cons (.cons ?_)
    simp only [singleQuoted_pair]
    exact (ih _ _).map _
  | @close cs hd =>
    rw [singleQuoted_close hd, peek_complete]
    refine .cons (.here fun rest' hr => ?_)
    rw [singleQuoted_close (hr.head_ne (by decide) hd), peek_complete]
    exact ⟨_, rfl⟩
  | plain hc ih =>
    refine .cons ?_
    simp only [singleQuoted_plain hc]
    exact (ih _ _).map _

variable {s s' : LiteralState} {taken text : List Char}

/-- A key literal is its text and the closing brace. -/
theorem keyLiteral_closes {e : Utf8.Ending} {c' : Cursor} (h : keyLiteral start e s m cs = .ok (text, c')) :
    cs = text ++ '\x7d' :: c'.rest := by
  induction s, cs using keyLiteral_induction generalizing m text with
  | nil s =>
    rw [keyLiteral_nil] at h
    exact absurd h unterminated_ne_ok
  | close before cs =>
    rw [keyLiteral_close] at h
    cases h
    rfl
  | fault hb ht =>
    rw [keyLiteral_fault hb ht] at h
    cases h
  | @step s taken rest s' hs ih =>
    rw [keyLiteral_step hs] at h
    obtain ⟨text', h', rfl⟩ := prependAll_eq_ok h
    rw [ih h', List.append_assoc]

/-- What follows the closing brace has no part in what is taken in before it. -/
theorem LiteralState.Step.congr (h : s.Step taken (text ++ '\x7d' :: rest) s') (rest' : List Char) :
    s.Step taken (text ++ '\x7d' :: rest') s' := by
  cases h with
  | opens h => exact .opens h
  | closes h hd => exact .closes h hd
  | opensDouble => exact .opensDouble
  | opensSingle => exact .opensSingle
  | @plain depth before c _ h ht =>
    have hscan : ∀ rest, TagShape.scan? (c :: (text ++ '\x7d' :: rest)) = TagShape.scan? (c :: text ++ ['\x7d']) := by
      intro rest
      have happend : c :: (text ++ '\x7d' :: rest) = c :: text ++ ['\x7d'] ++ rest := by simp
      rw [happend, TagShape.scan_append (by simp)]
    refine .plain h ?_
    rw [hscan] at ht ⊢
    exact ht
  | escape => exact .escape
  | closesDouble => exact .closesDouble
  | inDouble hq hb => exact .inDouble hq fun hc => by simpa using hb hc
  | pair => exact .pair
  | closesSingle h =>
    refine .closesSingle ?_
    cases text with
    | nil => simp
    | cons => exact h
  | inSingle h => exact .inSingle h

theorem keyLiteral_local {c' : Cursor} (h : keyLiteral start .complete s m cs = .ok (text, c')) (start' m' : Mark)
    (rest' : List Char) :
    ∃ m₂, keyLiteral start' .complete s m' (text ++ '\x7d' :: rest') = .ok (text, ⟨m₂, rest', .complete⟩) := by
  induction s, cs using keyLiteral_induction generalizing m m' text with
  | nil s =>
    rw [keyLiteral_nil] at h
    exact absurd h unterminated_ne_ok
  | close before cs =>
    rw [keyLiteral_close] at h
    cases h
    exact ⟨_, keyLiteral_close⟩
  | fault hb ht =>
    rw [keyLiteral_fault hb ht] at h
    cases h
  | @step s taken rest s' hs ih =>
    rw [keyLiteral_step hs] at h
    obtain ⟨text', h', rfl⟩ := prependAll_eq_ok h
    obtain ⟨m₂, hm⟩ := ih h' (m'.advanceAll taken)
    rw [keyLiteral_closes h'] at hs
    rw [List.append_assoc, keyLiteral_step (hs.congr rest'), hm]
    exact ⟨m₂, prependAll_ok taken text' _⟩

theorem exists_blanks (cs : List Char) : ∃ blanks tail, cs = blanks ++ tail ∧ (∀ c ∈ blanks, isBlank c = true) ∧
    ∀ d ∈ tail.head?, isBlank d = false := by
  refine ⟨cs.takeWhile isBlank, cs.dropWhile isBlank, List.takeWhile_append_dropWhile.symm,
    List.all_eq_true.1 List.all_takeWhile, ?_⟩
  intro d hd
  have hnot := List.head?_dropWhile_not isBlank cs
  rw [Option.mem_def.1 hd] at hnot
  simpa using hnot

theorem brace_found (start start' m m' : Mark) (cs : List Char) :
    Found cs (brace start ⟨m, cs, .complete⟩) fun cs' => brace start' ⟨m', cs', .complete⟩ := by
  obtain ⟨blanks, tail, rfl, hblanks, htail⟩ := exists_blanks cs
  refine .append ?_
  intro k c h
  simp only [brace, skipBlanks_run hblanks htail, bind_ok, peek_complete] at h
  split at h
  · next hd =>
    obtain ⟨ds, rfl⟩ := List.head?_eq_some_iff.1 hd
    cases h
    refine ⟨['\x7d'], rfl, fun rest' _ => ?_⟩
    have hfirst : ∀ d ∈ ('\x7d' :: rest').head?, isBlank d = false := htail
    simp only [brace, List.singleton_append, skipBlanks_run hblanks hfirst]
    exact ⟨_, rfl⟩
  · next hd =>
    obtain ⟨⟨raw, c'⟩, hr, hk⟩ := bind_eq_ok.1 h
    cases hk
    obtain rfl := keyLiteral_closes hr
    refine ⟨raw ++ ['\x7d'], by simp, fun rest' _ => ?_⟩
    have hhead : (raw ++ '\x7d' :: rest').head? = (raw ++ '\x7d' :: c'.rest).head? := by cases raw <;> rfl
    obtain ⟨m₂, hm⟩ := keyLiteral_local hr start' (m'.advanceAll blanks) rest'
    have hskip := skipBlanks_run hblanks (hhead ▸ htail) m'
    refine ⟨m₂, ?_⟩
    rw [List.append_assoc, List.singleton_append]
    simp only [brace, hskip, bind_ok, peek_complete, hhead, hd, ↓reduceIte, hm]
    rfl

/-- Behind a token of kind `k`, with `rest` left, `P rest' left` holds of every text `rest'` that may stand for what follows,
and of what is left of it. -/
def Local (k : TokenKind) (rest : List Char) (P : List Char → List Char → Prop) : Prop :=
  (∀ rest', Near rest rest' → P rest' rest') ∨
    (k = .openBracket ∧ (∀ d ∈ rest.head?, isBlank d = false ∧ d ≠ ']') ∧
      ∀ rest', (rest'.dropWhile isBlank).head? ≠ some ']' → P rest' (rest'.dropWhile isBlank))

theorem Local.imp {k : TokenKind} {P Q : List Char → List Char → Prop} (h : Local k rest P)
    (hpq : ∀ rest' left, P rest' left → Q rest' left) : Local k rest Q := by
  rcases h with h | ⟨hk, hrest, h⟩
  · exact .inl fun rest' hr => hpq _ _ (h rest' hr)
  · exact .inr ⟨hk, hrest, fun rest' hr => hpq _ _ (h rest' hr)⟩

theorem bracket_local {k : TokenKind} {c : Cursor} (h : bracket ⟨m, cs, .complete⟩ = .ok (k, c)) (m' : Mark) :
    ∃ taken, cs = taken ++ c.rest ∧ Local k c.rest fun rest' left =>
      ∃ m₂, bracket ⟨m', taken ++ rest', .complete⟩ = .ok (k, ⟨m₂, left, .complete⟩) := by
  obtain ⟨blanks, tail, rfl, hblanks, htail⟩ := exists_blanks cs
  simp only [bracket, skipBlanks_run hblanks htail, bind_ok, peek_complete] at h
  split at h
  · next hd =>
    obtain ⟨ds, rfl⟩ := List.head?_eq_some_iff.1 hd
    cases h
    refine ⟨blanks ++ [']'], by simp [advance], .inl fun rest' _ => ?_⟩
    have hfirst : ∀ d ∈ (']' :: rest').head?, isBlank d = false := htail
    simp only [bracket, List.append_assoc, List.singleton_append, skipBlanks_run hblanks hfirst]
    exact ⟨_, rfl⟩
  · next hd =>
    cases h
    have hbehind : ∀ d ∈ tail.head?, isBlank d = false ∧ d ≠ ']' := fun d he => ⟨htail d he, fun hbracket => hd (hbracket ▸ he)⟩
    refine ⟨blanks, rfl, .inr ⟨rfl, hbehind, fun rest' hr => ?_⟩⟩
    simp only [bracket, skipBlanks_complete, bind_ok, peek_complete, List.dropWhile_append_of_pos hblanks, hr, ↓reduceIte]
    exact ⟨_, rfl⟩

theorem kindAt_found (b : Bool) {ch : Char} (hch : ch ≠ '[') (m m' : Mark) (cs : List Char) :
    Found cs (kindAt b ch ⟨m, ch :: cs, .complete⟩) fun cs' => kindAt b ch ⟨m', ch :: cs', .complete⟩ := by
  unfold kindAt
  dsimp only [advance]
  split
  · exact .here fun rest' _ => ⟨_, rfl⟩
  · split
    · exact doubled_found (by decide) _ _ cs
    · exact doubled_found (by decide) _ _ cs
    · exact star_found _ _ cs
    · exact ampersand_found b _ _ cs
    · exact absurd rfl hch
    · exact brace_found _ _ _ _ cs
    · exact (doubleQuoted_found _ _ _ _ cs).map fun text => TokenKind.key (String.ofList text)
    · exact (singleQuoted_found _ _ _ _ cs).map fun text => TokenKind.key (String.ofList text)
    · cases cs with
      | nil => exact .of_error
      | cons d ds =>
        dsimp only
        split
        · next hd =>
          refine .cons ?_
          simp only [hd, ↓reduceIte]
          exact number_found _ hd _ _ ds
        · exact .of_error
    · split
      · next hd => exact number_found _ hd _ _ cs
      · split
        · next hs => exact name_found hs _ _ cs
        · exact .of_error

theorem kindAt_local {b : Bool} {ch : Char} {k : TokenKind} {c : Cursor}
    (h : kindAt b ch ⟨m, ch :: cs, .complete⟩ = .ok (k, c)) (m' : Mark) :
    ∃ taken, cs = taken ++ c.rest ∧ Local k c.rest fun rest' left =>
      ∃ m₂, kindAt b ch ⟨m', ch :: (taken ++ rest'), .complete⟩ = .ok (k, ⟨m₂, left, .complete⟩) := by
  by_cases hch : ch = '['
  · subst hch
    exact bracket_local h (m'.advance '[')
  · obtain ⟨taken, hcs, hread⟩ := kindAt_found b hch m m' cs k c h
    exact ⟨taken, hcs, .inl hread⟩

end Lexer
end YamlQuery.Path
