import YamlQuery.Path.TagShape
import YamlQuery.Proofs.Text.CharClass
/-!
The grammar of tags: a URI between `!<` and `>`, or a handle and the longest URI behind it. A text is measured exactly when such
a tag stands at its front, and the lengths are those of the parts of the tag.
-/
namespace YamlQuery.Path.TagShape
open CharClass

inductive Uri (verbatim : Bool) : List Char → Prop
  | nil : Uri verbatim []
  | char {c : Char} {cs : List Char} (hc : isUriChar verbatim c = true) (h : Uri verbatim cs) : Uri verbatim (c :: cs)
  | escape {a b : Char} {cs : List Char} (ha : isHexDigit a = true) (hb : isHexDigit b = true) (h : Uri verbatim cs) :
      Uri verbatim ('%' :: a :: b :: cs)

/-- The longest URI at the front of `uri ++ rest` is `uri`, and no malformed escape is what ends it. -/
structure LongestUri (verbatim : Bool) (uri rest : List Char) : Prop where
  isUri : Uri verbatim uri
  longest : ∀ other, Uri verbatim other → other <+: uri ++ rest → other.length ≤ uri.length
  -- a percent sign behind the longest URI lacks its two digits, or the escape would go on with the URI
  intact : rest.head? ≠ some '%'

def Stops (verbatim : Bool) (rest : List Char) : Prop := ∀ c ∈ rest.head?, c ≠ '%' ∧ isUriChar verbatim c = false

section
variable {verbatim : Bool} {uri rest : List Char}

theorem Uri.append {more : List Char} (h : Uri verbatim uri) (hmore : Uri verbatim more) : Uri verbatim (uri ++ more) := by
  induction h with
  | nil => exact hmore
  | char hc _ ih => exact .char hc ih
  | escape ha hb _ ih => exact .escape ha hb ih

theorem ne_percent_of_isUriChar {c : Char} (h : isUriChar verbatim c = true) : c ≠ '%' := by
  rintro rfl
  cases verbatim <;> exact absurd h (by decide)

theorem uriLength_cons {c : Char} (h : c ≠ '%') (cs : List Char) :
    uriLength? verbatim (c :: cs) = if isUriChar verbatim c then (uriLength? verbatim cs).map (· + 1) else some 0 := by
  rw [uriLength?, if_neg h]
  intro _ _ _ hp
  exact absurd hp h

/-- A URI in front of a text adds its length to what is measured there. -/
theorem Uri.uriLength_append (h : Uri verbatim uri) (rest : List Char) :
    uriLength? verbatim (uri ++ rest) = (uriLength? verbatim rest).map (· + uri.length) := by
  induction h with
  | nil => simp
  | char hc _ ih =>
    rw [List.cons_append, uriLength_cons (ne_percent_of_isUriChar hc), if_pos hc, ih]
    exact Option.map_map ..
  | escape ha hb _ ih =>
    rw [List.cons_append, List.cons_append, List.cons_append, uriLength?, ha, hb, ih]
    exact Option.map_map ..

theorem uriLength_of_stops (h : Stops verbatim rest) : uriLength? verbatim rest = some 0 := by
  cases rest with
  | nil => rfl
  | cons c cs =>
    obtain ⟨hne, hc⟩ := h c rfl
    rw [uriLength_cons hne, hc]
    rfl

theorem Uri.uriLength_eq (h : Uri verbatim uri) (hstops : Stops verbatim rest) :
    uriLength? verbatim (uri ++ rest) = some uri.length := by
  rw [h.uriLength_append, uriLength_of_stops hstops, Option.map_some, Nat.zero_add]

theorem uriLength_percent {cs : List Char} {n : Nat} (h : uriLength? verbatim ('%' :: cs) = some n) :
    ∃ a b more k, cs = a :: b :: more ∧ isHexDigit a = true ∧ isHexDigit b = true ∧
      uriLength? verbatim more = some k ∧ n = k + 3 := by
  match cs with
  | [] | [_] => cases h
  | a :: b :: more =>
    rw [uriLength?] at h
    split at h
    · next hab =>
      obtain ⟨ha, hb⟩ := Bool.and_eq_true_iff.1 hab
      obtain ⟨k, hk, rfl⟩ := Option.map_eq_some_iff.1 h
      exact ⟨a, b, more, k, rfl, ha, hb, hk, rfl⟩
    · cases h

theorem exists_uri {cs : List Char} {n : Nat} (h : uriLength? verbatim cs = some n) :
    ∃ uri rest, cs = uri ++ rest ∧ uri.length = n ∧ Uri verbatim uri ∧ Stops verbatim rest := by
  induction hlen : cs.length using Nat.strongRecOn generalizing cs n with
  | ind len ih =>
    subst hlen
    match cs with
    | [] =>
      cases h
      exact ⟨[], [], rfl, rfl, .nil, by simp [Stops]⟩
    | c :: cs =>
      by_cases hp : c = '%'
      · subst hp
        obtain ⟨a, b, more, k, rfl, ha, hb, hk, rfl⟩ := uriLength_percent h
        obtain ⟨uri, rest, rfl, rfl, huri, hrest⟩ := ih more.length (by simp only [List.length_cons]; omega) hk rfl
        exact ⟨'%' :: a :: b :: uri, rest, rfl, rfl, .escape ha hb huri, hrest⟩
      · rw [uriLength_cons hp] at h
        split at h
        · next hc =>
          obtain ⟨k, hk, rfl⟩ := Option.map_eq_some_iff.1 h
          obtain ⟨uri, rest, rfl, rfl, huri, hrest⟩ := ih cs.length (Nat.lt_succ_self _) hk rfl
          exact ⟨c :: uri, rest, rfl, rfl, .char hc huri, hrest⟩
        · next hc =>
          cases h
          refine ⟨[], c :: cs, rfl, rfl, .nil, ?_⟩
          rintro d ⟨⟩
          exact ⟨hp, Bool.eq_false_iff.2 hc⟩

/-- A URI is the longest one where it stops. -/
theorem longestUri_iff : LongestUri verbatim uri rest ↔ Uri verbatim uri ∧ Stops verbatim rest := by
  constructor
  · intro h
    refine ⟨h.isUri, ?_⟩
    intro c hc
    obtain ⟨cs, rfl⟩ := List.head?_eq_some_iff.1 hc
    refine ⟨fun hp => h.intact (by rw [hp]; rfl), ?_⟩
    rw [Bool.eq_false_iff]
    intro hu
    have hlonger : Uri verbatim (uri ++ [c]) := h.isUri.append (.char hu .nil)
    have hle := h.longest _ hlonger ⟨cs, by simp⟩
    rw [List.length_append, List.length_singleton] at hle
    omega
  · rintro ⟨huri, hstops⟩
    refine ⟨huri, ?_, fun hp => (hstops '%' hp).1 rfl⟩
    rintro other hother ⟨more, hmore⟩
    -- what the other one adds is part of the length that is measured
    have hlen := huri.uriLength_eq hstops
    rw [← hmore, hother.uriLength_append] at hlen
    obtain ⟨k, -, hk⟩ := Option.map_eq_some_iff.1 hlen
    exact hk ▸ Nat.le_add_left _ k

end

inductive Handle : List Char → List Char → Prop
  | named {word : List Char} (h : ∀ c ∈ word, isHandleChar c = true) (rest : List Char) : Handle ('!' :: (word ++ ['!'])) rest
  | mark {rest : List Char} (h : ∀ word more, (∀ c ∈ word, isHandleChar c = true) → rest ≠ word ++ '!' :: more) :
      Handle ['!'] rest

theorem exists_handle (cs : List Char) : ∃ handle rest, '!' :: cs = handle ++ rest ∧ Handle handle rest := by
  by_cases h : ∃ word more, (∀ c ∈ word, isHandleChar c = true) ∧ cs = word ++ '!' :: more
  · obtain ⟨word, more, hword, rfl⟩ := h
    exact ⟨'!' :: (word ++ ['!']), more, by simp, .named hword more⟩
  · refine ⟨['!'], cs, rfl, .mark ?_⟩
    intro word more hword hcs
    exact h ⟨word, more, hword, hcs⟩

/-- A handle is measured with its first mark, and the URI behind it from its end. -/
theorem Handle.measured {handle rest : List Char} (h : Handle handle rest) :
    ∃ cs, handle ++ rest = '!' :: cs ∧ handleLength cs = handle.length ∧ cs.drop (handle.length - 1) = rest := by
  cases h with
  | @named word hword rest =>
    have hmark : ∀ c ∈ ('!' :: rest).head?, isHandleChar c = false := by
      rintro c ⟨⟩
      decide
    have hrun := (takeWhile_run hword hmark).1
    refine ⟨word ++ '!' :: rest, by simp, ?_, by simp⟩
    simp [handleLength, hrun]
  | @mark rest hmark =>
    refine ⟨rest, rfl, ?_, rfl⟩
    have hsplit := List.prefix_iff_eq_append.1 (List.takeWhile_prefix (l := rest) isHandleChar)
    have hhead : (rest.drop (rest.takeWhile isHandleChar).length).head? ≠ some '!' := by
      intro hb
      obtain ⟨more, hmore⟩ := List.head?_eq_some_iff.1 hb
      rw [hmore] at hsplit
      exact hmark _ more (List.all_eq_true.1 List.all_takeWhile) hsplit.symm
    rw [handleLength, if_neg hhead]
    rfl

structure Parts where
  opening : List Char
  handle : List Char
  uri : List Char
  closing : List Char

namespace Parts

def text (p : Parts) : List Char := p.opening ++ p.handle ++ p.uri ++ p.closing

def shape (p : Parts) : TagShape := ⟨p.opening.length, p.handle.length, p.uri.length, p.closing.length⟩

theorem total_shape (p : Parts) : p.shape.total = p.text.length := by
  simp only [TagShape.total, shape, text, List.length_append]

end Parts

/-- A tag with the given parts stands in front of a text. A verbatim tag is a URI between its brackets. A shorthand tag is a
handle and the longest URI behind it, which a handle of more than one character needs; a bracket in the second place would open
a verbatim tag. -/
inductive Tags : Parts → List Char → Prop
  | verbatim {uri : List Char} (h : Uri true uri) (hne : uri ≠ []) (rest : List Char) : Tags ⟨['!', '<'], [], uri, ['>']⟩ rest
  | shorthand {handle uri rest : List Char} (hopen : (handle ++ (uri ++ rest))[1]? ≠ some '<') (h : Handle handle (uri ++ rest))
      (huri : LongestUri false uri rest) (hne : handle.length > 1 → uri ≠ []) : Tags ⟨[], handle, uri, []⟩ rest

theorem scan_verbatim (cs : List Char) :
    scan? ('!' :: '<' :: cs) =
      match uriLength? true cs with
      | some n => if n ≠ 0 ∧ (cs.drop n).head? = some '>' then some ⟨2, 0, n, 1⟩ else none
      | none => none := rfl

theorem scan_shorthand {cs : List Char} (h : cs.head? ≠ some '<') :
    scan? ('!' :: cs) =
      match uriLength? false (cs.drop (handleLength cs - 1)) with
      | some n => if handleLength cs > 1 ∧ n = 0 then none else some ⟨0, handleLength cs, n, 0⟩
      | none => none := by
  match cs with
  | [] => rfl
  | c :: cs =>
    have hc : c ≠ '<' := by simpa using h
    unfold scan?
    split
    · next heq => exact absurd (List.cons.inj (List.cons.inj heq).2).1 hc
    · next heq =>
      obtain rfl := (List.cons.inj heq).2
      rfl
    · next hn => exact absurd rfl (hn _)

theorem scan_handle {handle rest : List Char} (h : Handle handle rest) (hopen : (handle ++ rest)[1]? ≠ some '<') :
    scan? (handle ++ rest) =
      match uriLength? false rest with
      | some n => if handle.length > 1 ∧ n = 0 then none else some ⟨0, handle.length, n, 0⟩
      | none => none := by
  obtain ⟨cs, hcs, hlen, hdrop⟩ := h.measured
  have hhead : cs.head? ≠ some '<' := by
    rwa [hcs, List.getElem?_cons_succ, ← List.head?_eq_getElem?] at hopen
  rw [hcs, scan_shorthand hhead, hlen, hdrop]

/-- A tag is measured by its parts. -/
theorem scan_text {p : Parts} {rest : List Char} (h : Tags p rest) : scan? (p.text ++ rest) = some p.shape := by
  cases h with
  | @verbatim uri huri hne rest =>
    have hstops : Stops true ('>' :: rest) := by
      rintro c ⟨⟩
      decide
    have htext : Parts.text ⟨['!', '<'], [], uri, ['>']⟩ ++ rest = '!' :: '<' :: (uri ++ '>' :: rest) := by simp [Parts.text]
    rw [htext, scan_verbatim, huri.uriLength_eq hstops]
    simp [hne, Parts.shape]
  | @shorthand handle uri rest hopen hhandle huri hne =>
    obtain ⟨hu, hstops⟩ := longestUri_iff.1 huri
    have htext : Parts.text ⟨[], handle, uri, []⟩ ++ rest = handle ++ (uri ++ rest) := by simp [Parts.text]
    have hshort : ¬(handle.length > 1 ∧ uri.length = 0) := fun h => hne h.1 (List.eq_nil_of_length_eq_zero h.2)
    rw [htext, scan_handle hhandle hopen, hu.uriLength_eq hstops]
    exact if_neg hshort

theorem exists_verbatim {cs : List Char} {t : TagShape} (h : scan? ('!' :: '<' :: cs) = some t) :
    ∃ p rest, '!' :: '<' :: cs = p.text ++ rest ∧ Tags p rest ∧ p.shape = t := by
  rw [scan_verbatim] at h
  split at h
  · next n hn =>
    obtain ⟨⟨hne, hclose⟩, rfl⟩ : (n ≠ 0 ∧ (cs.drop n).head? = some '>') ∧ (⟨2, 0, n, 1⟩ : TagShape) = t := by
      simpa using h
    obtain ⟨uri, rest, rfl, rfl, huri, -⟩ := exists_uri hn
    rw [List.drop_left] at hclose
    obtain ⟨rest, rfl⟩ := List.head?_eq_some_iff.1 hclose
    exact ⟨⟨['!', '<'], [], uri, ['>']⟩, rest, by simp [Parts.text], .verbatim huri (by simpa using hne) rest, rfl⟩
  · cases h

theorem exists_shorthand {cs : List Char} {t : TagShape} (hopen : cs.head? ≠ some '<') (h : scan? ('!' :: cs) = some t) :
    ∃ p rest, '!' :: cs = p.text ++ rest ∧ Tags p rest ∧ p.shape = t := by
  obtain ⟨handle, after, hcs, hhandle⟩ := exists_handle cs
  have hsecond : (handle ++ after)[1]? ≠ some '<' := by
    rwa [← hcs, List.getElem?_cons_succ, ← List.head?_eq_getElem?]
  rw [hcs, scan_handle hhandle hsecond] at h
  split at h
  · next n hn =>
    obtain ⟨hne, rfl⟩ : ¬(handle.length > 1 ∧ n = 0) ∧ (⟨0, handle.length, n, 0⟩ : TagShape) = t := by
      simpa using h
    obtain ⟨uri, rest, rfl, rfl, huri, hstops⟩ := exists_uri hn
    refine ⟨⟨[], handle, uri, []⟩, rest, by simp [Parts.text, hcs], ?_, rfl⟩
    refine .shorthand hsecond hhandle (longestUri_iff.2 ⟨huri, hstops⟩) ?_
    rintro hlong rfl
    exact hne ⟨hlong, rfl⟩
  · cases h

/-- What is measured is a tag at the front of the text. -/
theorem exists_tag {cs : List Char} {t : TagShape} (h : scan? cs = some t) :
    ∃ p rest, cs = p.text ++ rest ∧ Tags p rest ∧ p.shape = t := by
  match cs with
  | [] => cases h
  | c :: cs =>
    by_cases hc : c = '!'
    · subst hc
      by_cases hopen : cs.head? = some '<'
      · obtain ⟨cs, rfl⟩ := List.head?_eq_some_iff.1 hopen
        exact exists_verbatim h
      · exact exists_shorthand hopen h
    · simp [scan?, hc] at h

theorem scan_iff {cs : List Char} {t : TagShape} :
    scan? cs = some t ↔ ∃ p rest, cs = p.text ++ rest ∧ Tags p rest ∧ p.shape = t := by
  constructor
  · exact exists_tag
  · rintro ⟨p, rest, rfl, h, rfl⟩
    exact scan_text h

end YamlQuery.Path.TagShape
