import YamlQuery.Proofs.Path.TagGrammar
import YamlQuery.Proofs.Text.Utf8
/-!
How much of a text a tag depends on: its own characters and the first one behind it, if that may be part of a tag. So no tag
reaches past a closing brace, and the bytes of a text and its characters have the same tag.
-/
namespace YamlQuery.Path.TagShape
open CharClass

def isTagChar (c : Char) : Bool := isUriChar true c || "%<>".toList.contains c

def Replaces (rest' rest : List Char) : Prop := ∀ c ∈ rest'.head?, isTagChar c = true → rest.head? = some c

section
variable {uri rest rest' : List Char}

theorem isTagChar_of_isUriChar {verbatim : Bool} {c : Char} (h : isUriChar verbatim c = true) : isTagChar c = true := by
  have huri : isUriChar true c = true := by
    cases verbatim with
    | true => exact h
    | false => simpa [isUriChar] using Or.inl h
  rw [isTagChar, huri, Bool.true_or]

theorem isUriChar_of_isHandleChar {c : Char} (h : isHandleChar c = true) : isUriChar false c = true := by
  cases Bool.or_eq_true_iff.1 h with
  | inl h => simp [isUriChar, h]
  | inr h => rw [eq_of_beq h]; decide

theorem isTagChar_of_isHexDigit {c : Char} (h : isHexDigit c = true) : isTagChar c = true := by
  have ha : isAsciiAlphanumeric c = true := by
    simp only [isHexDigit, isAsciiAlphanumeric, isAsciiLetter, Bool.or_eq_true, Bool.and_eq_true, decide_eq_true_eq] at h ⊢
    rcases h with (h | ⟨hl, hr⟩) | ⟨hl, hr⟩
    · exact .inr h
    · exact .inl (.inl ⟨hl, Char.le_trans hr (by decide)⟩)
    · exact .inl (.inr ⟨hl, Char.le_trans hr (by decide)⟩)
  have hu : isUriChar true c = true := by simp [isUriChar, ha]
  exact isTagChar_of_isUriChar hu

theorem Uri.all_isTagChar {verbatim : Bool} (h : Uri verbatim uri) : ∀ c ∈ uri, isTagChar c = true := by
  induction h with
  | nil => simp
  | char hc _ ih =>
    rw [List.forall_mem_cons]
    exact ⟨isTagChar_of_isUriChar hc, ih⟩
  | escape ha hb _ ih =>
    simp only [List.forall_mem_cons]
    exact ⟨by decide, isTagChar_of_isHexDigit ha, isTagChar_of_isHexDigit hb, ih⟩

theorem Handle.all_isTagChar {handle : List Char} (h : Handle handle rest) : ∀ c ∈ handle, isTagChar c = true := by
  have hmark : isTagChar '!' = true := by decide
  cases h with
  | named hword =>
    simp only [List.forall_mem_cons, List.forall_mem_append]
    exact ⟨hmark, fun c hc => isTagChar_of_isUriChar (isUriChar_of_isHandleChar (hword c hc)), by simpa using hmark⟩
  | mark => simpa using hmark

theorem Tags.all_isTagChar {p : Parts} (h : Tags p rest) : ∀ c ∈ p.text, isTagChar c = true := by
  have hbrackets : isTagChar '!' = true ∧ isTagChar '<' = true ∧ isTagChar '>' = true := by decide
  cases h with
  | verbatim huri =>
    simp only [Parts.text, List.forall_mem_append]
    exact ⟨⟨⟨by simp [hbrackets], by simp⟩, huri.all_isTagChar⟩, by simp [hbrackets]⟩
  | shorthand _ hhandle huri =>
    simp only [Parts.text, List.forall_mem_append]
    exact ⟨⟨⟨by simp, hhandle.all_isTagChar⟩, huri.isUri.all_isTagChar⟩, by simp⟩

theorem Stops.congr {verbatim : Bool} (h : Stops verbatim rest) (hr : Replaces rest' rest) : Stops verbatim rest' := by
  intro c hc
  by_cases ht : isTagChar c = true
  · exact h c (hr c hc ht)
  · refine ⟨?_, ?_⟩
    · rintro rfl
      exact ht (by decide)
    · rw [Bool.eq_false_iff]
      intro hu
      exact ht (isTagChar_of_isUriChar hu)

theorem Handle.congr {handle : List Char} (h : Handle handle (uri ++ rest)) (hstops : Stops false rest)
    (hr : Replaces rest' rest) : Handle handle (uri ++ rest') := by
  cases h with
  | named hword => exact .named hword _
  | mark hmark =>
    have hfirst : ∀ more, (∀ c ∈ uri, isHandleChar c = true) → rest' ≠ '!' :: more := by
      rintro more huri rfl
      obtain ⟨more', rfl⟩ := List.head?_eq_some_iff.1 (hr '!' rfl (by decide))
      exact hmark uri more' huri rfl
    refine .mark ?_
    intro word more hword heq
    -- a second mark in the URI was there before, one behind the URI follows it at once, since a word would go on with the URI
    rcases List.append_eq_append_iff.1 heq with ⟨word', rfl, hrest⟩ | ⟨uri', rfl, hrest⟩
    · rw [List.forall_mem_append] at hword
      cases word' with
      | nil => exact hfirst more hword.1 hrest
      | cons d ds =>
        have hd := isUriChar_of_isHandleChar (hword.2 d (by simp))
        subst hrest
        rw [(hstops d (hr d rfl (isTagChar_of_isUriChar hd))).2] at hd
        cases hd
    · cases uri' with
      | nil => exact hfirst more (by simpa using hword) hrest.symm
      | cons d ds =>
        obtain ⟨rfl, -⟩ := List.cons.inj hrest
        exact hmark word (ds ++ rest) hword (by simp)

/-- The second character of a text, when it starts with `front`, is one of `front` or the first of the rest. -/
theorem second_congr {front : List Char} (hne : front ≠ []) (h : (front ++ rest)[1]? ≠ some '<') (hr : Replaces rest' rest) :
    (front ++ rest')[1]? ≠ some '<' := by
  match front with
  | [c] =>
    have hhead : rest.head? ≠ some '<' := by simpa [List.head?_eq_getElem?] using h
    intro hb
    have hopen : rest'.head? = some '<' := by simpa [List.head?_eq_getElem?] using hb
    exact hhead (hr '<' hopen (by decide))
  | c :: d :: ds => exact h

/-- A tag stays one when what stands behind it is replaced. -/
theorem Tags.congr {p : Parts} (h : Tags p rest) (hr : Replaces rest' rest) : Tags p rest' := by
  cases h with
  | verbatim huri hne => exact .verbatim huri hne rest'
  | @shorthand handle uri _ hopen hhandle huri hne =>
    obtain ⟨hu, hstops⟩ := longestUri_iff.1 huri
    have hsecond : (handle ++ (uri ++ rest'))[1]? ≠ some '<' := by
      rw [← List.append_assoc] at hopen ⊢
      exact second_congr (by cases hhandle <;> simp) hopen hr
    exact .shorthand hsecond (hhandle.congr hstops hr) (longestUri_iff.2 ⟨hu, hstops.congr hr⟩) hne
end

section
variable {cs : List Char} {t : TagShape}

theorem scan_total_le (h : scan? cs = some t) : t.total ≤ cs.length := by
  obtain ⟨p, rest, rfl, -, rfl⟩ := exists_tag h
  rw [Parts.total_shape, List.length_append]
  exact Nat.le_add_right _ _

/-- The characters of a tag alone have its shape. -/
theorem scan_take (h : scan? cs = some t) : scan? (cs.take t.total) = some t := by
  obtain ⟨p, rest, rfl, htags, rfl⟩ := exists_tag h
  have hnil : Tags p [] := htags.congr (by rintro c ⟨⟩)
  rw [Parts.total_shape, List.take_left, ← List.append_nil p.text]
  exact scan_text hnil

/-- The closing bracket ends a verbatim tag, whatever follows. -/
theorem scan_take_append (h : scan? cs = some t) (hv : t.isVerbatim = true) (more : List Char) :
    scan? (cs.take t.total ++ more) = some t := by
  obtain ⟨p, rest, rfl, htags, rfl⟩ := exists_tag h
  have hmore : Tags p more := by
    cases htags with
    | verbatim huri hne => exact .verbatim huri hne more
    | shorthand => cases hv
  rw [Parts.total_shape, List.take_left]
  exact scan_text hmore

/-- The character behind a tag ends it, whatever follows. -/
theorem scan_take_succ_append (h : scan? cs = some t) (hlt : t.total < cs.length) (more : List Char) :
    scan? (cs.take (t.total + 1) ++ more) = some t := by
  obtain ⟨p, rest, rfl, htags, rfl⟩ := exists_tag h
  rw [Parts.total_shape] at hlt ⊢
  cases rest with
  | nil => simp at hlt
  | cons c rest =>
    have htake : (p.text ++ c :: rest).take (p.text.length + 1) ++ more = p.text ++ c :: more := by
      rw [List.take_length_add_append]
      simp
    rw [htake]
    exact scan_text (htags.congr fun _ hc _ => hc)

/-- A tag is measured among the characters of tags. -/
theorem scan_takeWhile (cs : List Char) : scan? (cs.takeWhile isTagChar) = scan? cs := by
  apply Option.ext
  intro t
  constructor
  · intro h
    obtain ⟨p, rest, hp, htags, rfl⟩ := exists_tag h
    have hsplit := List.takeWhile_append_dropWhile (p := isTagChar) (l := cs)
    rw [hp, List.append_assoc] at hsplit
    rw [← hsplit]
    refine scan_text (htags.congr ?_)
    intro c hc ht
    cases rest with
    | nil =>
      have hdrop := List.head?_dropWhile_not isTagChar cs
      rw [List.nil_append, Option.mem_def] at hc
      rw [hc] at hdrop
      exact absurd ht (Bool.eq_false_iff.1 hdrop)
    | cons d rest => exact hc
  · intro h
    obtain ⟨p, rest, rfl, htags, rfl⟩ := exists_tag h
    rw [List.takeWhile_append_of_pos htags.all_isTagChar]
    refine scan_text (htags.congr ?_)
    intro c hc _
    cases rest with
    | nil => cases hc
    | cons d rest =>
      rw [List.takeWhile_cons] at hc
      split at hc
      · exact hc
      · cases hc

end

theorem takeWhile_append_of_mem {p : Char → Bool} {d : Char} {cs : List Char} (h : d ∈ cs) (hd : p d = false)
    (more : List Char) : (cs ++ more).takeWhile p = cs.takeWhile p := by
  induction cs with
  | nil => simp at h
  | cons c cs ih =>
    by_cases hc : p c = true
    · rcases List.mem_cons.1 h with rfl | h
      · simp [hd] at hc
      · simp [hc, ih h]
    · simp [hc]

/-- What follows a closing brace does not change the tag before it. -/
theorem scan_append {cs : List Char} (h : '\x7d' ∈ cs) (more : List Char) : scan? (cs ++ more) = scan? cs := by
  have hbrace : isTagChar '\x7d' = false := by decide
  rw [← scan_takeWhile (cs ++ more), takeWhile_append_of_mem h hbrace, scan_takeWhile]

def characters (bytes : List UInt8) : List Char := bytes.map fun b => Char.ofNat b.toNat

/-- The shape of a byte string is that of a tag at its front, and of no other text. Its lengths stay within the bytes, and the
bytes of the tag alone have the same shape. So have all bytes that start with a verbatim tag, or with any tag and the byte
behind it. -/
theorem ofBytes_delimits (bytes : List UInt8) (t : TagShape) :
    (ofBytes? bytes = some t ↔ ∃ p rest, characters bytes = p.text ++ rest ∧ Tags p rest ∧ p.shape = t) ∧
      (ofBytes? bytes = some t →
        t.total ≤ bytes.length ∧ ofBytes? (bytes.take t.total) = some t ∧
          (∀ more, t.isVerbatim = true → ofBytes? (bytes.take t.total ++ more) = some t) ∧
          ∀ more, t.total < bytes.length → ofBytes? (bytes.take (t.total + 1) ++ more) = some t) := by
  refine ⟨scan_iff, ?_⟩
  intro h
  refine ⟨?_, ?_, ?_, ?_⟩
  · simpa using scan_total_le h
  · rw [ofBytes?, List.map_take]
    exact scan_take h
  · intro more hv
    rw [ofBytes?, List.map_append, List.map_take]
    exact scan_take_append h hv _
  · intro more hlt
    rw [ofBytes?, List.map_append, List.map_take]
    exact scan_take_succ_append h (by simpa using hlt) _

/-- A named handle with an escape behind it, `!e!%41 x`, and a verbatim tag, `!<a!b>`. -/
theorem ofBytes_delimits_escape_and_verbatim :
    (ofBytes? [0x21, 0x65, 0x21, 0x25, 0x34, 0x31, 0x20, 0x78] = some ⟨0, 3, 3, 0⟩ ∧
      ofBytes? [0x21, 0x65, 0x21, 0x25, 0x34, 0x31, 0x20, 0x25] = some ⟨0, 3, 3, 0⟩) ∧
    (ofBytes? [0x21, 0x3C, 0x61, 0x21, 0x62, 0x3E] = some ⟨2, 0, 3, 1⟩ ∧
      ofBytes? [0x21, 0x3C, 0x61, 0x21, 0x62, 0x3E, 0x25] = some ⟨2, 0, 3, 1⟩) := by
  have hescape : ofBytes? [0x21, 0x65, 0x21, 0x25, 0x34, 0x31, 0x20, 0x78] = some ⟨0, 3, 3, 0⟩ := by decide
  have hverbatim : ofBytes? [0x21, 0x3C, 0x61, 0x21, 0x62, 0x3E] = some ⟨2, 0, 3, 1⟩ := by decide
  exact ⟨⟨hescape, ((ofBytes_delimits _ _).2 hescape).2.2.2 [0x25] (by decide)⟩,
    hverbatim, ((ofBytes_delimits _ _).2 hverbatim).2.2.1 [0x25] (by decide)⟩

theorem isTagChar_lt {c : Char} (h : isTagChar c = true) : c.toNat < 128 := by
  have hlist : (("-#;/?:@&=+$_.~*'()".toList ++ "!,[]".toList ++ "%<>".toList).all (·.toNat < 128)) = true := by decide
  by_cases ha : isAsciiAlphanumeric c = true
  · exact lt_of_isAsciiAlphanumeric ha
  · refine of_decide_eq_true (List.all_eq_true.1 hlist c ?_)
    simpa [isTagChar, isUriChar, ha, or_assoc] using h

/-- The characters of a text and of its bytes are the same up to the first that is not ASCII, which is no part of a tag. -/
theorem takeWhile_read (bytes : List UInt8) :
    (Utf8.read bytes).1.takeWhile isTagChar = (characters bytes).takeWhile isTagChar := by
  induction bytes with
  | nil => rfl
  | cons b bs ih =>
    rw [Utf8.read, Utf8.readAfter, characters, List.map_cons]
    by_cases hb : b.toNat < 128
    · rw [Utf8.decodeOne_of_lt hb]
      change (Char.ofNat b.toNat :: (Utf8.read bs).1).takeWhile isTagChar =
        (Char.ofNat b.toNat :: characters bs).takeWhile isTagChar
      rw [List.takeWhile_cons, List.takeWhile_cons, ih]
    · have hbyte : isTagChar (Char.ofNat b.toNat) = false := by
        have hlt := b.toNat_lt
        have hc : (Char.ofNat b.toNat).toNat = b.toNat := Utf8.toNat_ofNat (.inl (by omega))
        rw [Bool.eq_false_iff]
        intro ht
        exact hb (hc ▸ isTagChar_lt ht)
      rw [List.takeWhile_cons_of_neg (by simp [hbyte])]
      split
      · next c w hd =>
        have hc : ¬isTagChar c = true := fun ht => hb (Utf8.lt_of_decodeOne hd (isTagChar_lt ht))
        exact List.takeWhile_cons_of_neg hc
      · rfl
      · rfl
      · rfl

/-- The characters of a text have the tag of its bytes. -/
theorem scan_read (bytes : List UInt8) : scan? (Utf8.read bytes).1 = ofBytes? bytes := by
  rw [← scan_takeWhile, takeWhile_read, scan_takeWhile]
  rfl

end YamlQuery.Path.TagShape
