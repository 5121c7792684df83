import YamlQuery.Proofs.Text.Utf8
/-!
What decoding finds at the front of a byte string, against the bytes of characters: a character exactly where its bytes
stand. Bytes that end too soon are judged by their first one and by the shape of the others, so a few of them count as cut
off although no character starts with them.
-/
namespace YamlQuery.Utf8

/-- A second byte that no character has behind this first one: with it the number would be written too long, be a
surrogate, or be too large. -/
def Strays (lead second : UInt8) : Prop :=
  (lead = 0xE0 ∧ second < 0xA0) ∨ (lead = 0xED ∧ 0xA0 ≤ second) ∨ (lead = 0xF0 ∧ second < 0x90) ∨
    (lead = 0xF4 ∧ 0x90 ≤ second)

theorem strays_iff_toNat {lead second : UInt8} : Strays lead second ↔
    (lead.toNat = 0xE0 ∧ second.toNat < 0xA0) ∨ (lead.toNat = 0xED ∧ 0xA0 ≤ second.toNat) ∨
      (lead.toNat = 0xF0 ∧ second.toNat < 0x90) ∨ (lead.toNat = 0xF4 ∧ 0x90 ≤ second.toNat) := by
  simp only [Strays, UInt8.lt_iff_toNat_lt, UInt8.le_iff_toNat_le, ← UInt8.toNat_inj]
  rfl

/-- The bytes of a sequence spell a character in its shortest form exactly if the second one does not stray. -/
theorem spells_iff_not_strays {b x : UInt8} {tail : List UInt8} {w : Nat} (hw : width? b = some w)
    (hl : (x :: tail).length = w - 1) (ht : (x :: tail).all isContinuation = true) :
    (least w ≤ payload b (x :: tail) ∧ (payload b (x :: tail)).isValidChar) ↔ ¬Strays b x := by
  rw [strays_iff_toNat]
  rcases width_cases hw with ⟨rfl, h⟩ | ⟨rfl, h⟩ | ⟨rfl, h⟩ | ⟨rfl, h⟩
  · simp at hl
  · obtain rfl : tail = [] := by simpa using hl
    have hx := toNat_of_isContinuation (b := x) (by simpa using ht)
    have hn : payload b [x] = b.toNat % 2 ^ 5 * 64 + x.toNat % 64 := rfl
    have hleast : least 2 = 0x80 := rfl
    rw [hn, hleast, Nat.isValidChar]
    omega
  · obtain ⟨y, rfl⟩ := List.length_eq_one_iff.1 (by simpa using hl : tail.length = 1)
    have hxy : isContinuation x = true ∧ isContinuation y = true := by simpa using ht
    have hx := toNat_of_isContinuation hxy.1
    have hy := toNat_of_isContinuation hxy.2
    have hn : payload b [x, y] = (b.toNat % 2 ^ 4 * 64 + x.toNat % 64) * 64 + y.toNat % 64 := rfl
    have hleast : least 3 = 0x800 := rfl
    rw [hn, hleast, Nat.isValidChar]
    omega
  · obtain ⟨y, z, rfl⟩ := List.length_eq_two.1 (by simpa using hl : tail.length = 2)
    have hxyz : isContinuation x = true ∧ isContinuation y = true ∧ isContinuation z = true := by simpa using ht
    have hx := toNat_of_isContinuation hxyz.1
    have hy := toNat_of_isContinuation hxyz.2.1
    have hz := toNat_of_isContinuation hxyz.2.2
    have hn : payload b [x, y, z] = ((b.toNat % 2 ^ 3 * 64 + x.toNat % 64) * 64 + y.toNat % 64) * 64 + z.toNat % 64 := rfl
    have hleast : least 4 = 0x10000 := rfl
    rw [hn, hleast, Nat.isValidChar]
    omega

/-- Behind every first byte some second byte does not stray. -/
theorem exists_not_strays (b : UInt8) : ∃ x, isContinuation x = true ∧ ¬Strays b x := by
  by_cases h : b = 0xE0
  · exact ⟨0xA0, by decide, by simp [Strays, h]⟩
  · by_cases h' : b = 0xF0
    · exact ⟨0x90, by decide, by simp [Strays, h']⟩
    · exact ⟨0x80, by decide, by simp [Strays, h, h']⟩

/-- The bytes of a character are a first byte, with the continuation bytes that it asks for. -/
theorem encode_sequence (c : Char) : ∃ b tail, String.utf8EncodeChar c = b :: tail ∧ width? b = some (tail.length + 1) ∧
    tail.all isContinuation = true ∧ ∀ x ∈ tail.head?, ¬Strays b x := by
  obtain ⟨b, tail, hbytes, hdecode⟩ := decodeOne_encode c []
  rw [List.append_nil] at hdecode
  obtain ⟨hw, htail, hlen, hleast, hvalid, -⟩ := sequence_of_decodeOne hdecode
  have htake : tail.take (tail.length + 1 - 1) = tail := List.take_length
  rw [htake] at htail hlen hleast hvalid
  refine ⟨b, tail, hbytes, hw, htail, ?_⟩
  cases tail with
  | nil => simp
  | cons x tail =>
    intro y hy
    obtain rfl : x = y := by simpa using hy
    exact (spells_iff_not_strays hw hlen htail).1 ⟨hleast, hvalid⟩

theorem decodeOne_append (c : Char) (more : List UInt8) :
    decodeOne (String.utf8EncodeChar c ++ more) = .char c (String.utf8EncodeChar c).length := by
  obtain ⟨b, tail, hbytes, hdecode⟩ := decodeOne_encode c more
  rw [hbytes]
  exact hdecode

theorem decodeOne_eq_char_iff {bytes : List UInt8} {c : Char} {w : Nat} :
    decodeOne bytes = .char c w ↔ w ≤ bytes.length ∧ bytes.take w = String.utf8EncodeChar c := by
  constructor
  · intro h
    cases bytes with
    | nil => simp [decodeOne] at h
    | cons b rest =>
      have hbytes := encode_of_decodeOne h
      have hdecode := decodeOne_append c (rest.drop (w - 1))
      rw [← hbytes, h] at hdecode
      obtain ⟨-, rfl⟩ := Decoded.char.inj hdecode
      rw [hbytes]
      exact ⟨by simp, List.take_left⟩
  · rintro ⟨hw, htake⟩
    have hdecode := decodeOne_append c (bytes.drop w)
    rw [← htake, List.take_append_drop, List.length_take, Nat.min_eq_left hw] at hdecode
    exact hdecode

theorem decodeOne_of_prefix {bytes : List UInt8} {c : Char} (h : String.utf8EncodeChar c <+: bytes) :
    decodeOne bytes = .char c (String.utf8EncodeChar c).length := by
  obtain ⟨more, rfl⟩ := h
  exact decodeOne_append c more

def Short (bytes : List UInt8) : Prop :=
  ∃ b rest w, bytes = b :: rest ∧ width? b = some w ∧ rest.all isContinuation = true ∧ rest.length < w - 1

def Begins (bytes : List UInt8) : Prop :=
  bytes ≠ [] ∧ ∃ c, bytes <+: String.utf8EncodeChar c ∧ bytes ≠ String.utf8EncodeChar c

def Feigns (bytes : List UInt8) : Prop :=
  ∃ b x rest w, bytes = b :: x :: rest ∧ width? b = some w ∧ (x :: rest).all isContinuation = true ∧
    (x :: rest).length < w - 1 ∧ Strays b x

variable {bytes : List UInt8}

theorem decodeOne_eq_truncated_iff : decodeOne bytes = .truncated ↔ Short bytes := by
  constructor
  · intro h
    cases bytes with
    | nil => simp [decodeOne] at h
    | cons b rest =>
      rw [decodeOne] at h
      dsimp only at h
      split at h
      · simp at h
      · next w hw =>
        split at h
        · simp at h
        · next ht =>
          split at h
          · next hl =>
            have hall : rest.take (w - 1) = rest := by
              rw [List.length_take] at hl
              exact List.take_of_length_le (by omega)
            rw [hall] at ht hl
            exact ⟨b, rest, w, rfl, hw, by simpa using ht, hl⟩
          · split at h <;> simp at h
  · rintro ⟨b, rest, w, rfl, hw, ht, hl⟩
    have hall : rest.take (w - 1) = rest := List.take_of_length_le (Nat.le_of_lt hl)
    simp [decodeOne, hw, hall, ht, hl]

theorem all_replicate_continuation (n : Nat) : (List.replicate n (0x80 : UInt8)).all isContinuation = true := by
  refine List.all_eq_true.2 ?_
  intro x hx
  rw [List.eq_of_mem_replicate hx]
  decide

/-- Continuation bytes that are too few can be filled up. The second byte of the sequence stays, or is chosen not to stray. -/
theorem exists_filled {b : UInt8} {rest : List UInt8} {n : Nat} (ht : rest.all isContinuation = true) (hl : rest.length < n)
    (hs : ∀ x ∈ rest.head?, ¬Strays b x) : ∃ x tail, rest <+: x :: tail ∧ (x :: tail).length = n ∧
      (x :: tail).all isContinuation = true ∧ ¬Strays b x := by
  cases rest with
  | nil =>
    obtain ⟨x, hx, hstays⟩ := exists_not_strays b
    refine ⟨x, List.replicate (n - 1) 0x80, List.nil_prefix, ?_, ?_, hstays⟩
    · simp only [List.length_nil, List.length_cons, List.length_replicate] at hl ⊢
      omega
    · rw [List.all_cons, hx, all_replicate_continuation]
      rfl
  | cons x rest =>
    refine ⟨x, rest ++ List.replicate (n - (rest.length + 1)) 0x80, List.prefix_append (x :: rest) _, ?_, ?_, hs x rfl⟩
    · simp only [List.length_cons, List.length_append, List.length_replicate] at hl ⊢
      omega
    · rw [← List.cons_append, List.all_append, ht, all_replicate_continuation]
      rfl

/-- A first byte with too few bytes behind it begins a character, unless the second byte strays. -/
theorem begins_of_not_strays {b : UInt8} {rest : List UInt8} {w : Nat} (hw : width? b = some w)
    (ht : rest.all isContinuation = true) (hl : rest.length < w - 1) (hs : ∀ x ∈ rest.head?, ¬Strays b x) :
    Begins (b :: rest) := by
  obtain ⟨x, tail, hprefix, hlen, hall, hx⟩ := exists_filled ht hl hs
  have hspells := (spells_iff_not_strays hw hlen hall).2 hx
  have hc := toNat_ofNat hspells.2
  have hbytes := encode_of_payload hw hlen hall hc (by rw [hc]; exact hspells.1)
  refine ⟨List.cons_ne_nil _ _, Char.ofNat (payload b (x :: tail)), ?_, ?_⟩
  · rw [hbytes]
    exact (List.prefix_cons_inj b).2 hprefix
  · intro heq
    rw [hbytes] at heq
    obtain ⟨-, rfl⟩ := List.cons.inj heq
    omega

theorem Begins.short (h : Begins bytes) : Short bytes := by
  obtain ⟨hne, c, hprefix, hneq⟩ := h
  obtain ⟨b, tail, hbytes, hw, ht, -⟩ := encode_sequence c
  obtain ⟨b', rest, rfl⟩ := List.exists_cons_of_ne_nil hne
  rw [hbytes] at hprefix hneq
  obtain ⟨rfl, hrest⟩ := List.cons_prefix_cons.1 hprefix
  refine ⟨b', rest, _, rfl, hw, ?_, ?_⟩
  · exact List.all_eq_true.2 fun x hx => List.all_eq_true.1 ht x (hrest.subset hx)
  · have hlen : rest.length ≠ tail.length := fun heq => hneq (congrArg _ (hrest.eq_of_length heq))
    have hle := hrest.length_le
    omega

theorem Feigns.short (h : Feigns bytes) : Short bytes := by
  obtain ⟨b, x, rest, w, rfl, hw, ht, hl, -⟩ := h
  exact ⟨b, x :: rest, w, rfl, hw, ht, hl⟩

theorem Feigns.not_begins (h : Feigns bytes) : ¬Begins bytes := by
  rintro ⟨-, c, hprefix, -⟩
  obtain ⟨b, x, rest, w, rfl, -, -, -, hx⟩ := h
  obtain ⟨b', tail, hbytes, -, -, hstays⟩ := encode_sequence c
  rw [hbytes] at hprefix
  obtain ⟨rfl, more, rfl⟩ := List.cons_prefix_cons.1 hprefix
  exact hstays x (by simp) hx

theorem short_iff : Short bytes ↔ Begins bytes ∨ Feigns bytes := by
  constructor
  · rintro ⟨b, rest, w, rfl, hw, ht, hl⟩
    cases rest with
    | nil => exact .inl (begins_of_not_strays hw ht hl (by simp))
    | cons x rest =>
      by_cases hx : Strays b x
      · exact .inr ⟨b, x, rest, w, rfl, hw, ht, hl, hx⟩
      · refine .inl (begins_of_not_strays hw ht hl ?_)
        intro y hy
        obtain rfl : x = y := by simpa using hy
        exact hx
  · rintro (h | h)
    · exact h.short
    · exact h.short

/-- More bytes can make the front a character if it is one already, or if it begins one. -/
theorem extends_iff (hne : bytes ≠ []) : (∃ c more, String.utf8EncodeChar c <+: bytes ++ more) ↔
    (∃ c w, decodeOne bytes = .char c w) ∨ Begins bytes := by
  constructor
  · rintro ⟨c, more, hprefix⟩
    rcases List.prefix_or_prefix_of_prefix hprefix (List.prefix_append bytes more) with h | h
    · exact .inl ⟨c, _, decodeOne_of_prefix h⟩
    · by_cases heq : bytes = String.utf8EncodeChar c
      · exact .inl ⟨c, _, decodeOne_of_prefix (heq ▸ List.prefix_refl _)⟩
      · exact .inr ⟨hne, c, h, heq⟩
  · rintro (⟨c, w, h⟩ | ⟨-, c, ⟨more, hmore⟩, -⟩)
    · refine ⟨c, [], ?_⟩
      rw [List.append_nil, ← (decodeOne_eq_char_iff.1 h).2]
      exact List.take_prefix w bytes
    · exact ⟨c, more, hmore ▸ List.prefix_refl _⟩

theorem Feigns.not_extends (h : Feigns bytes) (c : Char) (more : List UInt8) :
    ¬String.utf8EncodeChar c <+: bytes ++ more := by
  have htruncated := decodeOne_eq_truncated_iff.2 h.short
  have hne : bytes ≠ [] := by
    rintro rfl
    simp [decodeOne] at htruncated
  intro hprefix
  rcases (extends_iff hne).1 ⟨c, more, hprefix⟩ with ⟨d, w, hchar⟩ | hbegins
  · simp [htruncated] at hchar
  · exact h.not_begins hbegins

theorem decodeOne_eq_malformed_iff : decodeOne bytes = .malformed ↔
    bytes ≠ [] ∧ (∀ c more, ¬String.utf8EncodeChar c <+: bytes ++ more) ∧ ¬Feigns bytes := by
  constructor
  · intro h
    have hne : bytes ≠ [] := by
      rintro rfl
      simp [decodeOne] at h
    have hshort : ¬Short bytes := by
      intro hs
      simp [decodeOne_eq_truncated_iff.2 hs] at h
    refine ⟨hne, ?_, fun hf => hshort hf.short⟩
    intro c more hprefix
    rcases (extends_iff hne).1 ⟨c, more, hprefix⟩ with ⟨d, w, hchar⟩ | hbegins
    · simp [h] at hchar
    · exact hshort hbegins.short
  · rintro ⟨hne, hnone, hfeigns⟩
    have hextends : ¬((∃ c w, decodeOne bytes = .char c w) ∨ Begins bytes) := by
      rw [← extends_iff hne]
      rintro ⟨c, more, hprefix⟩
      exact hnone c more hprefix
    cases hd : decodeOne bytes with
    | malformed => rfl
    | char c w => exact absurd (.inl ⟨c, w, hd⟩) hextends
    | truncated =>
      rcases short_iff.1 (decodeOne_eq_truncated_iff.1 hd) with hbegins | hf
      · exact absurd (.inr hbegins) hextends
      · exact absurd hf hfeigns
    | finished =>
      obtain ⟨b, rest, rfl⟩ := List.exists_cons_of_ne_nil hne
      exact absurd hd (decodeOne_cons_ne_finished b rest)

/-- What decoding finds at the front of any byte string: its end if there are no bytes; a character whose bytes are the
first ones; a character that is cut off, or bytes that only have the shape of one; and else bytes that no continuation
turns into a character. -/
theorem decodeOne_classifies (bytes : List UInt8) :
    (decodeOne bytes = .finished ↔ bytes = []) ∧
      (∀ c w, decodeOne bytes = .char c w ↔ w ≤ bytes.length ∧ bytes.take w = String.utf8EncodeChar c) ∧
      (decodeOne bytes = .truncated ↔ Begins bytes ∨ Feigns bytes) ∧
      (decodeOne bytes = .malformed ↔
        bytes ≠ [] ∧ (∀ c more, ¬String.utf8EncodeChar c <+: bytes ++ more) ∧ ¬Feigns bytes) ∧
      ¬(Feigns bytes ∧ ∃ c more, String.utf8EncodeChar c <+: bytes ++ more) := by
  refine ⟨?_, fun _ _ => decodeOne_eq_char_iff, ?_, decodeOne_eq_malformed_iff, ?_⟩
  · constructor
    · intro h
      cases bytes with
      | nil => rfl
      | cons b rest => exact absurd h (decodeOne_cons_ne_finished b rest)
    · rintro rfl
      rfl
  · rw [decodeOne_eq_truncated_iff, short_iff]
  · rintro ⟨hfeigns, c, more, hprefix⟩
    exact hfeigns.not_extends c more hprefix

/-- The first two bytes of a number that is written too long count as cut off, though no character starts with them. -/
theorem decodeOne_overlong : decodeOne [0xE0, 0x80] = .truncated ∧ ¬Begins [0xE0, 0x80] ∧
    ∀ c more, ¬String.utf8EncodeChar c <+: [0xE0, 0x80] ++ more := by
  have hfeigns : Feigns [0xE0, 0x80] := ⟨0xE0, 0x80, [], 3, rfl, by decide, by decide, by decide, .inl ⟨rfl, by decide⟩⟩
  exact ⟨by decide, hfeigns.not_begins, hfeigns.not_extends⟩

end YamlQuery.Utf8
