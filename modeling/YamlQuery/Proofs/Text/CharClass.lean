import YamlQuery.Text.CharClass
/-!
Character classes: where a run of one class ends, and which exclude each other, since no blank is a digit or belongs to a
name.
-/
namespace YamlQuery.CharClass
variable {c : Char}

theorem takeWhile_stops {p : Char → Bool} {cs : List Char} (h : ∀ c ∈ cs.head?, p c = false) :
    cs.takeWhile p = [] ∧ cs.dropWhile p = cs := by
  cases cs with
  | nil => exact ⟨rfl, rfl⟩
  | cons c cs => simp [h c rfl]

/-- A run of one class is read up to where it ends. -/
theorem takeWhile_run {p : Char → Bool} {run rest : List Char} (hall : ∀ c ∈ run, p c = true)
    (h : ∀ c ∈ rest.head?, p c = false) : (run ++ rest).takeWhile p = run ∧ (run ++ rest).dropWhile p = rest := by
  obtain ⟨htake, hdrop⟩ := takeWhile_stops h
  rw [List.takeWhile_append_of_pos hall, List.dropWhile_append_of_pos hall, htake, hdrop, List.append_nil]
  exact ⟨rfl, rfl⟩

theorem isDigit_lt (h : isDigit c = true) : 48 ≤ c.toNat ∧ c.toNat ≤ 57 := by
  obtain ⟨hl, hr⟩ := Bool.and_eq_true_iff.1 h
  exact ⟨of_decide_eq_true hl, of_decide_eq_true hr⟩

theorem isBlank_of_bounds (h : 32 < c.toNat) (hlt : c.toNat < 128) : isBlank c = false := by
  have hs : c ≠ ' ' := by
    rintro rfl
    exact absurd h (by decide)
  have h13 : ¬c.toNat ≤ 13 := by omega
  simp [isBlank, hlt, h13, hs]

theorem isBlank_of_isDigit (h : isDigit c = true) : isBlank c = false := by
  obtain ⟨hl, hr⟩ := isDigit_lt h
  exact isBlank_of_bounds (by omega) (by omega)

theorem inRanges_disjoint {rs qs : List (Nat × Nat)}
    (h : (rs.all fun r => qs.all fun q => r.2.blt q.1 || q.2.blt r.1) = true) {n : Nat} (hn : inRanges rs n = true) :
    inRanges qs n = false := by
  obtain ⟨r, hr, hrn⟩ := List.any_eq_true.1 hn
  rw [inRanges, List.any_eq_false]
  intro q hq hqn
  have hd := List.all_eq_true.1 (List.all_eq_true.1 h r hr) q hq
  simp only [Bool.or_eq_true, Nat.blt_eq] at hd
  simp only [Bool.and_eq_true, decide_eq_true_eq] at hrn hqn
  omega

theorem startsName_cases (h : startsName c = true) :
    (c.toNat < 128 ∧ (isAsciiLetter c = true ∨ c = '_')) ∨ (128 ≤ c.toNat ∧ inRanges alphabeticRanges c.toNat = true) := by
  by_cases hlt : c.toNat < 128
  · left
    simpa [startsName, isAlphabetic, hlt] using h
  · right
    have hne : c ≠ '_' := by
      rintro rfl
      exact hlt (by decide)
    have hr : inRanges alphabeticRanges c.toNat = true := by
      simpa [startsName, isAlphabetic, hlt, hne] using h
    exact ⟨by omega, hr⟩

theorem isAsciiLetter_lt (h : isAsciiLetter c = true) : 65 ≤ c.toNat := by
  cases Bool.or_eq_true_iff.1 h with
  | inl h =>
    have hl : 97 ≤ c.toNat := of_decide_eq_true (Bool.and_eq_true_iff.1 h).1
    omega
  | inr h => exact of_decide_eq_true (Bool.and_eq_true_iff.1 h).1

theorem lt_of_isAsciiAlphanumeric (h : isAsciiAlphanumeric c = true) : c.toNat < 128 := by
  cases Bool.or_eq_true_iff.1 h with
  | inl h =>
    cases Bool.or_eq_true_iff.1 h with
    | inl h =>
      have hr : c.toNat ≤ 122 := of_decide_eq_true (Bool.and_eq_true_iff.1 h).2
      omega
    | inr h =>
      have hr : c.toNat ≤ 90 := of_decide_eq_true (Bool.and_eq_true_iff.1 h).2
      omega
  | inr h =>
    have hr := (isDigit_lt h).2
    omega

theorem startsName_lt (h : startsName c = true) : 65 ≤ c.toNat := by
  rcases startsName_cases h with ⟨-, h | rfl⟩ | ⟨h, -⟩
  · exact isAsciiLetter_lt h
  · decide
  · omega

theorem isDigit_of_startsName (h : startsName c = true) : isDigit c = false := by
  rw [Bool.eq_false_iff]
  intro hd
  have hn := startsName_lt h
  have hr := (isDigit_lt hd).2
  omega

theorem startsName_continuesName (h : startsName c = true) : continuesName c = true := by
  unfold startsName isAlphabetic at h
  unfold continuesName isAlphanumeric
  by_cases hc : c.toNat < 128
  · simp only [hc, ↓reduceIte, Bool.or_eq_true] at h ⊢
    cases h with
    | inl h => exact .inl (.inl (by simp [isAsciiAlphanumeric, h]))
    | inr h => exact .inl (.inr h)
  · simp only [hc, ↓reduceIte, Bool.or_eq_true] at h ⊢
    cases h with
    | inl h => exact .inl (.inl (.inl h))
    | inr h => exact .inl (.inr h)

theorem continuesName_cases (h : continuesName c = true) :
    (c.toNat < 128 ∧ (isAsciiLetter c = true ∨ isDigit c = true ∨ c = '_' ∨ c = '-')) ∨
      (128 ≤ c.toNat ∧ (inRanges alphabeticRanges c.toNat = true ∨ inRanges numericRanges c.toNat = true)) := by
  by_cases hlt : c.toNat < 128
  · left
    refine ⟨hlt, ?_⟩
    simpa [continuesName, isAlphanumeric, isAsciiAlphanumeric, hlt, or_assoc] using h
  · right
    have h1 : c ≠ '_' := by
      rintro rfl
      exact hlt (by decide)
    have h2 : c ≠ '-' := by
      rintro rfl
      exact hlt (by decide)
    have hr : inRanges alphabeticRanges c.toNat = true ∨ inRanges numericRanges c.toNat = true := by
      simpa [continuesName, isAlphanumeric, hlt, h1, h2] using h
    exact ⟨by omega, hr⟩

theorem isBlank_of_continuesName (h : continuesName c = true) : isBlank c = false := by
  rcases continuesName_cases h with ⟨hlt, h | h | rfl | rfl⟩ | ⟨hge, h⟩
  · have hn := isAsciiLetter_lt h
    exact isBlank_of_bounds (by omega) hlt
  · exact isBlank_of_isDigit h
  · decide
  · decide
  · have hlt : ¬c.toNat < 128 := by omega
    have hd : inRanges blankRanges c.toNat = false := by
      cases h with
      | inl h => exact inRanges_disjoint (by decide +kernel) h
      | inr h => exact inRanges_disjoint (by decide +kernel) h
    simp [isBlank, hlt, hd]

theorem isBlank_of_startsName (h : startsName c = true) : isBlank c = false :=
  isBlank_of_continuesName (startsName_continuesName h)

end YamlQuery.CharClass
