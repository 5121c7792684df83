import Mathlib.Algebra.Group.Nat.Defs
import YamlQuery.Text.Escape
/-!
Escapes read back: what is written for a character between double quotes decodes to that character.
-/
namespace YamlQuery.Escape
open CharClass

theorem isHexDigit_hexDigit : ∀ n, n < 16 → isHexDigit (hexDigit n) = true := by decide

theorem hexValue_hexDigit : ∀ n, n < 16 → hexValue (hexDigit n) = n := by decide

theorem length_hexDigits (k n : Nat) : (hexDigits k n).length = k := by
  induction k generalizing n with
  | zero => rfl
  | succ k ih => simp [hexDigits, ih]

theorem all_hexDigits (k n : Nat) : (hexDigits k n).all isHexDigit = true := by
  induction k generalizing n with
  | zero => rfl
  | succ k ih =>
    have hd := isHexDigit_hexDigit (n % 16) (by omega)
    simp only [hexDigits, List.all_append, ih, List.all_cons, hd, List.all_nil, Bool.and_true]

theorem hexNumber_concat (cs : List Char) (c : Char) : hexNumber (cs ++ [c]) = hexNumber cs * 16 + hexValue c := by
  simp [hexNumber]

/-- The digits of a number spell it, as far as they reach. -/
theorem hexNumber_hexDigits (k n : Nat) (h : n < 16 ^ k) : hexNumber (hexDigits k n) = n := by
  induction k generalizing n with
  | zero =>
    have hn : n = 0 := by omega
    rw [hn]
    rfl
  | succ k ih =>
    have hq : n / 16 < 16 ^ k := by omega
    have hd := hexValue_hexDigit (n % 16) (by omega)
    rw [hexDigits, hexNumber_concat, ih _ hq, hd]
    omega

theorem scalar_toNat (c : Char) : scalar? c.toNat = some c := by
  have hv : c.toNat.isValidChar := c.valid
  rw [scalar?, if_pos hv, Char.ofNat_toNat]

/-- A numeric escape with enough digits means the character of its number. -/
theorem decode_digits {x c : Char} {k : Nat} (hx : digitCount? x = some k) (hk : c.toNat < 16 ^ k) (more : List Char) :
    decode (x :: (hexDigits k c.toNat ++ more)) = some (c, k + 1) := by
  have hlen := length_hexDigits k c.toNat
  have htake : (hexDigits k c.toNat ++ more).take k = hexDigits k c.toNat := List.take_left' hlen
  have hall := all_hexDigits k c.toNat
  have hnum := hexNumber_hexDigits k c.toNat hk
  simp only [decode, hx, htake, hlen, hall, hnum, scalar_toNat]
  rfl

structure Body (c : Char) (body : List Char) : Prop where
  ne_nil : body ≠ []
  decodes : ∀ more, decode (body ++ more) = some (c, body.length)

theorem body_letter {x c : Char} (hx : digitCount? x = none) (hc : letter? x = some c) : Body c [x] where
  ne_nil := List.cons_ne_nil _ _
  decodes := by
    intro more
    rw [List.cons_append, decode, hx, hc]
    rfl

theorem body_digits {x c : Char} {k : Nat} (hx : digitCount? x = some k) (hk : c.toNat < 16 ^ k) :
    Body c (x :: hexDigits k c.toNat) where
  ne_nil := List.cons_ne_nil _ _
  decodes := by
    intro more
    rw [List.cons_append, decode_digits hx hk, List.length_cons, length_hexDigits]

theorem body_of_unprintable {c : Char} {esc : List Char} (h : unprintable? c = some esc) :
    ∃ body, esc = '\\' :: body ∧ Body c body := by
  have hc := Char.ofNat_toNat c
  unfold unprintable? at h
  split at h
  all_goals try
    next hn =>
    cases h
    rw [hn] at hc
    rw [← hc]
    exact ⟨_, rfl, body_letter rfl rfl⟩
  split at h
  · cases h
    exact ⟨_, rfl, body_digits rfl (by omega)⟩
  · split at h
    · cases h
      exact ⟨_, rfl, body_digits rfl (by omega)⟩
    · simp at h

/-- A character between double quotes is written as itself or as an escape that means it. -/
theorem render_double (c : Char) :
    (render .double c = [c] ∧ c ≠ '"' ∧ c ≠ '\\') ∨ ∃ body, render .double c = '\\' :: body ∧ Body c body := by
  by_cases hq : c = '"'
  · subst hq
    exact .inr ⟨['"'], rfl, body_letter rfl rfl⟩
  · by_cases hb : c = '\\'
    · subst hb
      exact .inr ⟨['\\'], rfl, body_letter rfl rfl⟩
    · have hr : render .double c = (unprintable? c).getD [c] := by
        simp only [render, hq, hb, ↓reduceIte]
      cases hu : unprintable? c with
      | none =>
        rw [hu] at hr
        exact .inl ⟨hr, hq, hb⟩
      | some esc =>
        obtain ⟨body, rfl, hbody⟩ := body_of_unprintable hu
        rw [hu] at hr
        exact .inr ⟨body, hr, hbody⟩

end YamlQuery.Escape
