import Mathlib.Algebra.Group.Nat.Defs
import YamlQuery.Text.Integer
/-!
Decimal numbers read back: the digits of a number spell it.
-/
namespace YamlQuery.Integer
open CharClass

theorem isDigit_of_isDigit {c : Char} (h : c.isDigit = true) : CharClass.isDigit c = true := by
  simpa [CharClass.isDigit, Char.isDigit, Char.le_def] using h

theorem digit_of_isDigit {c : Char} (h : CharClass.isDigit c = true) : digit? 10 c = some (c.toNat - 48) := by
  have hle : c.toNat ≤ 57 := of_decide_eq_true (Bool.and_eq_true_iff.1 h).2
  have hv : hexValue c = c.toNat - 48 := by simp [hexValue, h]
  have hx : isHexDigit c = true := by simp [isHexDigit, h]
  have hlt : c.toNat - 48 < 10 := by omega
  simp only [digit?, hx, hv, hlt, decide_true, Bool.and_self, ↓reduceIte]

theorem extend_of_isDigit {cs : List Char} (h : ∀ c ∈ cs, CharClass.isDigit c = true) (n : Nat) :
    extend? 10 n cs = some (Nat.ofDigitChars 10 cs n) := by
  induction cs generalizing n with
  | nil => rfl
  | cons c cs ih =>
    have hc := digit_of_isDigit (h c (by simp))
    have hcs := ih (fun d hd => h d (by simp [hd])) (n * 10 + (c.toNat - 48))
    rw [extend?, hc, Option.bind_some, hcs, Nat.ofDigitChars_cons, Nat.mul_comm n 10]
    rfl

theorem toDigits_isDigit (n : Nat) : ∀ c ∈ Nat.toDigits 10 n, CharClass.isDigit c = true := by
  intro c hc
  exact isDigit_of_isDigit (Nat.isDigit_of_mem_toDigits (by decide) (by decide) hc)

theorem int_of_isDigit {c : Char} (h : CharClass.isDigit c = true) (radix : Nat) (cs : List Char) :
    int? radix (c :: cs) = (nat? radix (c :: cs)).map fun n => (n : Int) := by
  have hm : c ≠ '-' := by
    rintro rfl
    exact absurd h (by decide)
  have hp : c ≠ '+' := by
    rintro rfl
    exact absurd h (by decide)
  rw [int?]
  · intro cs' hcs
    exact hm (List.cons.inj hcs).1
  · intro cs' hcs
    exact hp (List.cons.inj hcs).1

/-- A natural number that fits 64 bits is read from its digits. -/
theorem int64_toDigits {n : Nat} (h : n < 2 ^ 63) : int64? 10 (Nat.toDigits 10 n) = some (Int64.ofNat n) := by
  have hne : Nat.toDigits 10 n ≠ [] := Nat.toDigits_ne_nil
  have hnat : nat? 10 (Nat.toDigits 10 n) = some n := by
    rw [nat?, List.isEmpty_eq_false_iff.2 hne, extend_of_isDigit (toDigits_isDigit n), Nat.ofDigitChars_ten_toDigits]
    rfl
  have hint : int? 10 (Nat.toDigits 10 n) = some (n : Int) := by
    obtain ⟨c, cs, hcs⟩ := List.exists_cons_of_ne_nil hne
    have hc := toDigits_isDigit n c (by simp [hcs])
    rw [hcs, int_of_isDigit hc, ← hcs, hnat]
    rfl
  have hmin : Int64.minValue.toInt = -2 ^ 63 := rfl
  have hmax : Int64.maxValue.toInt = 2 ^ 63 - 1 := rfl
  have hfit : Int64.minValue.toInt ≤ n ∧ n ≤ Int64.maxValue.toInt := by
    rw [hmin, hmax]
    omega
  rw [int64?, hint, Option.bind_some, fit?, if_pos hfit, Int64.ofInt_eq_ofNat]

end YamlQuery.Integer

namespace YamlQuery

/-- A decimal literal: digits, as many as there may be zeros in front, with or without a minus sign. -/
structure Decimal where
  negative : Bool
  digits : List Char
  ne_nil : digits ≠ []
  all_isDigit : digits.all CharClass.isDigit = true

namespace Decimal
open Integer

theorem isDigit (d : Decimal) : ∀ c ∈ d.digits, CharClass.isDigit c = true := List.all_eq_true.1 d.all_isDigit

def chars (d : Decimal) : List Char := if d.negative then '-' :: d.digits else d.digits

def text (d : Decimal) : String := String.ofList d.chars

def value (d : Decimal) : Int :=
  let n : Int := Nat.ofDigitChars 10 d.digits 0
  if d.negative then -n else n

theorem nat_digits (d : Decimal) : nat? 10 d.digits = some (Nat.ofDigitChars 10 d.digits 0) := by
  rw [nat?, List.isEmpty_eq_false_iff.2 d.ne_nil, extend_of_isDigit d.isDigit]
  rfl

/-- A literal is read as its number, if that fits 64 bits. -/
theorem int64_chars (d : Decimal) : int64? 10 d.chars = fit? d.value := by
  have hint : int? 10 d.chars = some d.value := by
    obtain ⟨negative, digits, hne, hdigits⟩ := d
    have hnat := nat_digits ⟨negative, digits, hne, hdigits⟩
    cases negative with
    | true =>
      show (nat? 10 digits).map (fun n => -(n : Int)) = _
      rw [hnat]
      rfl
    | false =>
      obtain ⟨c, cs, rfl⟩ := List.exists_cons_of_ne_nil hne
      show int? 10 (c :: cs) = _
      rw [int_of_isDigit (List.all_eq_true.1 hdigits c (by simp)), hnat]
      rfl
  rw [int64?, hint, Option.bind_some]

def ofInt (n : Int) : Decimal where
  negative := n < 0
  digits := Nat.toDigits 10 n.natAbs
  ne_nil := Nat.toDigits_ne_nil
  all_isDigit := List.all_eq_true.2 (toDigits_isDigit n.natAbs)

theorem text_ofInt (n : Int) : (ofInt n).text = toString n := by
  cases n with
  | ofNat n =>
    have hprint : toString (Int.ofNat n) = String.ofList (Nat.toDigits 10 n) := Nat.repr_eq_ofList_toDigits
    rw [hprint]
    rfl
  | negSucc n =>
    have hprint : toString (Int.negSucc n) = "-" ++ String.ofList (Nat.toDigits 10 (n + 1)) :=
      congrArg ("-" ++ ·) Nat.repr_eq_ofList_toDigits
    have hneg : (ofInt (Int.negSucc n)).negative = true := decide_eq_true (Int.negSucc_lt_zero n)
    rw [hprint, ← String.toList_inj, String.toList_append, text, chars, hneg]
    simp only [String.toList_ofList, ↓reduceIte]
    rfl

theorem value_ofInt (n : Int) : (ofInt n).value = n := by
  simp only [value, ofInt, Nat.ofDigitChars_ten_toDigits]
  split
  · next h =>
    have := of_decide_eq_true h
    omega
  · next h =>
    have := of_decide_eq_false (Bool.not_eq_true _ ▸ h)
    omega

end Decimal
end YamlQuery
