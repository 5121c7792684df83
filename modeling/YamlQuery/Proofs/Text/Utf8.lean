import Mathlib.Data.List.Basic
import YamlQuery.Text.Utf8
/-!
Reading the bytes of a text gives the text back, and every text that is read is spelled by the bytes it is read from.
-/
namespace YamlQuery.Utf8

theorem encode_cons (c : Char) (cs : List Char) : encode (c :: cs) = String.utf8EncodeChar c ++ encode cs :=
  List.flatMap_cons

theorem encode_append (as bs : List Char) : encode (as ++ bs) = encode as ++ encode bs := List.flatMap_append

theorem encode_length_pos {cs : List Char} (h : cs ≠ []) : 0 < (encode cs).length := by
  obtain ⟨c, cs, rfl⟩ := List.exists_cons_of_ne_nil h
  have hpos := c.utf8Size_pos
  rw [encode_cons, List.length_append, String.length_utf8EncodeChar]
  omega

theorem isContinuation_ofNat {n : Nat} (h : n < 64) : isContinuation (UInt8.ofNat (n + 0x80)) = true := by
  have hall : ∀ n < 64, isContinuation (UInt8.ofNat (n + 0x80)) = true := by decide
  exact hall n h

theorem width_one {n : Nat} (h : n ≤ 0x7F) : width? (UInt8.ofNat n) = some 1 := by
  have hall : ∀ n < 128, width? (UInt8.ofNat n) = some 1 := by decide
  exact hall n (by omega)

theorem width_two {n : Nat} (h2 : 2 ≤ n) (h : n < 32) : width? (UInt8.ofNat (n + 0xC0)) = some 2 := by
  have hall : ∀ n < 32, 2 ≤ n → width? (UInt8.ofNat (n + 0xC0)) = some 2 := by decide
  exact hall n h h2

theorem width_three {n : Nat} (h : n < 16) : width? (UInt8.ofNat (n + 0xE0)) = some 3 := by
  have hall : ∀ n < 16, width? (UInt8.ofNat (n + 0xE0)) = some 3 := by decide
  exact hall n h

theorem width_four {n : Nat} (h : n ≤ 4) : width? (UInt8.ofNat (n + 0xF0)) = some 4 := by
  have hall : ∀ n < 5, width? (UInt8.ofNat (n + 0xF0)) = some 4 := by decide
  exact hall n (by omega)

theorem toNat_lt (c : Char) : c.toNat < 0x110000 := by
  have h : c.toNat.isValidChar := c.valid
  unfold Nat.isValidChar at h
  omega

theorem decodeOne_of_payload {b : UInt8} {tail rest : List UInt8} {c : Char} {w : Nat} (hw : width? b = some w)
    (hl : tail.length = w - 1) (ht : tail.all isContinuation = true) (hn : payload b tail = c.toNat)
    (hm : least w ≤ c.toNat) : decodeOne (b :: (tail ++ rest)) = .char c w := by
  have htake : (tail ++ rest).take (w - 1) = tail := by
    rw [← hl]
    exact List.take_left
  have hv : c.toNat.isValidChar := c.valid
  simp [decodeOne, hw, htake, ht, hl, hn, hm, hv]

/-- A character is read from the front of its bytes, whatever follows. -/
theorem decodeOne_encode (c : Char) (rest : List UInt8) :
    ∃ b tail, String.utf8EncodeChar c = b :: tail ∧
      decodeOne (b :: (tail ++ rest)) = .char c (tail.length + 1) := by
  have hlt := toNat_lt c
  have hv : c.val.toNat = c.toNat := rfl
  unfold String.utf8EncodeChar
  simp only [hv]
  split
  · next h =>
    refine ⟨_, _, rfl, decodeOne_of_payload (width_one h) rfl rfl ?_ (Nat.zero_le _)⟩
    simp [payload, twoTo]
    omega
  · split
    · next h1 h =>
      refine ⟨_, _, rfl, decodeOne_of_payload (width_two (by omega) (by omega)) rfl ?_ ?_ ?_⟩
      · simp only [List.all_cons, List.all_nil, Bool.and_true]
        exact isContinuation_ofNat (by omega)
      · simp [payload, twoTo]
        omega
      · simp [least]
        omega
    · split
      · next h1 h2 h =>
        refine ⟨_, _, rfl, decodeOne_of_payload (width_three (by omega)) rfl ?_ ?_ ?_⟩
        · simp only [List.all_cons, List.all_nil, Bool.and_true, Bool.and_eq_true]
          exact ⟨isContinuation_ofNat (by omega), isContinuation_ofNat (by omega)⟩
        · simp [payload, twoTo]
          omega
        · simp [least]
          omega
      · next h1 h2 h3 =>
        refine ⟨_, _, rfl, decodeOne_of_payload (width_four (by omega)) rfl ?_ ?_ ?_⟩
        · simp only [List.all_cons, List.all_nil, Bool.and_true, Bool.and_eq_true]
          exact ⟨isContinuation_ofNat (by omega), isContinuation_ofNat (by omega), isContinuation_ofNat (by omega)⟩
        · simp [payload, twoTo]
          omega
        · simp [least]
          omega

theorem readAfter_append (xs ys : List UInt8) : readAfter xs.length (xs ++ ys) = readAfter 0 ys := by
  induction xs with
  | nil => rfl
  | cons x xs ih => simpa [readAfter] using ih

theorem read_encode (cs : List Char) : read (encode cs) = (cs, .complete) := by
  induction cs with
  | nil => rfl
  | cons c cs ih =>
    obtain ⟨b, tail, he, hd⟩ := decodeOne_encode c (encode cs)
    have henc : encode (c :: cs) = b :: (tail ++ encode cs) := by
      rw [encode_cons, he]
      rfl
    have hskip : readAfter tail.length (tail ++ encode cs) = (cs, .complete) := by
      rw [readAfter_append]
      exact ih
    rw [read, henc, readAfter, hd]
    simp [hskip]

theorem toNat_of_isContinuation {b : UInt8} (h : isContinuation b = true) : 0x80 ≤ b.toNat ∧ b.toNat < 0xC0 := by
  have hall : ∀ n < 256, isContinuation (UInt8.ofNat n) = true → 0x80 ≤ n ∧ n < 0xC0 := by decide +kernel
  have hb := hall b.toNat b.toNat_lt
  rw [UInt8.ofNat_toNat] at hb
  exact hb h

theorem width_cases {b : UInt8} {w : Nat} (h : width? b = some w) :
    (w = 1 ∧ b.toNat ≤ 0x7F) ∨ (w = 2 ∧ 0xC2 ≤ b.toNat ∧ b.toNat ≤ 0xDF) ∨ (w = 3 ∧ 0xE0 ≤ b.toNat ∧ b.toNat ≤ 0xEF) ∨
      (w = 4 ∧ 0xF0 ≤ b.toNat ∧ b.toNat ≤ 0xF4) := by
  simp only [width?, Bool.and_eq_true, decide_eq_true_eq, UInt8.le_iff_toNat_le] at h
  split at h
  · next h1 =>
    cases h
    exact .inl ⟨rfl, h1⟩
  · split at h
    · next h2 =>
      cases h
      exact .inr (.inl ⟨rfl, h2⟩)
    · split at h
      · next h3 =>
        cases h
        exact .inr (.inr (.inl ⟨rfl, h3⟩))
      · split at h
        · next h4 =>
          cases h
          exact .inr (.inr (.inr ⟨rfl, h4⟩))
        · simp at h

theorem ofNat_eq {n : Nat} {b : UInt8} (h : n = b.toNat) : UInt8.ofNat n = b := by
  rw [h, UInt8.ofNat_toNat]

/-- The bytes of a number that is written in no more of them than it needs are those that spell it. -/
theorem encode_of_payload {b : UInt8} {tail : List UInt8} {w : Nat} {c : Char} (hw : width? b = some w)
    (hl : tail.length = w - 1) (ht : tail.all isContinuation = true) (hc : c.toNat = payload b tail)
    (hm : least w ≤ c.toNat) : String.utf8EncodeChar c = b :: tail := by
  have hv : c.val.toNat = c.toNat := rfl
  unfold String.utf8EncodeChar
  simp only [hv]
  rcases width_cases hw with ⟨rfl, h⟩ | ⟨rfl, h⟩ | ⟨rfl, h⟩ | ⟨rfl, h⟩
  · obtain rfl := List.length_eq_zero_iff.1 hl
    have hn : c.toNat = b.toNat % 2 ^ 7 := hc
    rw [if_pos (by omega)]
    exact congrArg (· :: []) (ofNat_eq (by omega))
  · obtain ⟨x, rfl⟩ := List.length_eq_one_iff.1 hl
    have hx := toNat_of_isContinuation (b := x) (by simpa using ht)
    have hn : c.toNat = b.toNat % 2 ^ 5 * 64 + x.toNat % 64 := hc
    have hmin : 0x80 ≤ c.toNat := hm
    rw [if_neg (by omega), if_pos (by omega), ofNat_eq (b := b) (by omega), ofNat_eq (b := x) (by omega)]
  · obtain ⟨x, y, rfl⟩ := List.length_eq_two.1 hl
    have hxy : isContinuation x = true ∧ isContinuation y = true := by simpa using ht
    have hx := toNat_of_isContinuation hxy.1
    have hy := toNat_of_isContinuation hxy.2
    have hn : c.toNat = (b.toNat % 2 ^ 4 * 64 + x.toNat % 64) * 64 + y.toNat % 64 := hc
    have hmin : 0x800 ≤ c.toNat := hm
    rw [if_neg (by omega), if_neg (by omega), if_pos (by omega), ofNat_eq (b := b) (by omega),
      ofNat_eq (b := x) (by omega), ofNat_eq (b := y) (by omega)]
  · obtain ⟨x, y, z, rfl⟩ := List.length_eq_three.1 hl
    have hxyz : isContinuation x = true ∧ isContinuation y = true ∧ isContinuation z = true := by simpa using ht
    have hx := toNat_of_isContinuation hxyz.1
    have hy := toNat_of_isContinuation hxyz.2.1
    have hz := toNat_of_isContinuation hxyz.2.2
    have hn : c.toNat = ((b.toNat % 2 ^ 3 * 64 + x.toNat % 64) * 64 + y.toNat % 64) * 64 + z.toNat % 64 := hc
    have hmin : 0x10000 ≤ c.toNat := hm
    rw [if_neg (by omega), if_neg (by omega), if_neg (by omega), ofNat_eq (b := b) (by omega),
      ofNat_eq (b := x) (by omega), ofNat_eq (b := y) (by omega), ofNat_eq (b := z) (by omega)]

theorem toNat_ofNat {n : Nat} (h : n.isValidChar) : (Char.ofNat n).toNat = n := by
  rw [Char.ofNat, dif_pos h]
  rfl

/-- What the front of a byte string is when a character is read from it. -/
theorem sequence_of_decodeOne {b : UInt8} {rest : List UInt8} {c : Char} {w : Nat} (h : decodeOne (b :: rest) = .char c w) :
    width? b = some w ∧ (rest.take (w - 1)).all isContinuation = true ∧ (rest.take (w - 1)).length = w - 1 ∧
      least w ≤ payload b (rest.take (w - 1)) ∧ (payload b (rest.take (w - 1))).isValidChar ∧
      c = Char.ofNat (payload b (rest.take (w - 1))) := by
  rw [decodeOne] at h
  dsimp only at h
  split at h
  · simp at h
  · next w' hw =>
    split at h
    · simp at h
    · next ht =>
      split at h
      · simp at h
      · next hl =>
        split at h
        · next hn =>
          cases h
          have hle := List.length_take_le (w - 1) rest
          exact ⟨hw, by simpa using ht, by omega, hn.1, hn.2, rfl⟩
        · simp at h

/-- A character that is read is spelled by the bytes it is read from. -/
theorem encode_of_decodeOne {b : UInt8} {rest : List UInt8} {c : Char} {w : Nat}
    (h : decodeOne (b :: rest) = .char c w) : b :: rest = String.utf8EncodeChar c ++ rest.drop (w - 1) := by
  obtain ⟨hw, ht, hlen, hleast, hvalid, rfl⟩ := sequence_of_decodeOne h
  have hc := toNat_ofNat hvalid
  have hbytes := encode_of_payload hw hlen ht hc (by rw [hc]; exact hleast)
  rw [hbytes, List.cons_append, List.take_append_drop]

theorem decodeOne_cons_ne_finished (b : UInt8) (bs : List UInt8) : decodeOne (b :: bs) ≠ .finished := by
  rw [decodeOne]
  grind

def Ending.decoded : Ending → Decoded
  | complete => .finished
  | malformed => .malformed
  | truncated => .truncated

theorem encode_readAfter (skip : Nat) (bytes : List UInt8) :
    ∃ tail, bytes.drop skip = encode (readAfter skip bytes).1 ++ tail ∧ decodeOne tail = (readAfter skip bytes).2.decoded := by
  induction bytes generalizing skip with
  | nil => exact ⟨[], by simp [readAfter, encode], rfl⟩
  | cons b bs ih =>
    cases skip with
    | succ skip =>
      rw [List.drop_succ_cons, readAfter]
      exact ih skip
    | zero =>
      rw [List.drop_zero, readAfter]
      split
      · next c w hd =>
        obtain ⟨tail, ht, hend⟩ := ih (w - 1)
        refine ⟨tail, ?_, hend⟩
        rw [encode_of_decodeOne hd, ht, encode_cons, List.append_assoc]
      · next hd => exact ⟨b :: bs, rfl, hd⟩
      · next hd => exact ⟨b :: bs, rfl, hd⟩
      · next hd => exact absurd hd (decodeOne_cons_ne_finished b bs)

/-- The characters that are read are spelled by the first bytes, and what ends reading stands right behind these. -/
theorem decodeOne_behind_read (bytes : List UInt8) :
    ∃ tail, bytes = encode (read bytes).1 ++ tail ∧ decodeOne tail = (read bytes).2.decoded := by
  have h := encode_readAfter 0 bytes
  rwa [List.drop_zero] at h

/-- The characters that are read are spelled by all bytes if reading came to the end. -/
theorem encode_read (bytes : List UInt8) :
    ∃ tail, bytes = encode (read bytes).1 ++ tail ∧ ((read bytes).2 = .complete → tail = []) := by
  obtain ⟨tail, hbytes, hend⟩ := decodeOne_behind_read bytes
  refine ⟨tail, hbytes, ?_⟩
  intro hcomplete
  cases tail with
  | nil => rfl
  | cons b bs =>
    rw [hcomplete] at hend
    exact absurd hend (decodeOne_cons_ne_finished b bs)

/-- A byte below 128 is a character of its own. -/
theorem decodeOne_of_lt {b : UInt8} (h : b.toNat < 128) (rest : List UInt8) :
    decodeOne (b :: rest) = .char (Char.ofNat b.toNat) 1 := by
  have hw : width? b = some 1 := by
    rw [← ofNat_eq (b := b) rfl]
    exact width_one (by omega)
  have hc : (Char.ofNat b.toNat).toNat = b.toNat := toNat_ofNat (.inl (by omega))
  have hpayload : payload b [] = (Char.ofNat b.toNat).toNat := by
    rw [hc]
    exact Nat.mod_eq_of_lt h
  exact decodeOne_of_payload hw rfl rfl hpayload (Nat.zero_le _)

/-- A character below 128 is read from a byte below 128. -/
theorem lt_of_decodeOne {b : UInt8} {rest : List UInt8} {c : Char} {w : Nat} (h : decodeOne (b :: rest) = .char c w)
    (hc : c.toNat < 128) : b.toNat < 128 := by
  obtain ⟨hw, -, -, hmin, hvalid, rfl⟩ := sequence_of_decodeOne h
  rw [toNat_ofNat hvalid] at hc
  -- more bytes than one are not the shortest spelling
  rcases width_cases hw with ⟨rfl, h⟩ | ⟨rfl, -⟩ | ⟨rfl, -⟩ | ⟨rfl, -⟩
  · omega
  all_goals
    simp only [least] at hmin
    omega

end YamlQuery.Utf8
