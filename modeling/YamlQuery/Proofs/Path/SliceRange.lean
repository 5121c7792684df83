import YamlQuery.Proofs.Path.SlicePlaces
/-!
Slices as ranges of unbounded integers. The places of a slice are the terms of a range with the same bounds: 64 bits hold
every sum on the way to them but the one behind the last.
-/
namespace YamlQuery.Path

namespace Progression
variable {start stop stride : Int} {k : Nat}

def Precedes (stride stop i : Int) : Prop := (0 < stride ∧ i < stop) ∨ (stride < 0 ∧ stop < i)

instance (stride stop i : Int) : Decidable (Precedes stride stop i) := inferInstanceAs (Decidable (_ ∨ _))

def count (start stop stride : Int) : Nat :=
  if 0 < stride then ((stop - start + stride - 1) / stride).toNat else ((start - stop - stride - 1) / -stride).toNat

def terms (start stop stride : Int) : List Int := (List.range (count start stop stride)).map fun k : Nat => start + k * stride

theorem lt_ediv_toNat {d m : Int} (hm : 0 < m) : k < ((d + m - 1) / m).toNat ↔ k * m < d := by
  have hle : (k + 1 : Int) ≤ (d + m - 1) / m ↔ (k + 1 : Int) * m ≤ d + m - 1 := Int.le_ediv_iff_mul_le hm
  rw [Int.add_mul, Int.one_mul] at hle
  omega

theorem lt_count_iff : k < count start stop stride ↔ Precedes stride stop (start + k * stride) := by
  unfold count Precedes
  rcases Int.lt_trichotomy 0 stride with hup | rfl | hdown
  · have hlt : k < ((stop - start + stride - 1) / stride).toNat ↔ k * stride < stop - start := lt_ediv_toNat hup
    rw [if_pos hup]
    omega
  · simp
  · have hlt : k < ((start - stop + -stride - 1) / -stride).toNat ↔ k * -stride < start - stop :=
      lt_ediv_toNat (by omega)
    rw [Int.mul_neg, ← Int.sub_eq_add_neg] at hlt
    rw [if_neg (by omega)]
    omega

theorem getElem?_terms (start stop stride : Int) (k : Nat) : (terms start stop stride)[k]? =
    if Precedes stride stop (start + k * stride) then some (start + k * stride) else none := by
  by_cases h : Precedes stride stop (start + k * stride)
  · simp [terms, lt_count_iff.2 h, h]
  · have hcount : count start stop stride ≤ k := Nat.le_of_not_lt fun hlt => h (lt_count_iff.1 hlt)
    simp [terms, hcount, h]

theorem terms_done (h : ¬Precedes stride stop start) : terms start stop stride = [] := by
  have hfirst := getElem?_terms start stop stride 0
  simpa [h] using hfirst

theorem terms_next (h : Precedes stride stop start) :
    terms start stop stride = start :: terms (start + stride) stop stride := by
  apply List.ext_getElem?
  intro k
  cases k with
  | zero =>
    rw [getElem?_terms]
    simp [h]
  | succ k =>
    have hterm : start + (k + 1 : Nat) * stride = start + stride + k * stride := by
      rw [Int.natCast_succ, Int.add_mul, Int.one_mul]
      omega
    rw [getElem?_terms, List.getElem?_cons_succ, getElem?_terms, hterm]

end Progression

namespace Slice
open Progression
variable {stride stop i : Int64} {len : Nat}

def range (s : Slice) (len : Int) : List Int := terms (s.startPlace len) (s.stopPlace len) s.stride.toInt

theorem goes_iff : Goes stride stop i ↔ Precedes stride.toInt stop.toInt i.toInt := by
  unfold Goes Precedes
  simp only [GT.gt, Int64.lt_iff_toInt_lt, Int64.toInt_zero]

/-- A sum that does not fit is behind every place. -/
theorem not_precedes_of_checkedAdd (hn : checkedAdd i stride = none) :
    ¬Precedes stride.toInt stop.toInt (i.toInt + stride.toInt) := by
  have hfit : ¬(-2 ^ 63 ≤ i.toInt + stride.toInt ∧ i.toInt + stride.toInt < 2 ^ 63) := by
    rintro ⟨hlow, hhigh⟩
    rw [checkedAdd_eq hlow hhigh] at hn
    cases hn
  have hi := Int64.le_toInt i
  have hi' := Int64.toInt_lt i
  have hstop := Int64.le_toInt stop
  have hstop' := Int64.toInt_lt stop
  unfold Precedes
  omega

/-- Going up from inside a sequence, or down to its front, a walk is at no negative place. -/
theorem Takes.eq_terms {places : List Nat} (h : Takes stride stop i places) (hup : 0 < stride → 0 ≤ i.toInt)
    (hdown : stride < 0 → -1 ≤ stop.toInt) : places.map Int.ofNat = terms i.toInt stop.toInt stride.toInt := by
  have hplace : ∀ {i}, Goes stride stop i → (0 < stride → 0 ≤ i.toInt) → Int.ofNat i.toNatClampNeg = i.toInt := by
    intro i hgo hup
    have hi : 0 ≤ i.toInt := by
      rcases hgo with ⟨hpos, _⟩ | ⟨hneg, hgt⟩
      · exact hup hpos
      · have := hdown hneg
        have := Int64.lt_iff_toInt_lt.1 hgt
        omega
    rw [← Int64.toNat_toInt, Int.ofNat_eq_natCast, Int.toNat_of_nonneg hi]
  induction h with
  | done hstop => rw [terms_done fun h => hstop (goes_iff.2 h), List.map_nil]
  | last hgo hn =>
    rw [terms_next (goes_iff.1 hgo), terms_done (not_precedes_of_checkedAdd hn), List.map_singleton, hplace hgo hup]
  | @next i j places hgo hn _ ih =>
    have hsum := toInt_of_checkedAdd hn
    have hrest : 0 < stride → 0 ≤ j.toInt := by
      intro hpos
      have hstride : 0 < stride.toInt := Int64.lt_iff_toInt_lt.1 hpos
      have hi := hup hpos
      omega
    rw [terms_next (goes_iff.1 hgo), List.map_cons, hplace hgo hup, ih hrest, hsum]

def checkedSub (a b : Int64) : Option Int64 := Integer.fit? (a.toInt - b.toInt)

def checkedLimits (stride len : Int64) : Option (Int64 × Int64) :=
  if stride > 0 then some (0, len) else (checkedSub len 1).map fun top => (-1, top)

def checkedClamp (limits : Int64 × Int64) (len bound : Int64) : Option Int64 :=
  if bound < 0 then (checkedAdd bound len).map fun sum => max sum limits.1 else some (min bound limits.2)

def checkedPlace (limits : Int64 × Int64) (len missing : Int64) : Option Int64 → Option Int64
  | none => some missing
  | some bound => checkedClamp limits len bound

def checkedEnds (s : Slice) (len : Nat) : Option (Int64 × Int64) := do
  let n ← Integer.fit? len
  let lim ← checkedLimits s.stride n
  let start ← checkedPlace lim n (if 0 < s.stride then lim.1 else lim.2) s.start
  let stop ← checkedPlace lim n (if 0 < s.stride then lim.2 else lim.1) s.stop
  return (start, stop)

theorem fit_length (hlen : len < 2 ^ 63) : Integer.fit? len = some (Int64.ofNat len) := by
  have hmin : Int64.minValue.toInt = -2 ^ 63 := by decide
  have hmax := Int64.toInt_maxValue
  rw [Integer.fit?, if_pos (by omega)]
  rfl

theorem checkedLimits_eq {n : Int64} (hn : 0 ≤ n) (stride : Int64) : checkedLimits stride n = some (limits stride n) := by
  have hmin : Int64.minValue.toInt = -2 ^ 63 := by decide
  have hmax := Int64.toInt_maxValue
  have hone : (1 : Int64).toInt = 1 := by decide
  have hlow : 0 ≤ n.toInt := Int64.le_iff_toInt_le.1 hn
  have hhigh := Int64.toInt_lt n
  have hsub : checkedSub n 1 = some (n - 1) := by
    rw [checkedSub, Integer.fit?, if_pos (by omega), Int64.ofInt_sub, Int64.ofInt_toInt, Int64.ofInt_toInt]
  unfold checkedLimits limits
  rw [hsub]
  split <;> rfl

theorem checkedPlace_eq {n : Int64} (hn : 0 ≤ n) (lim : Int64 × Int64) (missing : Int64) (bound : Option Int64) :
    checkedPlace lim n missing bound = some ((bound.map (clamp lim n)).getD missing) := by
  cases bound with
  | none => rfl
  | some bound =>
    simp only [checkedPlace, checkedClamp, clamp, Option.map_some, Option.getD_some]
    split
    · next hneg => rw [checkedAdd_bound hn hneg, Option.map_some]
    · rfl

theorem checkedEnds_eq (s : Slice) (hlen : len < 2 ^ 63) : s.checkedEnds len = some (s.first len, s.last len) := by
  have hn := (toInt_length hlen).2
  simp only [checkedEnds, fit_length hlen, checkedLimits_eq hn, checkedPlace_eq hn, Option.bind_eq_bind, Option.bind_some,
    first, last]
  rfl

/-- A slice takes the terms of its range. Nothing overflows on the way to the bounds, the walk between them comes to an end,
and what it takes is inside the sequence. -/
theorem indices_eq_range (s : Slice) (hlen : len < 2 ^ 63) :
    s.checkedEnds len = some (s.first len, s.last len) ∧
      (∀ places, Takes s.stride (s.last len) (s.first len) places ↔ places = s.indices len) ∧
      (∀ i ∈ s.indices len, i < len) ∧ (s.indices len).map Int.ofNat = s.range len := by
  have htakes := (s.takes_iff_indices hlen).2 rfl
  refine ⟨s.checkedEnds_eq hlen, fun places => s.takes_iff_indices hlen, s.indices_lt len, ?_⟩
  rw [range, ← toInt_first s hlen, ← toInt_last s hlen]
  apply htakes.eq_terms
  · exact fun hup => (s.between_up hlen hup).1
  · exact fun hdown => (s.between_down hlen (Int64.not_lt.2 (Int64.le_of_lt hdown))).2

/-- From the last but one item of three, by the largest stride there is: the sum with it does not fit. -/
theorem indices_eq_range_largest : let s : Slice := ⟨some (-2), some Int64.maxValue, Int64.maxValue⟩
    3 < 2 ^ 63 ∧ (s.checkedEnds 3 = some (s.first 3, s.last 3) ∧ s.first 3 = 1 ∧ s.last 3 = 3 ∧ checkedAdd 1 s.stride = none) ∧
      Takes s.stride 3 1 [1] ∧ s.indices 3 = [1] ∧ (∀ i ∈ [1], i < 3) ∧ s.range 3 = [1] := by
  let s : Slice := ⟨some (-2), some Int64.maxValue, Int64.maxValue⟩
  have hlen : 3 < 2 ^ 63 := by decide
  have hplaces : s.indices 3 = [1] := by decide +kernel
  have hends : s.first 3 = 1 ∧ s.last 3 = 3 ∧ checkedAdd 1 s.stride = none := by decide +kernel
  obtain ⟨hchecked, htakes, hinside, hrange⟩ := s.indices_eq_range hlen
  have hwalk := (htakes [1]).2 hplaces.symm
  rw [hends.1, hends.2.1] at hwalk
  rw [hplaces] at hinside hrange
  exact ⟨hlen, ⟨hchecked, hends⟩, hwalk, hplaces, hinside, hrange.symm⟩

end Slice
end YamlQuery.Path
