import Mathlib.Algebra.Order.Ring.Int
import YamlQuery.Path.Slice
/-!
The places that a slice selects. The walk from the first place to the last one comes to an end after at most as many steps
as the sequence is long, and every place on it is inside the sequence.
-/
namespace YamlQuery.Path

theorem toInt_of_checkedAdd {a b c : Int64} (h : checkedAdd a b = some c) : c.toInt = a.toInt + b.toInt := by
  unfold checkedAdd Integer.fit? at h
  split at h
  · next hfit =>
    cases h
    have hmin : Int64.minValue.toInt = -2 ^ 63 := by decide
    have hmax := Int64.toInt_maxValue
    exact Int64.toInt_ofInt_of_le (by omega) (by omega)
  · simp at h

namespace Slice

def Goes (stride stop i : Int64) : Prop := (stride > 0 ∧ i < stop) ∨ (stride < 0 ∧ i > stop)

inductive Takes (stride stop : Int64) : Int64 → List Nat → Prop
  | done {i : Int64} (h : ¬Goes stride stop i) : Takes stride stop i []
  | last {i : Int64} (h : Goes stride stop i) (hn : checkedAdd i stride = none) : Takes stride stop i [i.toNatClampNeg]
  | next {i j : Int64} {places : List Nat} (h : Goes stride stop i) (hn : checkedAdd i stride = some j)
    (ht : Takes stride stop j places) : Takes stride stop i (i.toNatClampNeg :: places)

def first (s : Slice) (len : Nat) : Int64 :=
  let lim := limits s.stride (Int64.ofNat len)
  (s.start.map (clamp lim (Int64.ofNat len))).getD (if 0 < s.stride then lim.1 else lim.2)

def last (s : Slice) (len : Nat) : Int64 :=
  let lim := limits s.stride (Int64.ofNat len)
  (s.stop.map (clamp lim (Int64.ofNat len))).getD (if 0 < s.stride then lim.2 else lim.1)

theorem indices_eq_walk (s : Slice) (len : Nat) : s.indices len = walk s.stride (s.last len) len (s.first len) := by
  simp [indices, first, last]

variable {stride stop i j : Int64} {fuel len : Nat}

theorem walk_goes (h : Goes stride stop i) :
    walk stride stop (fuel + 1) i = i.toNatClampNeg :: match checkedAdd i stride with
      | some next => walk stride stop fuel next
      | none => [] := if_pos h

theorem walk_done (h : ¬Goes stride stop i) : walk stride stop fuel i = [] := by
  cases fuel with
  | zero => rfl
  | succ fuel => exact if_neg h

def distance (stride stop i : Int64) : Nat :=
  if 0 < stride then (stop.toInt - i.toInt).toNat else (i.toInt - stop.toInt).toNat

theorem distance_pos (h : Goes stride stop i) : 0 < distance stride stop i := by
  unfold distance
  rcases h with ⟨hpos, hlt⟩ | ⟨hneg, hgt⟩
  · have := Int64.lt_iff_toInt_lt.1 hlt
    rw [if_pos hpos]
    omega
  · have := Int64.lt_iff_toInt_lt.1 hgt
    rw [if_neg (Int64.not_lt.2 (Int64.le_of_lt hneg))]
    omega

theorem distance_lt (h : Goes stride stop i) (hn : checkedAdd i stride = some j) :
    distance stride stop j < distance stride stop i := by
  have hgo := distance_pos h
  have hsum := toInt_of_checkedAdd hn
  unfold distance at hgo ⊢
  rcases h with ⟨hpos, _⟩ | ⟨hneg, _⟩
  · have hstride : 0 < stride.toInt := Int64.lt_iff_toInt_lt.1 hpos
    simp only [if_pos (show 0 < stride from hpos)] at hgo ⊢
    omega
  · have hstride : stride.toInt < 0 := Int64.lt_iff_toInt_lt.1 hneg
    simp only [if_neg (Int64.not_lt.2 (Int64.le_of_lt hneg))] at hgo ⊢
    omega

theorem Takes.eq_walk {places : List Nat} (h : Takes stride stop i places) (hd : distance stride stop i ≤ fuel) :
    places = walk stride stop fuel i := by
  induction h generalizing fuel with
  | done h => exact (walk_done h).symm
  | last h hn =>
    have := distance_pos h
    obtain ⟨n, rfl⟩ : ∃ n, fuel = n + 1 := ⟨fuel - 1, by omega⟩
    rw [walk_goes h, hn]
  | next h hn _ ih =>
    have := distance_lt h hn
    obtain ⟨n, rfl⟩ : ∃ n, fuel = n + 1 := ⟨fuel - 1, by omega⟩
    have hrest := @ih n (by omega)
    rw [walk_goes h, hn, hrest]

theorem takes_walk (hd : distance stride stop i ≤ fuel) : Takes stride stop i (walk stride stop fuel i) := by
  induction fuel generalizing i with
  | zero =>
    have hstop : ¬Goes stride stop i := fun h => by
      have := distance_pos h
      omega
    exact .done hstop
  | succ fuel ih =>
    by_cases h : Goes stride stop i
    · rw [walk_goes h]
      cases hn : checkedAdd i stride with
      | none => exact .last h hn
      | some j =>
        have := distance_lt h hn
        exact .next h hn (ih (by omega))
    · rw [walk_done h]
      exact .done h

/-- Going up a walk ends before `stop`, and going down it starts inside. -/
theorem Takes.lt {places : List Nat} (h : Takes stride stop i places) (hlen : 0 < len)
    (hup : 0 < stride → stop.toInt ≤ len) (hdown : stride < 0 → i.toInt < len) : ∀ x ∈ places, x < len := by
  have hinside : ∀ {i}, Goes stride stop i → (stride < 0 → i.toInt < len) → i.toNatClampNeg < len := by
    intro i hgo hdown
    have hi : i.toInt < len := by
      rcases hgo with ⟨hpos, hlt⟩ | ⟨hneg, _⟩
      · exact Int.lt_of_lt_of_le (Int64.lt_iff_toInt_lt.1 hlt) (hup hpos)
      · exact hdown hneg
    rw [← Int64.toNat_toInt]
    omega
  induction h with
  | done => simp
  | last hgo => simpa using hinside hgo hdown
  | @next i j places hgo hn _ ih =>
    have hrest : stride < 0 → j.toInt < len := by
      intro hneg
      have hsum := toInt_of_checkedAdd hn
      have hstride : stride.toInt < 0 := Int64.lt_iff_toInt_lt.1 hneg
      have hi := hdown hneg
      omega
    intro x hx
    rcases List.mem_cons.1 hx with rfl | hx
    · exact hinside hgo hdown
    · exact ih hrest x hx

/-- A bound as a place, over unbounded integers: counted from the end when negative, and kept between `lo` and `hi`. One that
is missing stands for `missing`. -/
def place (lo hi len missing : Int) : Option Int64 → Int
  | none => missing
  | some bound => max lo (min hi (if bound.toInt < 0 then bound.toInt + len else bound.toInt))

def placeOf (stride : Int64) (len up down : Int) (bound : Option Int64) : Int :=
  if 0 < stride then place 0 len len up bound else place (-1) (len - 1) len down bound

def startPlace (s : Slice) (len : Int) : Int := placeOf s.stride len 0 (len - 1) s.start

def stopPlace (s : Slice) (len : Int) : Int := placeOf s.stride len len (-1) s.stop

theorem toInt_max (a b : Int64) : (max a b).toInt = max a.toInt b.toInt := by
  change (if a ≤ b then b else a).toInt = max a.toInt b.toInt
  split
  · next hle => rw [Int.max_eq_right (Int64.le_iff_toInt_le.1 hle)]
  · next hgt => rw [Int.max_eq_left (Int64.le_iff_toInt_le.1 (Int64.le_of_lt (Int64.not_le.1 hgt)))]

theorem toInt_min (a b : Int64) : (min a b).toInt = min a.toInt b.toInt := by
  change (if a ≤ b then a else b).toInt = min a.toInt b.toInt
  split
  · next hle => rw [Int.min_eq_left (Int64.le_iff_toInt_le.1 hle)]
  · next hgt => rw [Int.min_eq_right (Int64.le_iff_toInt_le.1 (Int64.le_of_lt (Int64.not_le.1 hgt)))]

theorem checkedAdd_eq {a b : Int64} (hlow : -2 ^ 63 ≤ a.toInt + b.toInt) (hhigh : a.toInt + b.toInt < 2 ^ 63) :
    checkedAdd a b = some (a + b) := by
  have hmin : Int64.minValue.toInt = -2 ^ 63 := by decide
  have hmax := Int64.toInt_maxValue
  rw [checkedAdd, Integer.fit?, if_pos (by omega), Int64.ofInt_add, Int64.ofInt_toInt, Int64.ofInt_toInt]

/-- A negative bound and a length have a sum. -/
theorem checkedAdd_bound {n bound : Int64} (hn : 0 ≤ n) (hneg : bound < 0) : checkedAdd bound n = some (bound + n) := by
  have hlow := Int64.le_toInt bound
  have hhigh := Int64.toInt_lt n
  have hn0 : 0 ≤ n.toInt := Int64.le_iff_toInt_le.1 hn
  have hbound : bound.toInt < 0 := Int64.lt_iff_toInt_lt.1 hneg
  exact checkedAdd_eq (by omega) (by omega)

theorem toInt_clamp {n lo hi : Int64} (hn : 0 ≤ n) (hlo : lo ≤ 0) (hle : lo ≤ hi) (hhi : n.toInt - 1 ≤ hi.toInt)
    (bound : Int64) : (clamp (lo, hi) n bound).toInt =
      max lo.toInt (min hi.toInt (if bound.toInt < 0 then bound.toInt + n.toInt else bound.toInt)) := by
  have hlo0 : lo.toInt ≤ 0 := Int64.le_iff_toInt_le.1 hlo
  have hlohi : lo.toInt ≤ hi.toInt := Int64.le_iff_toInt_le.1 hle
  unfold clamp
  split
  · next hneg =>
    have hsum : (bound + n).toInt = bound.toInt + n.toInt := toInt_of_checkedAdd (checkedAdd_bound hn hneg)
    have hbound : bound.toInt < 0 := Int64.lt_iff_toInt_lt.1 hneg
    rw [if_pos hbound, toInt_max, hsum]
    dsimp only
    omega
  · next hpos =>
    have hbound : 0 ≤ bound.toInt := Int64.le_iff_toInt_le.1 (Int64.not_lt.1 hpos)
    rw [if_neg (Int.not_lt.2 hbound), toInt_min]
    dsimp only
    omega

theorem toInt_place {n lo hi : Int64} (hn : 0 ≤ n) (hlo : lo ≤ 0) (hle : lo ≤ hi) (hhi : n.toInt - 1 ≤ hi.toInt)
    (bound : Option Int64) (missing : Int64) :
    ((bound.map (clamp (lo, hi) n)).getD missing).toInt = place lo.toInt hi.toInt n.toInt missing.toInt bound := by
  cases bound with
  | none => rfl
  | some bound => exact toInt_clamp hn hlo hle hhi bound

theorem toInt_length (hlen : len < 2 ^ 63) : (Int64.ofNat len).toInt = len ∧ 0 ≤ Int64.ofNat len := by
  have hn : (Int64.ofNat len).toInt = len := Int64.toInt_ofNat_of_lt hlen
  exact ⟨hn, Int64.le_iff_toInt_le.2 (by rw [hn]; exact Int.natCast_nonneg len)⟩

theorem toInt_pred {n : Int64} (hn : 0 ≤ n) : (n - 1).toInt = n.toInt - 1 := by
  have hlow : 0 ≤ n.toInt := Int64.le_iff_toInt_le.1 hn
  have hhigh := Int64.toInt_lt n
  rw [Int64.toInt_sub, Int.bmod_eq_of_le] <;> simp <;> omega

/-- Within the limits of either direction a bound is at its place. -/
theorem toInt_placeOf (s : Slice) (hlen : len < 2 ^ 63) (bound : Option Int64) (up down : Int64) :
    ((bound.map (clamp (limits s.stride (Int64.ofNat len)) (Int64.ofNat len))).getD
      (if 0 < s.stride then up else down)).toInt = placeOf s.stride len up.toInt down.toInt bound := by
  obtain ⟨hn, hn0⟩ := toInt_length hlen
  by_cases hup : 0 < s.stride
  · have hplace := toInt_place hn0 (Int64.le_refl 0) hn0 (by omega) bound up
    simpa [limits, placeOf, hup, hn] using hplace
  · have hone : (-1 : Int64).toInt = -1 := by decide
    have htop : (Int64.ofNat len - 1).toInt = len - 1 := by rw [toInt_pred hn0, hn]
    have hle : -1 ≤ Int64.ofNat len - 1 := Int64.le_iff_toInt_le.2 (by omega)
    have hplace := toInt_place hn0 (by decide : (-1 : Int64) ≤ 0) hle (by omega) bound down
    rw [hone, htop, hn] at hplace
    simpa [limits, placeOf, hup] using hplace

theorem first_eq (s : Slice) (len : Nat) : s.first len =
    (s.start.map (clamp (limits s.stride (Int64.ofNat len)) (Int64.ofNat len))).getD
      (if 0 < s.stride then 0 else Int64.ofNat len - 1) := by
  by_cases hup : 0 < s.stride <;> simp [first, limits, hup]

theorem last_eq (s : Slice) (len : Nat) : s.last len =
    (s.stop.map (clamp (limits s.stride (Int64.ofNat len)) (Int64.ofNat len))).getD
      (if 0 < s.stride then Int64.ofNat len else -1) := by
  by_cases hup : 0 < s.stride <;> simp [last, limits, hup]

theorem toInt_first (s : Slice) (hlen : len < 2 ^ 63) : (s.first len).toInt = s.startPlace len := by
  obtain ⟨hn, hn0⟩ := toInt_length hlen
  rw [first_eq, toInt_placeOf s hlen, toInt_pred hn0, hn, startPlace, Int64.toInt_zero]

theorem toInt_last (s : Slice) (hlen : len < 2 ^ 63) : (s.last len).toInt = s.stopPlace len := by
  have hone : (-1 : Int64).toInt = -1 := by decide
  rw [last_eq, toInt_placeOf s hlen, (toInt_length hlen).1, hone, stopPlace]

theorem place_between {lo hi len missing : Int} (hle : lo ≤ hi) (hmissing : lo ≤ missing ∧ missing ≤ hi)
    (bound : Option Int64) : lo ≤ place lo hi len missing bound ∧ place lo hi len missing bound ≤ hi := by
  cases bound with
  | none => exact hmissing
  | some bound =>
    dsimp only [place]
    omega

theorem between_up (s : Slice) (hlen : len < 2 ^ 63) (hup : 0 < s.stride) :
    0 ≤ (s.first len).toInt ∧ (s.last len).toInt ≤ len := by
  rw [toInt_first s hlen, toInt_last s hlen, startPlace, stopPlace, placeOf, placeOf, if_pos hup, if_pos hup]
  constructor
  · exact (place_between (by omega) (by omega) s.start).1
  · exact (place_between (by omega) (by omega) s.stop).2

theorem between_down (s : Slice) (hlen : len < 2 ^ 63) (hdown : ¬0 < s.stride) :
    (s.first len).toInt < len ∧ -1 ≤ (s.last len).toInt := by
  rw [toInt_first s hlen, toInt_last s hlen, startPlace, stopPlace, placeOf, placeOf, if_neg hdown, if_neg hdown]
  constructor
  · exact Int.lt_of_le_sub_one (place_between (by omega) (by omega) s.start).2
  · exact (place_between (by omega) (by omega) s.stop).1

/-- The places of a slice are those of a walk that comes to an end. -/
theorem takes_iff_indices (s : Slice) (hlen : len < 2 ^ 63) {places : List Nat} :
    Takes s.stride (s.last len) (s.first len) places ↔ places = s.indices len := by
  have hd : distance s.stride (s.last len) (s.first len) ≤ len := by
    unfold distance
    split
    · next hup =>
      have := s.between_up hlen hup
      omega
    · next hdown =>
      have := s.between_down hlen hdown
      omega
  rw [indices_eq_walk]
  constructor
  · intro h
    exact h.eq_walk hd
  · rintro rfl
    exact takes_walk hd

theorem walk_lt_of_le (hlen : 2 ^ 63 ≤ len) : ∀ x ∈ walk stride stop fuel i, x < len := by
  induction fuel generalizing i with
  | zero => simp [walk]
  | succ fuel ih =>
    by_cases h : Goes stride stop i
    · have hhere : i.toNatClampNeg < len := by
        have := Int64.toInt_lt i
        rw [← Int64.toNat_toInt]
        omega
      rw [walk_goes h]
      cases checkedAdd i stride with
      | none => simpa using hhere
      | some j => exact List.forall_mem_cons.2 ⟨hhere, ih⟩
    · simp [walk_done h]

theorem indices_lt (s : Slice) (len : Nat) : ∀ i ∈ s.indices len, i < len := by
  -- the length of a longer sequence does not fit in 64 bits, and the limits say nothing about it
  by_cases hlong : 2 ^ 63 ≤ len
  · rw [indices_eq_walk]
    exact walk_lt_of_le hlong
  have hlen : len < 2 ^ 63 := Nat.lt_of_not_le hlong
  rcases Nat.eq_zero_or_pos len with rfl | hpos
  · simp [indices, walk]
  · exact ((takes_iff_indices s hlen).2 rfl).lt hpos (fun hup => (s.between_up hlen hup).2)
      fun hdown => (s.between_down hlen (Int64.not_lt.2 (Int64.le_of_lt hdown))).1

end Slice
end YamlQuery.Path
