import Mathlib.Data.List.Lattice
import Mathlib.Data.List.Perm.Subperm
import Mathlib.Logic.Relation
/-!
Chains of links between the places of an arena: where no cycle can be reached, a chain has no more links than there are
places.
-/
namespace YamlQuery
open Relation

def Within {α : Type} (r : α → α → Prop) : Nat → α → Prop
  | 0, a => ∀ b, ¬r a b
  | n + 1, a => ∀ b, r a b → Within r n b

theorem Within.next {α : Type} {r : α → α → Prop} {n : Nat} {a b : α} (h : Within r n a) (hb : r a b) :
    ∃ m, m < n ∧ Within r m b := by
  cases n with
  | zero => exact absurd hb (h b)
  | succ n => exact ⟨n, Nat.lt_succ_self n, h b hb⟩

/-- Where chains are bounded, what a place takes over from those it links to holds of all. -/
theorem Within.induction {α : Type} {r : α → α → Prop} {P : α → Prop} (step : ∀ a, (∀ b, r a b → P b) → P a) {n : Nat}
    {a : α} (h : Within r n a) : P a := by
  induction n generalizing a with
  | zero => exact step a fun b hb => absurd hb (h b)
  | succ n ih => exact step a fun b hb => ih (h b hb)

variable {r : Nat → Nat → Prop} {size a : Nat}

/-- The links of a chain with the places in `trail` behind it lead to places that are not among them. -/
theorem within_of_trail (hsize : ∀ a b, r a b → a < size) {n : Nat} {trail : List Nat} (hnodup : trail.Nodup)
    (htrail : ∀ t ∈ trail, t < size ∧ TransGen r t a) (hlen : size ≤ n + trail.length)
    (hacyclic : ∀ b, ReflTransGen r a b → ¬TransGen r b b) : Within r n a := by
  induction n generalizing a trail with
  | zero =>
    intro b hb
    have hnew : a ∉ trail := fun ha => hacyclic a .refl (htrail a ha).2
    have hsub : a :: trail ⊆ List.range size := by
      intro t ht
      rw [List.mem_range]
      rcases List.mem_cons.1 ht with rfl | ht
      · exact hsize t b hb
      · exact (htrail t ht).1
    -- with `a` the trail has more places than the arena
    have hle := (List.subperm_of_subset (List.nodup_cons.2 ⟨hnew, hnodup⟩) hsub).length_le
    rw [List.length_cons, List.length_range] at hle
    omega
  | succ n ih =>
    intro b hb
    have hnew : a ∉ trail := fun ha => hacyclic a .refl (htrail a ha).2
    have hnext : ∀ t ∈ a :: trail, t < size ∧ TransGen r t b := by
      intro t ht
      rcases List.mem_cons.1 ht with rfl | ht
      · exact ⟨hsize t b hb, .single hb⟩
      · exact ⟨(htrail t ht).1, (htrail t ht).2.tail hb⟩
    exact ih (List.nodup_cons.2 ⟨hnew, hnodup⟩) hnext (by rw [List.length_cons]; omega) fun c hc => hacyclic c (hc.head hb)

theorem within_of_acyclic (hsize : ∀ a b, r a b → a < size) (hacyclic : ∀ b, ReflTransGen r a b → ¬TransGen r b b) :
    Within r size a :=
  within_of_trail hsize .nil (by simp) (Nat.le_refl _) hacyclic

end YamlQuery
