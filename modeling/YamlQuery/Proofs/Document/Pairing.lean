import Mathlib.Data.Fintype.EquivFin
import YamlQuery.Proofs.Document.Preorder
/-!
Structural comparison of mappings without tags. The number of pairs and a counterpart for every pair of the second mapping are
all it looks at. Where that mapping has no two equal pairs this matches the pairs one to one, and then comparison is symmetric;
where it has, it may be equal to a mapping with pairs that it lacks.
-/
namespace YamlQuery
open Relation

/-- Places of two lists of the same length match one to one, if every place of the second has a match in the first and no
two of them share one. -/
theorem exists_matching {α β : Type} {R : α → β → Prop} {ps : List α} {qs : List β} (hlen : ps.length = qs.length)
    (hall : ∀ q ∈ qs, ∃ p ∈ ps, R p q) (hone : qs.Pairwise fun q r => ∀ p ∈ ps, R p q → ¬R p r) :
    ∃ σ : Fin ps.length ≃ Fin qs.length, ∀ i, R (ps.get i) (qs.get (σ i)) := by
  have hplace : ∀ j, ∃ i, R (ps.get i) (qs.get j) := by
    intro j
    obtain ⟨p, hp, hpq⟩ := hall (qs.get j) (List.get_mem qs j)
    obtain ⟨i, rfl⟩ := List.get_of_mem hp
    exact ⟨i, hpq⟩
  choose f hf using hplace
  have hne : ∀ j k, j < k → f j ≠ f k := by
    intro j k hjk he
    have hk := hf k
    rw [← he] at hk
    exact List.pairwise_iff_get.1 hone j k hjk _ (List.get_mem ps (f j)) (hf j) hk
  have hinj : Function.Injective f := by
    intro j k he
    rcases lt_trichotomy j k with hlt | rfl | hgt
    · exact absurd he (hne j k hlt)
    · rfl
    · exact absurd he.symm (hne k j hgt)
  have hbij : Function.Bijective f := (Fintype.bijective_iff_injective_and_card f).2 ⟨hinj, by simp [hlen]⟩
  refine ⟨(Equiv.ofBijective f hbij).symm, ?_⟩
  intro i
  have hmatch := hf ((Equiv.ofBijective f hbij).symm i)
  rwa [Equiv.ofBijective_apply_symm_apply f hbij i] at hmatch

namespace Content
variable {R S : NodeId → NodeId → Prop} {c c' : Content} {ps qs : List (NodeId × NodeId)}

theorem agrees_mapping : Agrees R (.mapping ps) (.mapping qs) ↔
    ps.length = qs.length ∧ ∀ q ∈ qs, ∃ p ∈ ps, R p.1 q.1 ∧ R p.2 q.2 := by
  constructor
  · intro h
    cases h with
    | mapping hlen h => exact ⟨hlen, h⟩
  · exact fun h => .mapping h.1 h.2

/-- The sides change places if every pair of the first mapping has a counterpart too. -/
theorem Agrees.flip (h : Agrees R c c') (hback : ∀ p ∈ c.members, ∀ q ∈ c'.members, R p q → S q p)
    (hall : ∀ ps qs, c = .mapping ps → c' = .mapping qs → ∀ p ∈ ps, ∃ q ∈ qs, R p.1 q.1 ∧ R p.2 q.2) : Agrees S c' c := by
  have hsides : Agrees (fun p q => S q p) c c' := h.mono hback
  cases hsides with
  | scalar => exact .scalar
  | reference => exact .reference
  | sequence hs => exact .sequence hs.flip
  | mapping hlen =>
    refine .mapping hlen.symm ?_
    intro p hp
    obtain ⟨q, hq, hkey, hvalue⟩ := hall _ _ rfl rfl p hp
    have hpm := pair_mem_members hp
    have hqm := pair_mem_members hq
    exact ⟨q, hq, hback p.1 hpm.1 q.1 hqm.1 hkey, hback p.2 hpm.2 q.2 hqm.2 hvalue⟩

end Content

namespace Document
variable {a b : Document} {x y : NodeId}

def SamePair (a : Document) (p : NodeId × NodeId) (b : Document) (q : NodeId × NodeId) : Prop :=
  a.nodesEqual p.1 b q.1 = true ∧ a.nodesEqual p.2 b q.2 = true

instance (a : Document) (p : NodeId × NodeId) (b : Document) (q : NodeId × NodeId) : Decidable (a.SamePair p b q) :=
  inferInstanceAs (Decidable (_ ∧ _))

def Tagless (d : Document) (x : NodeId) : Prop := ∀ z, ReflTransGen d.Holds x z → d.tag? z = none

def Unrepeated (d : Document) (x : NodeId) : Prop :=
  ∀ z, ReflTransGen d.Holds x z → ∀ pairs, d.pairs? z = some pairs → pairs.Pairwise fun p q => ¬d.SamePair p d q

theorem Tagless.below {p : NodeId} (h : a.Tagless x) (hp : a.Holds x p) : a.Tagless p :=
  fun z hz => h z (hz.head hp)

theorem Unrepeated.below {p : NodeId} (h : a.Unrepeated x) (hp : a.Holds x p) : a.Unrepeated p :=
  fun z hz => h z (hz.head hp)

theorem Tagless.tag {m : Node} (h : a.Tagless x) (hm : a.node? x = some m) : m.tag = none := by
  simpa [tag?, hm] using h x .refl

theorem Unrepeated.pairwise {n : Node} {qs : List (NodeId × NodeId)} (h : b.Unrepeated y) (hn : b.node? y = some n)
    (hc : n.content = .mapping qs) : qs.Pairwise fun p q => ¬b.SamePair p b q :=
  h y .refl qs (by simp [pairs?, content?, hn, hc])

theorem Tagless.of_all (h : ∀ z < a.size, a.tag? z = none) : a.Tagless x := by
  intro z _
  by_cases hz : z < a.size
  · exact h z hz
  · simp [tag?, node?_none (Nat.le_of_not_lt hz)]

theorem Unrepeated.of_all (h : ∀ z < a.size, ((a.pairs? z).getD []).Pairwise fun p q => ¬a.SamePair p a q) :
    a.Unrepeated x := by
  intro z _ pairs hpairs
  by_cases hz : z < a.size
  · simpa [hpairs] using h z hz
  · simp [pairs?, content?, node?_none (Nat.le_of_not_lt hz)] at hpairs

variable {ps qs : List (NodeId × NodeId)}

theorem pairs?_eq_some {m : Node} (hm : a.node? x = some m) : a.pairs? x = some ps ↔ m.content = .mapping ps := by
  simp only [pairs?, content?, hm, Option.map_some]
  cases m.content <;> simp

theorem SamePair.trans (ha : a.Intact) (hb : b.Intact) {c : Document} {p q r : NodeId × NodeId} (h : a.SamePair p b q)
    (h' : b.SamePair q c r) : a.SamePair p c r :=
  ⟨ha.nodesEqual_trans hb h.1 h'.1, ha.nodesEqual_trans hb h.2 h'.2⟩

theorem samePair_back (h : ∀ p ∈ (Content.mapping ps).members, ∀ q ∈ (Content.mapping qs).members,
    a.nodesEqual p b q = true → b.nodesEqual q a p = true) : ∀ p ∈ ps, ∀ q ∈ qs, a.SamePair p b q → b.SamePair q a p := by
  intro p hp q hq hpq
  have hpm := Content.pair_mem_members hp
  have hqm := Content.pair_mem_members hq
  exact ⟨h p.1 hpm.1 q.1 hqm.1 hpq.1, h p.2 hpm.2 q.2 hqm.2 hpq.2⟩

/-- Two pairs of the second mapping with the same counterpart are equal to each other. -/
theorem exists_pairing (ha : a.Intact) (hb : b.Intact) (hlen : ps.length = qs.length)
    (hall : ∀ q ∈ qs, ∃ p ∈ ps, a.SamePair p b q) (hback : ∀ p ∈ ps, ∀ q ∈ qs, a.SamePair p b q → b.SamePair q a p)
    (hone : qs.Pairwise fun p q => ¬b.SamePair p b q) :
    ∃ σ : Fin ps.length ≃ Fin qs.length, ∀ i, a.SamePair (ps.get i) b (qs.get (σ i)) := by
  apply exists_matching hlen hall
  apply hone.imp_of_mem
  intro q r hq hr hne p hp hpq hpr
  exact hne ((hback p hp q hq hpq).trans hb ha hpr)

theorem nodesEqual_of_pairing (ha : a.Intact) (hy : b.tag? y = none) (hps : a.pairs? x = some ps) (hqs : b.pairs? y = some qs)
    (σ : Fin ps.length ≃ Fin qs.length) (h : ∀ i, a.SamePair (ps.get i) b (qs.get (σ i))) : a.nodesEqual x b y = true := by
  obtain ⟨m, hm⟩ : ∃ m, a.node? x = some m := by
    cases hm : a.node? x with
    | none => simp [pairs?, content?, hm] at hps
    | some m => exact ⟨m, rfl⟩
  obtain ⟨n, hn⟩ : ∃ n, b.node? y = some n := by
    cases hn : b.node? y with
    | none => simp [pairs?, content?, hn] at hqs
    | some n => exact ⟨n, rfl⟩
  have htag : n.tag = none := by simpa [tag?, hn] using hy
  refine ha.nodesEqual_iff.2 ⟨m, n, hm, hn, .inl htag, ?_⟩
  rw [(pairs?_eq_some hm).1 hps, (pairs?_eq_some hn).1 hqs]
  refine .mapping (Fin.equiv_iff_eq.1 ⟨σ⟩) ?_
  intro q hq
  obtain ⟨j, rfl⟩ := List.get_of_mem hq
  have hpair := h (σ.symm j)
  rw [σ.apply_symm_apply] at hpair
  exact ⟨_, List.get_mem ps _, hpair⟩

/-- With a second side that has no two equal pairs, the sides may change places. -/
theorem nodesEqual_symm (ha : a.Intact) (hb : b.Intact) (hx : a.Tagless x) (hy : b.Unrepeated y)
    (h : a.nodesEqual x b y = true) : b.nodesEqual y a x = true := by
  induction x using ha.holds_induction generalizing y with
  | step x ih =>
    obtain ⟨m, n, hm, hn, _, hcontent⟩ := ha.nodesEqual_iff.1 h
    have hback : ∀ p ∈ m.content.members, ∀ q ∈ n.content.members, a.nodesEqual p b q = true → b.nodesEqual q a p = true := by
      intro p hp q hq
      have hholds := holds_of_node? hm hp
      exact ih p hholds (hx.below hholds) (hy.below (holds_of_node? hn hq))
    refine hb.nodesEqual_iff.2 ⟨n, m, hn, hm, .inl (hx.tag hm), hcontent.flip hback ?_⟩
    intro ps qs hps hqs p hp
    rw [hps, hqs] at hcontent hback
    obtain ⟨hlen, hall⟩ := Content.agrees_mapping.1 hcontent
    obtain ⟨σ, hσ⟩ := exists_pairing ha hb hlen hall (samePair_back hback) (hy.pairwise hn hqs)
    obtain ⟨i, rfl⟩ := List.get_of_mem hp
    exact ⟨_, List.get_mem qs _, hσ i⟩

theorem pairing_of_nodesEqual (ha : a.Intact) (hb : b.Intact) (hx : a.Tagless x) (hy : b.Unrepeated y)
    (hps : a.pairs? x = some ps) (hqs : b.pairs? y = some qs) (h : a.nodesEqual x b y = true) :
    ∃ σ : Fin ps.length ≃ Fin qs.length, ∀ i, a.SamePair (ps.get i) b (qs.get (σ i)) := by
  obtain ⟨m, n, hm, hn, _, hcontent⟩ := ha.nodesEqual_iff.1 h
  have hback : ∀ p ∈ m.content.members, ∀ q ∈ n.content.members, a.nodesEqual p b q = true → b.nodesEqual q a p = true :=
    fun p hp q hq => nodesEqual_symm ha hb (hx.below (holds_of_node? hm hp)) (hy.below (holds_of_node? hn hq))
  rw [(pairs?_eq_some hm).1 hps, (pairs?_eq_some hn).1 hqs] at hcontent hback
  obtain ⟨hlen, hall⟩ := Content.agrees_mapping.1 hcontent
  exact exists_pairing ha hb hlen hall (samePair_back hback) (hy.pairwise hn ((pairs?_eq_some hn).1 hqs))

/-- Where the second side has no two equal pairs, mappings are equal if their pairs match one to one, and the sides may change
places; where neither has, it makes no difference which side is which. -/
theorem nodesEqual_unrepeated (ha : a.Made) (hb : b.Made) (hx : a.Tagless x) (hy : b.Tagless y) (hone : b.Unrepeated y) :
    (a.nodesEqual x b y = true → b.nodesEqual y a x = true) ∧
      (a.Unrepeated x → a.nodesEqual x b y = b.nodesEqual y a x) ∧
      ∀ ps qs, a.pairs? x = some ps → b.pairs? y = some qs → (a.nodesEqual x b y = true ↔
        ∃ σ : Fin ps.length ≃ Fin qs.length, ∀ i, a.SamePair (ps.get i) b (qs.get (σ i))) := by
  have hforth := nodesEqual_symm ha.intact hb.intact hx hone
  refine ⟨hforth, ?_, ?_⟩
  · intro hx'
    exact Bool.eq_iff_iff.2 ⟨hforth, nodesEqual_symm hb.intact ha.intact hy hx'⟩
  · intro ps qs hps hqs
    constructor
    · exact pairing_of_nodesEqual ha.intact hb.intact hx hone hps hqs
    · intro h
      obtain ⟨σ, hσ⟩ := h
      exact nodesEqual_of_pairing ha.intact (hy y .refl) hps hqs σ hσ

/-- A list and a mapping as values, and the pairs in another order. -/
theorem nodesEqual_unrepeated_reordered : ∃ a b ps qs, read "{x: [1, {p: q}], y: {}}" = .ok a ∧
    read "{y: {}, x: [1, {p: q}]}" = .ok b ∧ (a.Tagless 0 ∧ b.Tagless 0 ∧ a.Unrepeated 0 ∧ b.Unrepeated 0) ∧
      (a.pairs? 0 = some ps ∧ b.pairs? 0 = some qs ∧ a.nodesEqual 0 b 0 = true) ∧ b.nodesEqual 0 a 0 = true ∧
      a.nodesEqual 0 b 0 = b.nodesEqual 0 a 0 ∧
        ∃ σ : Fin ps.length ≃ Fin qs.length, ∀ i, a.SamePair (ps.get i) b (qs.get (σ i)) := by
  have hfacts : (read "{x: [1, {p: q}], y: {}}").toOption.bind (fun a =>
      (read "{y: {}, x: [1, {p: q}]}").toOption.map fun b => (a.pairs? 0, b.pairs? 0, a.nodesEqual 0 b 0,
        decide ((∀ z < a.size, a.tag? z = none) ∧ (∀ z < b.size, b.tag? z = none) ∧
          (∀ z < a.size, ((a.pairs? z).getD []).Pairwise fun p q => ¬a.SamePair p a q) ∧
            ∀ z < b.size, ((b.pairs? z).getD []).Pairwise fun p q => ¬b.SamePair p b q))) =
      some (some [(1, 2), (7, 8)], some [(1, 2), (3, 4)], true, true) := by decide +kernel
  obtain ⟨a, ha, hfacts⟩ := Option.bind_eq_some_iff.1 hfacts
  obtain ⟨b, hb, hfacts⟩ := Option.map_eq_some_iff.1 hfacts
  simp only [Prod.mk.injEq, decide_eq_true_eq] at hfacts
  obtain ⟨hps, hqs, hequal, htaga, htagb, honea, honeb⟩ := hfacts
  have hreada := Outcome.eq_ok_of_toOption ha
  have hreadb := Outcome.eq_ok_of_toOption hb
  have hx : a.Tagless 0 := .of_all htaga
  have hy : b.Tagless 0 := .of_all htagb
  have hx' : a.Unrepeated 0 := .of_all honea
  have hy' : b.Unrepeated 0 := .of_all honeb
  obtain ⟨hback, hsame, hpairing⟩ := nodesEqual_unrepeated (.read hreada) (.read hreadb) hx hy hy'
  exact ⟨a, b, _, _, hreada, hreadb, ⟨hx, hy, hx', hy'⟩, ⟨hps, hqs, hequal⟩, hback hequal, hsame hx',
    (hpairing _ _ hps hqs).1 hequal⟩

/-- With its only pair listed twice a mapping is equal to none with two pairs, but one with that pair is equal to it. -/
theorem nodesEqual_repeated : ∃ a b ps qs, read "{x: 1, y: 2}" = .ok a ∧ read "{x: 1, x: 1}" = .ok b ∧
    (a.Tagless 0 ∧ b.Tagless 0 ∧ a.pairs? 0 = some ps ∧ b.pairs? 0 = some qs) ∧
      a.nodesEqual 0 b 0 = true ∧ b.nodesEqual 0 a 0 = false ∧
        ¬∃ σ : Fin ps.length ≃ Fin qs.length, ∀ i, a.SamePair (ps.get i) b (qs.get (σ i)) := by
  have hfacts : (read "{x: 1, y: 2}").toOption.bind (fun a => (read "{x: 1, x: 1}").toOption.map fun b =>
      (a.pairs? 0, b.pairs? 0, a.nodesEqual 0 b 0, b.nodesEqual 0 a 0,
        decide ((∀ z < a.size, a.tag? z = none) ∧ (∀ z < b.size, b.tag? z = none) ∧
          ¬a.SamePair (3, 4) b (1, 2) ∧ ¬a.SamePair (3, 4) b (3, 4)))) =
      some (some [(1, 2), (3, 4)], some [(1, 2), (3, 4)], true, false, true) := by decide +kernel
  obtain ⟨a, ha, hfacts⟩ := Option.bind_eq_some_iff.1 hfacts
  obtain ⟨b, hb, hfacts⟩ := Option.map_eq_some_iff.1 hfacts
  simp only [Prod.mk.injEq, decide_eq_true_eq] at hfacts
  obtain ⟨hps, hqs, hforth, hback, htaga, htagb, hfirst, hsecond⟩ := hfacts
  refine ⟨a, b, _, _, Outcome.eq_ok_of_toOption ha, Outcome.eq_ok_of_toOption hb, ⟨.of_all htaga, .of_all htagb, hps, hqs⟩,
    hforth, hback, ?_⟩
  intro h
  obtain ⟨σ, hσ⟩ := h
  have hpair := hσ 1
  cases List.mem_pair.1 (List.get_mem [(1, 2), (3, 4)] (σ 1)) with
  | inl hq =>
    rw [hq] at hpair
    exact hfirst hpair
  | inr hq =>
    rw [hq] at hpair
    exact hsecond hpair

end Document
end YamlQuery
