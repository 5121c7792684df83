import YamlQuery.Proofs.Document.Comparison
/-!
Structural comparison is a preorder: every node is equal to itself, and to what a node that it is equal to is equal to. The
second node says which tags are asked for, so leaving out some of its tags makes no comparison fail.
-/
namespace YamlQuery

namespace Content
variable {R S : NodeId → NodeId → Prop} {c c' c'' : Content}

theorem Agrees.refl (h : ∀ p ∈ c.members, R p p) : Agrees R c c := by
  cases c with
  | scalar => exact .scalar
  | reference => exact .reference
  | sequence xs => exact .sequence (List.forall₂_same.2 h)
  | mapping ps =>
    refine .mapping rfl ?_
    intro p hp
    have hmem := pair_mem_members hp
    exact ⟨p, hp, h p.1 hmem.1, h p.2 hmem.2⟩

theorem Agrees.comp (h : Agrees R c c') (h' : Agrees S c' c'') : Agrees (Relation.Comp R S) c c'' := by
  cases h with
  | scalar =>
    cases h'
    exact .scalar
  | reference =>
    cases h'
    exact .reference
  | sequence h =>
    cases h' with
    | sequence h' =>
      obtain ⟨hlen, hget⟩ := List.forall₂_iff_get.1 h
      obtain ⟨hlen', hget'⟩ := List.forall₂_iff_get.1 h'
      refine .sequence (List.forall₂_iff_get.2 ⟨hlen.trans hlen', ?_⟩)
      exact fun i hx hz => ⟨_, hget i hx (hlen ▸ hx), hget' i (hlen ▸ hx) hz⟩
  | mapping hlen h =>
    cases h' with
    | mapping hlen' h' =>
      refine .mapping (hlen.trans hlen') ?_
      intro r hr
      obtain ⟨q, hq, hkey', hvalue'⟩ := h' r hr
      obtain ⟨p, hp, hkey, hvalue⟩ := h q hq
      exact ⟨p, hp, ⟨q.1, hkey, hkey'⟩, q.2, hvalue, hvalue'⟩

end Content

namespace Document
variable {a b c : Document} {x y z : NodeId}

theorem Intact.nodesEqual_self (ha : a.Intact) (hx : x < a.size) : a.nodesEqual x a x = true := by
  induction x using ha.holds_induction with
  | step x ih =>
    obtain ⟨m, hm⟩ : ∃ m, a.node? x = some m := ⟨_, Array.getElem?_eq_getElem hx⟩
    refine ha.nodesEqual_iff.2 ⟨m, m, hm, hm, .inr rfl, .refl ?_⟩
    intro p hp
    have hholds := holds_of_node? hm hp
    exact ih p hholds (ha.member_lt x p hholds)

theorem Intact.nodesEqual_trans (ha : a.Intact) (hb : b.Intact) (hxy : a.nodesEqual x b y = true)
    (hyz : b.nodesEqual y c z = true) : a.nodesEqual x c z = true := by
  induction x using ha.holds_induction generalizing y z with
  | step x ih =>
    obtain ⟨m, n, hm, hn, htag, hcontent⟩ := ha.nodesEqual_iff.1 hxy
    obtain ⟨n', k, hn', hk, htag', hcontent'⟩ := hb.nodesEqual_iff.1 hyz
    obtain rfl : n = n' := Option.some.inj (hn.symm.trans hn')
    refine ha.nodesEqual_iff.2 ⟨m, k, hm, hk, ?_, ?_⟩
    · cases htag' with
      | inl hnone => exact .inl hnone
      | inr hsame => exact hsame ▸ htag
    · apply (hcontent.comp hcontent').mono
      intro p hp r _ hpr
      obtain ⟨q, hpq, hqr⟩ := hpr
      exact ih p (holds_of_node? hm hp) hpq hqr

def withoutTags (d : Document) (drop : NodeId → Bool) : Document :=
  { d with nodes := d.nodes.mapIdx fun id n => if drop id then { n with tag := none } else n }

theorem node?_withoutTags (d : Document) (drop : NodeId → Bool) (x : NodeId) :
    (d.withoutTags drop).node? x = (d.node? x).map fun n => if drop x then { n with tag := none } else n := by
  simp [node?, withoutTags]

theorem Intact.nodesEqual_withoutTags (ha : a.Intact) (drop : NodeId → Bool) (h : a.nodesEqual x b y = true) :
    a.nodesEqual x (b.withoutTags drop) y = true := by
  induction x using ha.holds_induction generalizing y with
  | step x ih =>
    obtain ⟨m, n, hm, hn, htag, hcontent⟩ := ha.nodesEqual_iff.1 h
    have hbelow : m.content.Agrees (fun p q => a.nodesEqual p (b.withoutTags drop) q = true) n.content :=
      hcontent.mono fun p hp q _ hpq => ih p (holds_of_node? hm hp) hpq
    have hn' := node?_withoutTags b drop y
    rw [hn, Option.map_some] at hn'
    refine ha.nodesEqual_iff.2 ⟨m, _, hm, hn', ?_⟩
    by_cases hdrop : drop y = true
    · rw [if_pos hdrop]
      exact ⟨.inl rfl, hbelow⟩
    · rw [if_neg hdrop]
      exact ⟨htag, hbelow⟩

/-- Every node is equal to itself, equality passes on, and it outlasts the loss of tags on the second side. -/
theorem nodesEqual_preorder (ha : a.Made) (hb : b.Made) (hx : x < a.size) :
    a.nodesEqual x a x = true ∧
      (∀ c z, a.nodesEqual x b y = true → b.nodesEqual y c z = true → a.nodesEqual x c z = true) ∧
      ∀ drop, a.nodesEqual x b y = true → a.nodesEqual x (b.withoutTags drop) y = true := by
  refine ⟨ha.intact.nodesEqual_self hx, ?_, ?_⟩
  · exact fun c z hxy hyz => ha.intact.nodesEqual_trans hb.intact hxy hyz
  · exact fun drop h => ha.intact.nodesEqual_withoutTags drop h

/-- Three lists of a tagged word and a mapping with an alias to it: the last one has the tag no more, and its pair twice. -/
theorem nodesEqual_preorder_aliases : ∃ a b c, read "- &n !t v\n- {k: *n, j: 1}\n" = .ok a ∧
    read "- &n !t v\n- {j: 1, k: *n}\n" = .ok b ∧ read "- &n v\n- {k: *n, k: *n}\n" = .ok c ∧
      (0 < a.size ∧ a.nodesEqual 0 b 0 = true ∧ b.nodesEqual 0 c 0 = true) ∧ a.nodesEqual 0 a 0 = true ∧
      a.nodesEqual 0 c 0 = true ∧ b.tag? 1 = some "!t" ∧ a.nodesEqual 0 (b.withoutTags (· == 1)) 0 = true := by
  have hfacts : (read "- &n !t v\n- {k: *n, j: 1}\n").toOption.bind (fun a =>
      (read "- &n !t v\n- {j: 1, k: *n}\n").toOption.bind fun b => (read "- &n v\n- {k: *n, k: *n}\n").toOption.map fun c =>
        (a.size, a.nodesEqual 0 b 0, b.nodesEqual 0 c 0, b.tag? 1)) = some (7, true, true, some "!t") := by decide +kernel
  obtain ⟨a, ha, hfacts⟩ := Option.bind_eq_some_iff.1 hfacts
  obtain ⟨b, hb, hfacts⟩ := Option.bind_eq_some_iff.1 hfacts
  obtain ⟨c, hc, hfacts⟩ := Option.map_eq_some_iff.1 hfacts
  simp only [Prod.mk.injEq] at hfacts
  obtain ⟨hsize, hab, hbc, htag⟩ := hfacts
  have hreada := Outcome.eq_ok_of_toOption ha
  have hreadb := Outcome.eq_ok_of_toOption hb
  have hpos : 0 < a.size := by omega
  obtain ⟨hself, htrans, hdrop⟩ := nodesEqual_preorder (y := 0) (.read hreada) (.read hreadb) hpos
  exact ⟨a, b, c, hreada, hreadb, Outcome.eq_ok_of_toOption hc, ⟨hpos, hab, hbc⟩, hself, htrans c 0 hab hbc, htag,
    hdrop _ hab⟩

end Document
end YamlQuery
