import Mathlib.Data.Nat.SuccPred
import Mathlib.Order.SuccPred.Archimedean
import YamlQuery.Proofs.Document.Order
import YamlQuery.Proofs.Path.Evaluation
import YamlQuery.Proofs.Path.NodePath
/-!
The path `/**` lists a document that was read in the order of its source: without following aliases it gives the root and
all that lies below it, with increasing ids, and it takes one level for each step of the longest way down and two more.
-/
namespace YamlQuery
open Relation YamlQuery.Path

namespace Document

inductive Steps (d : Document) : Nat → NodeId → NodeId → Prop
  | none (a : NodeId) : Steps d 0 a a
  | down {n : Nat} {a b c : NodeId} (h : b ∈ d.children a) (t : Steps d n b c) : Steps d (n + 1) a c

variable {d : Document} {n : Nat} {a b c : NodeId}

theorem children_sublist (d : Document) (a : NodeId) : (d.children a).Sublist (d.members a) := by
  unfold children members
  cases d.content? a with
  | none => exact .slnil
  | some c =>
    cases c with
    | scalar | reference => exact .slnil
    | sequence items => exact .refl _
    | mapping pairs =>
      show (pairs.map (·.2)).Sublist (pairs.flatMap fun p => [p.1, p.2])
      induction pairs with
      | nil => exact .slnil
      | cons p pairs ih => exact .cons _ (.cons_cons _ ih)

theorem Steps.holds (h : d.Steps n a b) : ReflTransGen d.Holds a b := by
  induction h with
  | none => exact .refl
  | down h _ ih => exact .head ((d.children_sublist _).subset h) ih

theorem Steps.le {free : List NodeId} (ho : d.Owned free) (h : d.Steps n a b) : a + n ≤ b := by
  induction h with
  | none => exact Nat.le_refl _
  | @down n a b c h _ ih =>
    have hlt : a < b := ho.older b a ((d.children_sublist a).subset h)
    calc a + (n + 1) = a + 1 + n := Nat.add_right_comm a n 1
      _ ≤ b + n := Nat.add_le_add_right hlt n
      _ ≤ c := ih

theorem Steps.cut {k : Nat} (h : d.Steps (n + k) a b) : ∃ x, d.Steps n a x := by
  induction n generalizing a with
  | zero => exact ⟨a, .none a⟩
  | succ n ih =>
    rw [Nat.succ_add] at h
    cases h with
    | down hb t =>
      obtain ⟨x, hx⟩ := ih t
      exact ⟨x, .down hb hx⟩

/-- The ways down from a node that nothing holds have a greatest length. -/
theorem Owned.exists_height {free : List NodeId} (ho : d.Owned free) (ha : a ∈ free) :
    ∃ h, IsGreatest {n | ∃ b, d.Steps n a b} h := by
  have hbound : BddAbove {n | ∃ b, d.Steps n a b} := by
    refine ⟨d.size, ?_⟩
    rintro n ⟨b, hb⟩
    have hle : a + n ≤ b := hb.le ho
    have hlt : b < d.size := ho.under_lt ha hb.holds
    exact Nat.le_trans (Nat.le_add_left n a) (Nat.le_trans hle (Nat.le_of_lt hlt))
  exact hbound.exists_isGreatest_of_nonempty ⟨0, a, .none a⟩

/-- Under a greatest length there are ways of every length up to it, and none is longer. -/
theorem steps_iff_of_isGreatest {h : Nat} (hh : IsGreatest {n | ∃ b, d.Steps n a b} h) (n : Nat) :
    (∃ b, d.Steps n a b) ↔ n ≤ h := by
  constructor
  · exact fun hn => hh.2 hn
  · intro hn
    obtain ⟨b, hb⟩ := hh.1
    obtain ⟨k, rfl⟩ := Nat.exists_eq_add_of_le hn
    exact hb.cut

end Document

namespace Path.Walk
open Document
variable {w : Walk} {n : Nat} {a : NodeId}

theorem descendants_succ (hf : w.options.followAliases = false) (n : Nat) (a : NodeId) :
    w.descendants (n + 1) a = collect (fun c => (w.descendants n c).map (c :: ·)) (w.doc.children a) := by
  have hstep : ∀ c, (do
      let target ← w.resolve (n + 1) c
      return target :: (← w.descendants n target)) = (w.descendants n c).map (c :: ·) := by
    intro c
    rw [resolve_kept hf]
    rfl
  rw [descendants]
  congr 1
  funext c
  exact hstep c

/-- When every outcome is found or too deep, one that is too deep decides. -/
theorem collect_tooDeep {α : Type} {f : α → Result} {as : List α} {a : α}
    (h : ∀ a ∈ as, f a = w.tooDeep ∨ ∃ found, f a = .ok found) (ha : a ∈ as) (hf : f a = w.tooDeep) :
    collect f as = w.tooDeep := by
  induction as with
  | nil => simp at ha
  | cons b as ih =>
    rw [collect]
    rcases h b (by simp) with hb | ⟨found, hb⟩
    · rw [hb]
      rfl
    · have htail : a ∈ as := by
        rcases List.mem_cons.1 ha with rfl | ha
        · rw [hf] at hb
          simp [tooDeep] at hb
        · exact ha
      rw [hb, ih (fun c hc => h c (by simp [hc])) htail]
      rfl

/-- With a level for every step the walk down finds what lies below, in increasing order. -/
theorem descendants_ok (hf : w.options.followAliases = false) (ho : w.doc.Ordered) {free : List NodeId}
    (how : w.doc.Owned free) (h : ∀ b, ¬w.doc.Steps n a b) :
    ∃ found, w.descendants n a = .ok found ∧ found.Pairwise (· < ·) ∧ ∀ x, x ∈ found ↔ ∃ k, w.doc.Steps (k + 1) a x := by
  induction n generalizing a with
  | zero => exact absurd (.none a) (h a)
  | succ n ih =>
    have hbelow : ∀ c ∈ w.doc.children a, ∃ found, w.descendants n c = .ok found ∧ found.Pairwise (· < ·) ∧
        ∀ x, x ∈ found ↔ ∃ k, w.doc.Steps (k + 1) c x := fun c hc => ih fun b hb => h b (.down hc hb)
    choose! under hunder hsorted hmem using hbelow
    have hwalk : ∀ c ∈ w.doc.children a, (w.descendants n c).map (c :: ·) = .ok (c :: under c) := by
      intro c hc
      rw [hunder c hc]
      rfl
    -- all that is listed for a child lies below it
    have hlisted : ∀ c ∈ w.doc.children a, ∀ x ∈ c :: under c, ∃ k, w.doc.Steps k c x := by
      intro c hc x hx
      rcases List.mem_cons.1 hx with rfl | hx
      · exact ⟨0, .none x⟩
      · obtain ⟨k, hk⟩ := (hmem c hc x).1 hx
        exact ⟨k + 1, hk⟩
    refine ⟨(w.doc.children a).flatMap fun c => c :: under c, ?_, ?_, ?_⟩
    · rw [descendants_succ hf, collect_ok hwalk]
    · refine List.pairwise_flatMap.2 ⟨?_, ?_⟩
      · intro c hc
        refine List.pairwise_cons.2 ⟨?_, hsorted c hc⟩
        intro x hx
        obtain ⟨k, hk⟩ := (hmem c hc x).1 hx
        have hle : c + (k + 1) ≤ x := hk.le how
        exact Nat.lt_of_lt_of_le (Nat.lt_add_of_pos_right k.succ_pos) hle
      · refine ((ho a).sublist (w.doc.children_sublist a)).imp_of_mem ?_
        intro c e hc he hce x hx y hy
        obtain ⟨k, hk⟩ := hlisted c hc x hx
        obtain ⟨l, hl⟩ := hlisted e he y hy
        exact Nat.lt_of_lt_of_le (hce x hk.holds) (Nat.le_trans (Nat.le_add_right e l) (hl.le how))
    · intro x
      rw [List.mem_flatMap]
      constructor
      · rintro ⟨c, hc, hx⟩
        obtain ⟨k, hk⟩ := hlisted c hc x hx
        exact ⟨k, .down hc hk⟩
      · rintro ⟨k, hk⟩
        cases hk with
        | @down _ _ c _ hc t =>
          refine ⟨c, hc, ?_⟩
          cases k with
          | zero =>
            cases t
            simp
          | succ k => exact List.mem_cons_of_mem _ ((hmem c hc x).2 ⟨k, t⟩)

/-- A way of as many steps as there are levels is too deep. -/
theorem descendants_tooDeep (hf : w.options.followAliases = false) (ho : w.doc.Ordered) {free : List NodeId}
    (how : w.doc.Owned free) {b : NodeId} (h : w.doc.Steps n a b) : w.descendants n a = w.tooDeep := by
  induction n generalizing a b with
  | zero => rfl
  | succ n ih =>
    cases h with
    | @down _ _ c _ hc t =>
      rw [descendants_succ hf]
      refine collect_tooDeep ?_ hc (by rw [ih t]; rfl)
      intro e _
      by_cases he : ∃ x, w.doc.Steps n e x
      · obtain ⟨x, hx⟩ := he
        exact .inl (by rw [ih hx]; rfl)
      · obtain ⟨found, hfound, _⟩ := descendants_ok hf ho how fun x hx => he ⟨x, hx⟩
        exact .inr ⟨e :: found, by rw [hfound]; rfl⟩

end Path.Walk

namespace Document
variable {doc : Document} {root : NodeId}

def enumeration : Expr := .join .chain [.step .root {}, .step .everyDescendant {}] {}

theorem ofText_enumeration : ∃ p, Parsed.ofText "/**" = .ok p ∧ p.expr.unmarked = enumeration := ⟨_, rfl, rfl⟩

theorem execute_enumeration_zero (start : NodeId) (follow : Bool) :
    enumeration.execute doc start ⟨follow, 0⟩ = .error (.depthExceeded 0) := rfl

/-- The combinator and the step each take a level, and the root stands before what lies below it. -/
theorem execute_enumeration_succ (hroot : doc.root = some root) (start : NodeId) (follow : Bool) (limit : Nat) :
    enumeration.execute doc start ⟨follow, limit + 1⟩ =
      (Walk.descendants ⟨doc, ⟨follow, limit + 1⟩⟩ limit root).map (root :: ·) := by
  have hstep : Walk.step ⟨doc, ⟨follow, limit + 1⟩⟩ limit .root [start] = .ok [root] := by
    rw [Walk.step, hroot]
    rfl
  have heval : enumeration.execute doc start ⟨follow, limit + 1⟩ =
      Combinator.thread (Walk.eval ⟨doc, ⟨follow, limit + 1⟩⟩ (limit + 1)) [root] [.step .everyDescendant {}] := by
    show (Walk.step ⟨doc, ⟨follow, limit + 1⟩⟩ limit .root [start] >>= fun here =>
      Combinator.thread (Walk.eval ⟨doc, ⟨follow, limit + 1⟩⟩ (limit + 1)) here [.step .everyDescendant {}]) = _
    rw [hstep]
    rfl
  rw [heval]
  show (Walk.collect (fun id => (Walk.descendants ⟨doc, ⟨follow, limit + 1⟩⟩ limit id).map (id :: ·)) [root] >>= pure) = _
  rw [Walk.collect, Walk.collect]
  cases Walk.descendants ⟨doc, ⟨follow, limit + 1⟩⟩ limit root with
  | error e => rfl
  | ok below => simp [Except.map, bind, Except.bind, pure, Except.pure]

/-- The nodes of a document that was read are listed by `/**` in the order of their ids, each once: the root, and all that
items and values lead to. Aliases are not followed. It is too deep exactly under a limit of less than two more than the
longest way down. -/
theorem execute_enumeration {text : String} (hread : read text = .ok doc) (hroot : doc.root = some root) :
    ∃ p, Parsed.ofText "/**" = .ok p ∧ ∃ h, IsGreatest {n | ∃ id, doc.Steps n root id} h ∧
      ∀ (start : NodeId) (limit : Nat),
        (limit < h + 2 → p.expr.execute doc start ⟨false, limit⟩ = .error (.depthExceeded limit)) ∧
        (h + 2 ≤ limit → ∃ found, p.expr.execute doc start ⟨false, limit⟩ = .ok found ∧ found.Pairwise (· < ·) ∧
          ∀ id, id ∈ found ↔ ∃ n, doc.Steps n root id) := by
  obtain ⟨ho, how⟩ : doc.Ordered ∧ doc.Owned doc.root.toList := by
    obtain ⟨events, _, rfl⟩ := Outcome.map_eq_ok.1 hread
    exact ⟨ordered_ofEvents _ events, owned_ofEvents _ events⟩
  have hfree : root ∈ doc.root.toList := by simp [hroot]
  obtain ⟨p, hp, hu⟩ := ofText_enumeration
  obtain ⟨h, hh⟩ := how.exists_height hfree
  refine ⟨p, hp, h, hh, ?_⟩
  intro start limit
  rw [Parsed.execute_of_unmarked (f := enumeration) hu]
  cases limit with
  | zero => exact ⟨fun _ => execute_enumeration_zero start false, fun hle => by omega⟩
  | succ limit =>
    rw [execute_enumeration_succ hroot]
    constructor
    · intro hlt
      obtain ⟨b, hb⟩ := (steps_iff_of_isGreatest hh limit).2 (by omega)
      have hdeep := Walk.descendants_tooDeep (w := ⟨doc, ⟨false, limit + 1⟩⟩) rfl ho how hb
      rw [hdeep]
      rfl
    · intro hle
      have hnone : ∀ b, ¬doc.Steps limit root b := by
        intro b hb
        have := (steps_iff_of_isGreatest hh limit).1 ⟨b, hb⟩
        omega
      obtain ⟨under, hunder, hsorted, hmem⟩ := Walk.descendants_ok (w := ⟨doc, ⟨false, limit + 1⟩⟩) rfl ho how hnone
      refine ⟨root :: under, by rw [hunder]; rfl, ?_, ?_⟩
      · refine List.pairwise_cons.2 ⟨?_, hsorted⟩
        intro x hx
        obtain ⟨k, hk⟩ := (hmem x).1 hx
        exact Nat.lt_of_lt_of_le (Nat.lt_add_of_pos_right k.succ_pos) (hk.le how)
      · intro id
        rw [List.mem_cons]
        constructor
        · rintro (rfl | hid)
          · exact ⟨0, .none id⟩
          · obtain ⟨k, hk⟩ := (hmem id).1 hid
            exact ⟨k + 1, hk⟩
        · rintro ⟨n, hn⟩
          cases n with
          | zero =>
            cases hn
            exact .inl rfl
          | succ n => exact .inr ((hmem id).2 ⟨n, hn⟩)

/-- A mapping with a list as key, and an alias of the list that is its value. -/
theorem execute_enumeration_alias : ∃ doc, read "? [k]\n: &x [1, \x7bb: 2\x7d]\nc: *x" = .ok doc ∧ doc.root = some 0 ∧
    ∃ p, Parsed.ofText "/**" = .ok p ∧ ∃ h, IsGreatest {n | ∃ id, doc.Steps n 0 id} h ∧
      ∀ (start : NodeId) (limit : Nat),
        (limit < h + 2 → p.expr.execute doc start ⟨false, limit⟩ = .error (.depthExceeded limit)) ∧
        (h + 2 ≤ limit → ∃ found, p.expr.execute doc start ⟨false, limit⟩ = .ok found ∧ found.Pairwise (· < ·) ∧
          ∀ id, id ∈ found ↔ ∃ n, doc.Steps n 0 id) := by
  have hroots : (read "? [k]\n: &x [1, \x7bb: 2\x7d]\nc: *x").toOption.map (·.root) = some (some 0) := by decide +kernel
  obtain ⟨doc, hdoc, hroot⟩ := Option.map_eq_some_iff.1 hroots
  have hread := Outcome.eq_ok_of_toOption hdoc
  exact ⟨doc, hread, hroot, execute_enumeration hread hroot⟩

/-- Neither the key nor what the alias refers to is listed below it, and the scalar three steps down takes five levels. -/
example : (read "? [k]\n: &x [1, \x7bb: 2\x7d]\nc: *x").toOption.map
    (fun doc => (enumeration.execute doc 0 ⟨false, 4⟩, enumeration.execute doc 0 ⟨false, 5⟩)) =
      some (.error (.depthExceeded 4), .ok [0, 3, 4, 5, 7, 9]) := by decide +kernel

end Document
end YamlQuery
