import YamlQuery.Path.Query
import YamlQuery.Proofs.Document.Trail
import YamlQuery.Proofs.Path.Evaluation
import YamlQuery.Proofs.Path.Parenthesised
import YamlQuery.Proofs.Path.Segment
/-!
The path of a node, run as a query, selects the node.
-/
namespace YamlQuery.Path
open Path.Expr Grammar Outcome Combinator

namespace Walk
variable {w : Walk} {n : Nat}

theorem resolveAll_single (h : w.doc.aliasName? n = none) (levels : Nat) : w.resolveAll levels [n] = .ok [n] := by
  rw [resolveAll, collect_singleton, resolve_arrived h]
  rfl

/-- A path from the root runs its steps one after the other, however many they are. -/
theorem eval_steps (w : Walk) (levels : Nat) (start : NodeId) (segments : List Segment) :
    w.eval (levels + 2) (gather .chain (.step .root {} :: Segment.steps segments)) [start] =
      thread (w.eval (levels + 1)) w.doc.root.toList (Segment.steps segments) := by
  cases segments with
  | nil => rfl
  | cons s segments =>
    have hflat : (Segment.steps segments).flatMap (operandsOf .chain) = Segment.steps segments := by
      rw [Segment.steps, List.flatMap_map]
      exact List.map_eq_flatMap.symm
    have hchain : gather .chain (.step .root {} :: Segment.steps (s :: segments)) =
        .join .chain (.step .root {} :: .step s.step {} :: (Segment.steps segments).flatMap (operandsOf .chain)) {} := rfl
    rw [hchain, hflat]
    rfl

end Walk

theorem query_of_ok {text : String} {p : Parsed} (h : Parsed.ofText text = .ok p) (doc : Document) :
    query doc text = (p.expr.executeAtRoot doc {}).mapError .eval := by
  delta query
  rw [h]

structure Segment.Selects (s : Segment) (d : Document) (p c : NodeId) : Prop where
  parent : d.parent? c = some p
  written : d.segment? p c = some s.text
  found : ∀ (options : EvalOptions) (levels : Nat),
    Walk.step ⟨d, options⟩ levels s.step [p] = Walk.resolveAll ⟨d, options⟩ (levels + 1) [c]

structure Segment.Lead (segments : List Segment) (d : Document) (n : NodeId) : Prop where
  written : ∀ levels, n < levels → d.segmentsTo levels n = segments.map text
  found : d.aliasName? n = none → ∀ (options : EvalOptions) (levels : Nat),
    thread (Walk.eval ⟨d, options⟩ (levels + 1)) d.root.toList (steps segments) = .ok [n]

theorem Segment.Lead.concat {segments : List Segment} {s : Segment} {d : Document} {p c : NodeId}
    (h : Lead segments d p) (hs : s.Selects d p c) (hlt : p < c) (hp : d.aliasName? p = none) :
    Lead (segments ++ [s]) d c where
  written := by
    intro levels hc
    obtain ⟨m, rfl⟩ := Nat.exists_eq_succ_of_ne_zero (Nat.ne_of_gt (Nat.zero_lt_of_lt hc))
    have hpm : p < m := Nat.lt_of_lt_of_le hlt (Nat.le_of_lt_succ hc)
    rw [Document.segmentsTo_of_parent hs.parent hs.written, h.written m hpm, List.map_append]
    rfl
  found := by
    intro hc options levels
    have hsteps : steps (segments ++ [s]) = steps segments ++ [.step s.step {}] := by simp [steps]
    have hlast : thread (Walk.eval ⟨d, options⟩ (levels + 1)) [p] [.step s.step {}] = .ok [c] := by
      simp only [thread, List.isEmpty_cons, Bool.false_eq_true, ↓reduceIte, Walk.eval, hs.found,
        Walk.resolveAll_single (w := ⟨d, options⟩) hc]
      rfl
    rw [hsteps, thread_append, h.found hp, bind_ok]
    exact hlast

end YamlQuery.Path

namespace YamlQuery.Document
open YamlQuery.Path

variable {d : Document} {free : List NodeId} {p k c : NodeId} {items : List NodeId} {pairs : List (NodeId × NodeId)}

theorem Owned.selects_item (ho : Owned d free) (h : d.items? p = some items) {i : Nat} (hlt : i < items.length)
    (hget : items[i] = c) (hi : i < 2 ^ 63) : (Segment.ofIndex i hi).Selects d p c where
  parent := ho.parent_item h (hget ▸ List.getElem_mem hlt)
  written := ho.segment_item h hlt hget
  found := by
    intro options levels
    have hneg : ¬Int64.ofNat i < 0 := Int64.not_lt.2 (Int64.zero_le_ofNat_of_lt hi)
    have hat : Walk.itemAt? items (Int64.ofNat i) = some c := by
      simp only [Walk.itemAt?, hneg, ↓reduceIte, Int64.toNatClampNeg_ofNat_of_lt hi]
      rw [List.getElem?_eq_getElem hlt, hget]
    simp only [Segment.ofIndex, Walk.step, List.filterMap_cons, List.filterMap_nil, h, Option.bind_some, hat]

theorem Owned.selects_value (ho : Owned d free) (h : d.pairs? p = some pairs) (hc : (k, c) ∈ pairs) {text : String}
    (htext : d.text? k = some text) (htag : d.tag? k = none) (hone : ∀ q ∈ pairs, d.text? q.1 = some text → q.1 = k) :
    (Segment.ofKey text).Selects d p c where
  parent := ho.parent_value h hc
  written := by
    have hkey : d.keySegment k = (Segment.ofKey text).text := by
      simp [keySegment, htext, htag, Segment.ofKey]
    rw [ho.segment_value h hc, hkey]
  found := by
    intro options levels
    have hlook := ho.lookup_value h hc htext hone
    simp only [Segment.ofKey, Walk.step, List.filterMap_cons, List.filterMap_nil, Walk.lookup?, hlook]

/-- Every trail has segments that lead along it. -/
theorem Reached.lead {n : NodeId} (h : d.Reached n) (ho : Owned d d.root.toList) (hs : d.size < 2 ^ 63) :
    ∃ segments, Segment.Lead segments d n := by
  induction h with
  | @root r h =>
    have horphan : d.parent? r = none := ho.free_orphan r (by simp [h])
    refine ⟨[], fun levels _ => segmentsTo_root horphan levels, ?_⟩
    intro _ options levels
    rw [h]
    rfl
  | @item p c items hp h hc ih =>
    obtain ⟨segments, hlead⟩ := ih
    obtain ⟨i, hlt, hget⟩ := List.getElem_of_mem hc
    have hlen := ho.length_le p
    rw [members_of_items h] at hlen
    have hi : i < 2 ^ 63 := by omega
    have hsel := ho.selects_item h hlt hget hi
    have hyoung : p < c := ho.older c p ((ho.parent_iff c p).1 hsel.parent)
    have hplain : d.aliasName? p = none := by simp [aliasName?, content_of_items h, Content.aliasName?]
    exact ⟨_, hlead.concat hsel hyoung hplain⟩
  | @value p k c pairs text hp h hc htext htag hone ih =>
    obtain ⟨segments, hlead⟩ := ih
    have hsel := ho.selects_value h hc htext htag hone
    have hyoung : p < c := ho.older c p ((ho.parent_iff c p).1 hsel.parent)
    have hplain : d.aliasName? p = none := by simp [aliasName?, content_of_pairs h, Content.aliasName?]
    exact ⟨_, hlead.concat hsel hyoung hplain⟩

theorem Reached.lt {n : NodeId} (h : d.Reached n) (ho : Owned d d.root.toList) : n < d.size := by
  cases h with
  | root h => exact ho.free_lt n (by simp [h])
  | item _ h hc => exact parent?_lt (ho.parent_item h hc)
  | value _ h hc => exact parent?_lt (ho.parent_value h hc)

/-- The path of a node that was read parses, and selects the node and no other. No arena in memory is as large as
the bound. -/
theorem query_pathOf {text : String} {n : NodeId} (hread : read text = .ok d) (hs : d.size < 2 ^ 63)
    (hn : d.Reached n) (halias : d.aliasName? n = none) :
    (∃ p, Parsed.ofText (d.pathOf n) = .ok p) ∧ query d (d.pathOf n) = .ok [n] := by
  have ho : Owned d d.root.toList := by
    obtain ⟨events, _, rfl⟩ := Outcome.map_eq_ok.1 hread
    exact owned_ofEvents _ events
  obtain ⟨segments, hlead⟩ := hn.lead ho hs
  have hpath : d.pathOf n = Segment.pathText segments := by
    rw [pathOf, hlead.written d.size (hn.lt ho), Segment.pathText]
  obtain ⟨p, hp, hu⟩ := Segment.ofText_pathText segments
  rw [hpath]
  refine ⟨⟨p, hp⟩, ?_⟩
  cases hroot : d.root with
  | none =>
    have hfound := hlead.found halias {} 0
    rw [hroot, Option.toList_none, Combinator.thread_nil] at hfound
    simp at hfound
  | some r =>
    have hexec : p.expr.execute d r {} = .ok [n] := by
      rw [Expr.execute, ← Walk.eval_unmarked, hu]
      exact (Walk.eval_steps ⟨d, {}⟩ 255 r segments).trans (hlead.found halias {} 255)
    have hroots : p.expr.executeAtRoot d {} = .ok [n] := by
      rw [Expr.executeAtRoot, hroot]
      exact hexec
    rw [query_of_ok hp, hroots]
    rfl

/-- The one item of a list under a key that needs quotes. -/
theorem query_pathOf_quoted : ∃ d, read "a b: [x]" = .ok d ∧ d.pathOf 3 = "/\"a b\"/0" ∧
    query d (d.pathOf 3) = .ok [3] := by
  have hroots : (read "a b: [x]").toOption.map (fun d => (d.size, d.root, d.pairs? 0)) =
      some (4, some 0, some [(1, 2)]) := by decide +kernel
  have hkeys : (read "a b: [x]").toOption.map (fun d => (d.text? 1, d.tag? 1, d.items? 2)) =
      some (some "a b", none, some [3]) := by decide +kernel
  have hleaf : (read "a b: [x]").toOption.map (fun d => (d.aliasName? 3, d.pathOf 3)) =
      some (none, "/\"a b\"/0") := by decide +kernel
  cases hread : read "a b: [x]" with
  | error e =>
    rw [hread] at hroots
    simp [Except.toOption] at hroots
  | ok d =>
    rw [hread] at hroots hkeys hleaf
    simp only [Except.toOption, Option.map_some, Option.some.injEq, Prod.mk.injEq] at hroots hkeys hleaf
    obtain ⟨hsize, hroot, hpairs⟩ := hroots
    obtain ⟨htext, htag, hitems⟩ := hkeys
    obtain ⟨halias, hpath⟩ := hleaf
    have hlist : d.Reached 2 := .value (.root hroot) hpairs (by simp) htext htag (by simp)
    have hitem : d.Reached 3 := .item hlist hitems (by simp)
    have hsmall : d.size < 2 ^ 63 := by omega
    exact ⟨d, rfl, hpath, (query_pathOf hread hsmall hitem halias).2⟩

end YamlQuery.Document
