import YamlQuery.Proofs.Document.Trail
import YamlQuery.Proofs.Document.Verbatim
import YamlQuery.Proofs.Path.JsonLiteral
import YamlQuery.Proofs.Path.Parenthesised
/-!
The segment of a key that is no plain name, run as a query on the mapping, selects the value under the key, as long as the
key prints as it is written.
-/
namespace YamlQuery
open YamlQuery.Path YamlQuery.Path.Expr YamlQuery.Path.Grammar

def Path.Segment.ofJson (v : JsonValue) (key : Document) (h : Document.read v.compact = .ok key) (hr : key.root.isSome) :
    Segment where
  text := "\x7b" ++ v.compact ++ "\x7d"
  kind := .keyLiteral v.compact
  step := .mapKey (.complex v.compact key)
  takes := by
    have ht := Lexer.takes_literal false v []
    simpa using ht
  spells := .key (.literal h hr)

/-- A segment alone is a path of one step. -/
theorem Path.Segment.ofText_text (s : Segment) : ∃ p, Parsed.ofText s.text = .ok p ∧ p.expr.unmarked = .step s.step {} := by
  have hlex : Lexer.Lexes false s.text.toList [s.kind] := .token s.takes s.takes.ne_finish (.finish (by simp))
  exact Parsed.ok_of_lexes hlex (reads_of_chain (.bare (.first (.step s.spells))))

namespace Document

variable {d : Document} {m k v : NodeId} {pairs : List (NodeId × NodeId)}

theorem keySegment_complex (h : d.text? k = none ∨ d.tag? k ≠ none) :
    d.keySegment k = "\x7b" ++ (d.jsonValue k).compact ++ "\x7d" := by
  unfold keySegment
  split
  · next htext htag => simp [htext, htag] at h
  · rfl

/-- A mapping step without aliases selects what is found under the key. -/
theorem execute_mapKey {key : MapKey} {options : EvalOptions} (hf : options.followAliases = false)
    (hl : Walk.lookup? ⟨d, options⟩ key m = some v) : (Expr.step (.mapKey key) {}).execute d m options = .ok [v] := by
  have hresolve : Walk.resolve ⟨d, options⟩ (options.maxDepth + 1) v = .ok v := by simp [Walk.resolve, hf]
  simp only [Expr.execute, Walk.eval, Walk.step, List.filterMap_cons, List.filterMap_nil, hl, Walk.resolveAll, Walk.collect,
    hresolve]
  rfl

theorem Owned.lookupKey_value {free : List NodeId} (ho : d.Owned free) (hm : d.pairs? m = some pairs) (hkv : (k, v) ∈ pairs)
    {probe : Document} {y : NodeId} (hk : d.nodesEqual k probe y = true)
    (hone : ∀ q ∈ pairs, d.nodesEqual q.1 probe y = true → q.1 = k) : d.lookupKey? m probe y = some v := by
  have hfind : (pairs.find? fun q => d.nodesEqual q.1 probe y) = some (k, v) := by
    refine find?_of_unique hkv hk ?_
    intro q hq hqk
    exact ho.pair_unique hm hq hkv (.inl (hone q hq hqk).symm) (.inl rfl)
  simp [lookupKey?, hm, hfind]

/-- A key that prints as it is written is found again by its segment, if no other key of the mapping is equal to it when
its tags are left out. The text of a key literal holds 255 open collections at most. -/
theorem execute_keySegment {text : String} (hread : read text = .ok d) (hm : d.pairs? m = some pairs) (hkv : (k, v) ∈ pairs)
    (hcomplex : d.text? k = none ∨ d.tag? k ≠ none) (hk : d.Verbatim k) (hdepth : (d.jsonValue k).depth ≤ 255)
    (hone : ∀ q ∈ pairs, d.nodesEqual q.1 d.untagged k = true → q.1 = k) :
    ∃ p, Parsed.ofText (d.keySegment k) = .ok p ∧
      ∀ options : EvalOptions, options.followAliases = false → p.expr.execute d m options = .ok [v] := by
  obtain ⟨ho, hi⟩ : d.Owned d.root.toList ∧ d.Intact := by
    obtain ⟨events, _, rfl⟩ := Outcome.map_eq_ok.1 hread
    exact ⟨owned_ofEvents _ events, intact_ofEvents _ events⟩
  obtain ⟨key, hkey, hroot, hshows⟩ := shows_of_read_compact hdepth
  have hsame := hk.nodesEqual_eq hi hshows
  have hlt : k < d.size := by
    apply hi.member_lt m k
    rw [members_of_pairs hm]
    exact List.mem_flatMap.2 ⟨(k, v), hkv, by simp⟩
  have hself : d.nodesEqual k key 0 = true := by
    rw [hsame]
    exact hi.nodesEqual_untagged_self hlt
  have hlook : d.lookupKey? m key 0 = some v := by
    refine ho.lookupKey_value hm hkv hself ?_
    intro q hq hqk
    rw [hsame] at hqk
    exact hone q hq hqk
  obtain ⟨p, hp, hstep⟩ := (Segment.ofJson _ key hkey (by simp [hroot])).ofText_text
  refine ⟨p, ?_, ?_⟩
  · rw [keySegment_complex hcomplex]
    exact hp
  · intro options hf
    rw [Parsed.execute_of_unmarked (f := .step (.mapKey (.complex (d.jsonValue k).compact key)) {}) hstep]
    apply execute_mapKey hf
    simp [Walk.lookup?, hroot, hlook]

/-- A list of a word and a number as key. -/
theorem execute_keySegment_list : ∃ d, read "? [a, 5]\n: v\n" = .ok d ∧ d.keySegment 1 = "\x7b[\"a\",5]\x7d" ∧
    ∃ p, Parsed.ofText (d.keySegment 1) = .ok p ∧ p.expr.execute d 0 { followAliases := false } = .ok [4] := by
  have hshape : (read "? [a, 5]\n: v\n").toOption.map (fun d => (d.pairs? 0, d.text? 1, d.content? 1)) =
      some (some [(1, 4)], none, some (.sequence [2, 3])) := by decide +kernel
  have hitems : (read "? [a, 5]\n: v\n").toOption.map (fun d => (d.content? 2, d.tag? 2, d.content? 3, d.tag? 3)) =
      some (some (.scalar "a" .plain), none, some (.scalar "5" .plain), none) := by decide +kernel
  have hkey : (read "? [a, 5]\n: v\n").toOption.map (fun d => (d.keySegment 1, (d.jsonValue 1).depth)) =
      some ("\x7b[\"a\",5]\x7d", 1) := by decide +kernel
  cases hread : read "? [a, 5]\n: v\n" with
  | error e =>
    rw [hread] at hshape
    simp [Except.toOption] at hshape
  | ok d =>
    rw [hread] at hshape hitems hkey
    simp only [Except.toOption, Option.map_some, Option.some.injEq, Prod.mk.injEq] at hshape hitems hkey
    obtain ⟨hpairs, htext, hcontent⟩ := hshape
    obtain ⟨hword, hwordTag, hnumber, hnumberTag⟩ := hitems
    have hverbatim : d.Verbatim 1 := by
      refine .sequence hcontent ?_
      intro c hc
      rcases List.mem_pair.1 hc with rfl | rfl
      · have ha : ScalarValue.resolve "a" .plain none = .string "a" := by decide +kernel
        exact .scalar hword (by rw [hwordTag, ha]; rfl) rfl
      · have h5 : ScalarValue.resolve "5" .plain none = .int 5 := by decide +kernel
        exact .scalar hnumber (by rw [hnumberTag, h5]; rfl) (by decide +kernel)
    have hmem : (1, 4) ∈ [(1, 4)] := by simp
    obtain ⟨p, hp, hexec⟩ := execute_keySegment hread hpairs hmem (.inl htext) hverbatim (by omega) (by simp)
    exact ⟨d, rfl, hkey.1, p, hp, hexec _ rfl⟩

/-- A number in another spelling than JSON has for it is not found again. -/
theorem execute_keySegment_hexadecimal : ∃ d, read "? [0x10]\n: v\n" = .ok d ∧ d.pairs? 0 = some [(1, 3)] ∧
    d.items? 1 = some [2] ∧ d.keySegment 1 = "\x7b[16]\x7d" ∧
      ∃ p, Parsed.ofText (d.keySegment 1) = .ok p ∧ p.expr.execute d 0 { followAliases := false } = .ok [] := by
  have hshape : (read "? [0x10]\n: v\n").toOption.map (fun d => (d.pairs? 0, d.items? 1, d.keySegment 1)) =
      some (some [(1, 3)], some [2], "\x7b[16]\x7d") := by decide +kernel
  have hrun : (read "? [0x10]\n: v\n").toOption.bind (fun d => (Parsed.ofText "\x7b[16]\x7d").toOption.bind fun p =>
      (p.expr.execute d 0 { followAliases := false }).toOption) = some [] := by decide +kernel
  cases hread : read "? [0x10]\n: v\n" with
  | error e =>
    rw [hread] at hshape
    simp [Except.toOption] at hshape
  | ok d =>
    rw [hread] at hshape hrun
    have hsome : (Except.ok d : Except Yaml.SyntaxError Document).toOption = some d := rfl
    rw [hsome] at hshape hrun
    rw [Option.bind_some] at hrun
    simp only [Option.map_some, Option.some.injEq, Prod.mk.injEq] at hshape
    obtain ⟨hpairs, hitems, hsegment⟩ := hshape
    obtain ⟨p, hp, hexec⟩ := Option.bind_eq_some_iff.1 hrun
    refine ⟨d, rfl, hpairs, hitems, hsegment, ?_⟩
    rw [hsegment]
    exact ⟨p, Outcome.eq_ok_of_toOption hp, Outcome.eq_ok_of_toOption hexec⟩

end Document
end YamlQuery
