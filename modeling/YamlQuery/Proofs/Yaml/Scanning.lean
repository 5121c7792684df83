import YamlQuery.Proofs.Outcome
import YamlQuery.Yaml.Token.Stream
/-!
What reading does to its state: equations for the small steps of a scanner, and what one token of a flow collection changes.
-/
namespace YamlQuery.Yaml
open Outcome

namespace Scanner

def moved (s : Scanner) (rest : List Char) (place : Place) : Scanner := { s with rest, place, leading := false }

def pushed (s : Scanner) (place : Place) (kind : TokenKind) : Scanner := { s with queue := s.queue.push ⟨place, kind⟩ }

def kinds (s : Scanner) : List TokenKind := s.queue.toList.map (·.kind)

end Scanner

def Place.next (p : Place) : Place := { p with index := p.index + 1, column := p.column + 1 }

namespace Scan
variable {α β : Type} {s : Scanner} {c : Char} {cs : List Char}

theorem bind_apply (m : Scan α) (f : α → Scan β) (s : Scanner) : (m >>= f) s = m s >>= fun p => f p.1 p.2 := rfl

theorem pure_apply (a : α) (s : Scanner) : (pure a : Scan α) s = .ok (a, s) := rfl

theorem get_apply (s : Scanner) : (get : Scan Scanner) s = .ok (s, s) := rfl

theorem modify_apply (f : Scanner → Scanner) (s : Scanner) : (modify f : Scan Unit) s = .ok ((), f s) := rfl

theorem modifyGet_apply (f : Scanner → α × Scanner) (s : Scanner) : (modifyGet f : Scan α) s = .ok (f s) := rfl

theorem set_apply (t s : Scanner) : (set t : Scan Unit) s = .ok ((), t) := rfl

theorem discard_apply (m : Scan α) (s : Scanner) : (discard m) s = (m s).map fun p => ((), p.2) := by
  show (m s >>= fun p => .ok ((), p.2)) = _
  cases m s <;> rfl

theorem peek_apply (s : Scanner) : peek s = .ok (s.rest.head?, s) := rfl

theorem peekAt_apply (n : Nat) (s : Scanner) : peekAt n s = .ok (s.rest[n]?, s) := rfl

theorem skip_apply (h : s.rest = c :: cs) : skip s = .ok ((), s.moved cs s.place.next) := by
  obtain ⟨rest⟩ := s
  obtain rfl : rest = c :: cs := h
  rfl

theorem push_apply (place : Place) (kind : TokenKind) (s : Scanner) : push place kind s = .ok ((), s.pushed place kind) := rfl

theorem allowKey_apply (b : Bool) (s : Scanner) : allowKey b s = .ok ((), { s with simpleKeyAllowed := b }) := rfl

theorem inFlow_apply (s : Scanner) : inFlow s = .ok (decide (s.flowLevel > 0), s) := rfl

theorem column_apply (s : Scanner) : column s = .ok (s.place.column, s) := rfl

theorem outsideIndent_apply (s : Scanner) : outsideIndent s = .ok (decide ((s.place.column : Int) < s.indent), s) := rfl

theorem atMarker_apply (c : Char) (s : Scanner) : ∃ b, atMarker c s = .ok (b, s) := by
  simp only [atMarker, bind_apply, get_apply, bind_ok]
  match s.rest with
  | [] | [_] | [_, _] | _ :: _ :: _ :: _ => exact ⟨_, rfl⟩

theorem atMarker_of_ne {m : Char} (hr : s.rest = c :: cs) (hc : c ≠ m) : atMarker m s = .ok (false, s) := by
  have hne : (c == m) = false := beq_eq_false_iff_ne.2 hc
  simp only [atMarker, bind_apply, get_apply, bind_ok, hr]
  match cs with
  | [] | [_] => rfl
  | _ :: _ :: _ =>
    simp only [hne, Bool.false_and]
    rfl

theorem atDocumentMarker_apply (h : 0 < s.place.column) : atDocumentMarker s = .ok (false, s) := by
  have hcolumn : s.place.column ≠ 0 := Nat.ne_of_gt h
  simp only [atDocumentMarker, bind_apply, column_apply, bind_ok, hcolumn, ↓reduceIte, pure_apply]

def Solid (cs : List Char) : Prop := ∀ c ∈ cs.head?, isSpaceOrBreak c = false ∧ c ≠ '#'

theorem solid_nil : Solid [] := fun _ hc => by simp at hc

theorem solid_cons (hc : isSpaceOrBreak c = false ∧ c ≠ '#') (cs : List Char) : Solid (c :: cs) := by
  intro d hd
  obtain rfl : c = d := Option.some.inj hd
  exact hc

theorem Solid.takeWhile_eq_nil (h : Solid cs) {p : Char → Bool} (hp : ∀ c, p c = true → isSpaceOrBreak c = true) :
    cs.takeWhile p = [] ∧ cs.dropWhile p = cs := by
  cases cs with
  | nil => exact ⟨rfl, rfl⟩
  | cons c cs =>
    have hc : p c = false := by
      rw [Bool.eq_false_iff]
      intro hpc
      have hno := (h c rfl).1
      rw [hp c hpc] at hno
      simp at hno
    simp [hc]

theorem skipToLineEnd_solid (h : Solid s.rest) (tabs : Bool) : skipToLineEnd tabs s = .ok (⟨false, false⟩, s) := by
  have hspace : ∀ c, (c == ' ' || (tabs && c == '\t')) = true → isSpaceOrBreak c = true := by
    intro c hc
    simp only [Bool.or_eq_true, Bool.and_eq_true, beq_iff_eq] at hc
    rcases hc with rfl | ⟨-, rfl⟩ <;> rfl
  obtain ⟨ht, hd⟩ := h.takeWhile_eq_nil hspace
  have hhead : s.rest.head? ≠ some '#' := fun he => (h '#' he).2 rfl
  simp only [skipToLineEnd, bind_apply, Scan.takeWhile, modifyGet_apply, ht, hd, bind_ok, peek_apply, hhead, ↓reduceIte]
  rfl

theorem skipToToken_solid (h : Solid s.rest) (n : Nat) : skipToToken n s = .ok ((), s) := by
  cases n with
  | zero => rfl
  | succ n =>
    rw [skipToToken, bind_apply, peek_apply, bind_ok]
    cases hr : s.rest with
    | nil => rfl
    | cons c cs =>
      obtain ⟨hspace, hcomment⟩ := h c (by simp [hr])
      dsimp only [List.head?_cons]
      refine (congrFun (?_ : _ = (pure () : Scan Unit)) s).trans rfl
      split
      all_goals first
        | rfl
        | next hc =>
          cases hc
          first | exact absurd hspace (by decide) | exact absurd rfl hcomment

theorem skipSpaceAndComments_solid (h : Solid s.rest) : skipSpaceAndComments s = .ok ((), s) :=
  skipToToken_solid h s.fuel

end Scan

def Scanner.savedKeys (s : Scanner) : List SimpleKey :=
  if s.simpleKeyAllowed then ⟨true, false, s.delivered + s.queue.size, s.place⟩ :: s.simpleKeys.tail else s.simpleKeys

namespace Scan

variable {α β : Type} {s : Scanner} {c : Char} {cs : List Char}

theorem saveKey_apply (h : s.indents = []) : saveKey s = .ok ((), { s with simpleKeys := s.savedKeys }) := by
  rw [saveKey, modify_apply, Scanner.savedKeys]
  split
  · simp [h]
  · rfl

theorem rollOne_apply (h : s.indents = []) : rollOne s = .ok ((), s) := by
  simp only [rollOne, modify_apply, h]

theorem unrollOnes_apply (h : s.indents = []) : unrollOnes s = .ok ((), s) := by
  simp only [unrollOnes, modify_apply, h, dropOnes]
  rw [← h]

theorem unroll_apply (h : s.indents = []) (column : Int) : unroll column s = .ok ((), s) := by
  simp only [unroll, modify_apply, h, unrollFrom]
  split
  · rfl
  · rw [← h]

theorem roll_flow (h : 0 < s.flowLevel) (column : Nat) (before? : Option Nat) (kind : TokenKind) (place : Place) :
    roll column before? kind place s = .ok ((), s) := by
  have hflow : decide (s.flowLevel > 0) = true := decide_eq_true h
  simp only [roll, bind_apply, inFlow_apply, bind_ok, hflow, ↓reduceIte]
  rfl

theorem removeKey_apply {k : SimpleKey} {ks : List SimpleKey} (h : s.simpleKeys = k :: ks) (hk : k.required = false) :
    removeKey s = .ok ((), { s with simpleKeys := { k with possible := false } :: ks }) := by
  simp only [removeKey, bind_apply, get_apply, bind_ok, h, hk, Bool.and_false, Bool.false_eq_true, ↓reduceIte,
    modify_apply]

theorem closePair_apply (h : true ∉ s.pairOpen) (place : Place) : closePair place s = .ok ((), s) := by
  simp only [closePair, bind_apply, get_apply, bind_ok]
  refine (congrFun (?_ : _ = (pure () : Scan Unit)) s).trans rfl
  split
  · next hp => exact absurd (by simp [hp]) h
  · rfl

theorem flowStart_apply (hi : s.indents = []) (hr : s.rest = c :: cs) (hs : Solid cs) (hl : s.flowLevel < 255)
    (kind : TokenKind) : flowStart kind s = .ok ((), Scanner.pushed (Scanner.moved { s with
        simpleKeys := {} :: s.savedKeys
        flowLevel := s.flowLevel + 1
        simpleKeyAllowed := true
        flowMappingStarted := s.flowMappingStarted || kind = .flowMappingStart
        pairOpen := if kind = .flowMappingStart then s.pairOpen else false :: s.pairOpen }
      cs s.place.next) s.place kind) := by
  have hdeep : ¬s.flowLevel + 1 > 255 := by omega
  simp only [flowStart, bind_apply, saveKey_apply hi, rollOne_apply, hi, bind_ok, openFlow, modify_apply, get_apply, hdeep,
    ↓reduceIte, pure_apply, allowKey_apply]
  rw [skip_apply (by exact hr), bind_ok]
  by_cases hk : kind = .flowMappingStart
  · simp only [hk, ↓reduceIte, bind_apply, modify_apply, bind_ok, discard_apply]
    rw [skipToLineEnd_solid (by exact hs), Except.map, bind_ok, push_apply]
    simp [Scanner.moved, Scanner.pushed, Place.next]
  · simp only [hk, ↓reduceIte, bind_apply, modify_apply, bind_ok, discard_apply]
    rw [skipToLineEnd_solid (by exact hs), Except.map, bind_ok, push_apply]
    simp [Scanner.moved, Scanner.pushed, Place.next]

variable {k : SimpleKey} {ks : List SimpleKey}

theorem flowEnd_apply (hk : s.simpleKeys = k :: ks) (hreq : k.required = false) (hp : true ∉ s.pairOpen)
    (hr : s.rest = c :: cs) (hs : Solid cs) (hl : 0 < s.flowLevel) (kind : TokenKind) :
    flowEnd kind s = .ok ((), Scanner.pushed (Scanner.moved { s with
        simpleKeys := ks
        flowLevel := s.flowLevel - 1
        simpleKeyAllowed := false
        pairOpen := if kind = .flowSequenceEnd then s.pairOpen.tail else s.pairOpen
        adjacentValueAt := if s.flowLevel - 1 > 0 then s.place.index + 1 else s.adjacentValueAt }
      cs s.place.next) s.place kind) := by
  simp only [flowEnd, bind_apply, removeKey_apply hk hreq, bind_ok, closeFlow, modify_apply, hl, ↓reduceIte, List.tail_cons,
    allowKey_apply]
  by_cases hkind : kind = .flowSequenceEnd
  · simp only [hkind, ↓reduceIte, bind_apply, get_apply, bind_ok]
    rw [closePair_apply (by exact hp), bind_ok, modify_apply, bind_ok, skip_apply (by exact hr), bind_ok, discard_apply,
      skipToLineEnd_solid (by exact hs), Except.map, bind_ok]
    simp only [modify_apply, bind_ok, push_apply]
    by_cases hlast : s.flowLevel - 1 > 0 <;> simp [hlast, Scanner.moved, Scanner.pushed, Place.next]
  · simp only [hkind, ↓reduceIte, bind_apply, get_apply, bind_ok]
    rw [skip_apply (by exact hr), bind_ok, discard_apply, skipToLineEnd_solid (by exact hs), Except.map, bind_ok]
    simp only [modify_apply, bind_ok, push_apply]
    by_cases hlast : s.flowLevel - 1 > 0 <;> simp [hlast, Scanner.moved, Scanner.pushed, Place.next]

theorem flowEntry_apply (hk : s.simpleKeys = k :: ks) (hreq : k.required = false) (hp : true ∉ s.pairOpen)
    (hr : s.rest = c :: cs) (hs : Solid cs) :
    flowEntry s = .ok ((), Scanner.pushed (Scanner.moved { s with
        simpleKeys := { k with possible := false } :: ks
        simpleKeyAllowed := true }
      cs s.place.next) s.place .flowEntry) := by
  simp only [flowEntry, bind_apply, removeKey_apply hk hreq, bind_ok, allowKey_apply, get_apply]
  rw [closePair_apply (by exact hp), bind_ok, skip_apply (by exact hr), bind_ok, discard_apply,
    skipToLineEnd_solid (by exact hs), Except.map, bind_ok, push_apply]

/-- A colon behind a key in a flow mapping. -/
theorem value_apply (hk : s.simpleKeys = k :: ks) (hkey : k.possible = true) (hm : s.flowMappingStarted = true)
    (hi : s.indents = []) (hr : s.rest = c :: cs) (hs : Solid cs) (hl : 0 < s.flowLevel) :
    value s = .ok ((), Scanner.pushed (Scanner.moved { s with
        queue := s.queue.extract 0 (k.number - s.delivered) ++ #[⟨k.place, .key⟩] ++
          s.queue.extract (k.number - s.delivered) s.queue.size
        simpleKeys := { k with possible := false } :: ks
        simpleKeyAllowed := false }
      cs s.place.next) s.place .value) := by
  have htab : ∀ t : Scanner, Solid t.rest → checkTabAfterColon t = .ok ((), t) := by
    intro t ht
    have hhead : t.rest.head? ≠ some '\t' := fun he => absurd (ht '\t' he).1 (by decide)
    simp only [checkTabAfterColon, bind_apply, peek_apply, bind_ok, hhead, ↓reduceIte, pure_apply]
  simp only [value, bind_apply, get_apply, bind_ok, hm, Bool.not_true, Bool.and_false, Bool.false_eq_true, ↓reduceIte, hk,
    List.head?_cons, Option.getD_some, hkey]
  rw [skip_apply hr, bind_ok, htab _ (by exact hs), bind_ok]
  simp only [insertBefore, modify_apply, bind_ok]
  rw [roll_flow (by exact hl), bind_ok, rollOne_apply (by exact hi), bind_ok]
  simp [push_apply, Scanner.moved, Scanner.pushed, hk, hm]

/-- The places for keys within `level` flow collections of a text that holds nothing else. A key may start at the first of
them, so no token behind that place can be handed out. -/
structure Held (level : Nat) (ks : List SimpleKey) : Prop where
  length : ks.length = level + 1
  optional : ∀ k ∈ ks, k.required = false
  outermost : ∃ k, ks.getLast? = some k ∧ k.possible = true ∧ k.number = 1

theorem Held.cons {level : Nat} (h : Held level ks) (hk : k.required = false) : Held (level + 1) (k :: ks) where
  length := by rw [List.length_cons, h.length]
  optional := List.forall_mem_cons.2 ⟨hk, h.optional⟩
  outermost := by
    obtain ⟨j, hj, hheld⟩ := h.outermost
    exact ⟨j, by rw [List.getLast?_cons, hj]; rfl, hheld⟩

theorem Held.exists_cons {level : Nat} (h : Held (level + 1) ks) : ∃ k js, ks = k :: js ∧ k.required = false ∧ Held level js := by
  cases ks with
  | nil => simpa using h.length
  | cons k js =>
    have hlen : js.length = level + 1 := Nat.succ.inj h.length
    refine ⟨k, js, rfl, h.optional k (List.mem_cons_self ..), hlen, fun j hj => h.optional j (List.mem_cons_of_mem k hj), ?_⟩
    obtain ⟨j, hj, hheld⟩ := h.outermost
    have hne : js ≠ [] := List.ne_nil_of_length_pos (by omega)
    rw [List.getLast?_cons_of_ne_nil hne] at hj
    exact ⟨j, hj, hheld⟩

structure InFlow (level : Nat) (s : Scanner) : Prop where
  started : s.started = true
  delivered : s.delivered = 1
  fuel : s.rest.length < s.fuel
  flowLevel : s.flowLevel = level
  indent : s.indent = -1
  indents : s.indents = []
  column : 0 < s.place.column
  pairs : true ∉ s.pairOpen
  keys : Held level s.simpleKeys

theorem foldl_min_eq_zero {f : SimpleKey → Nat} {ks : List SimpleKey} {k : SimpleKey} (h : k ∈ ks) (hk : f k = 0) (n : Nat) :
    ks.foldl (fun n k => min n (f k)) n = 0 := by
  have hle : ∀ (ks : List SimpleKey) (n : Nat), ks.foldl (fun n k => min n (f k)) n ≤ n := by
    intro ks
    induction ks with
    | nil => exact fun n => Nat.le_refl n
    | cons k ks ih => exact fun n => Nat.le_trans (ih _) (Nat.min_le_left _ _)
  induction ks generalizing n with
  | nil => simp at h
  | cons j js ih =>
    rw [List.foldl_cons]
    rcases List.mem_cons.1 h with rfl | h
    · have := hle js (min n (f k))
      omega
    · exact ih h _

theorem staleKeys_flow (h : 0 < s.flowLevel) : staleKeys s = .ok ((), s) := by
  have hstale : ∀ k, isStale s k = false := by
    intro k
    have hne : s.flowLevel ≠ 0 := by omega
    simp [isStale, hne]
  have hany : (s.simpleKeys.any fun k => isStale s k && k.required) = false := by simp [hstale]
  simp only [staleKeys, bind_apply, get_apply, bind_ok, hany, Bool.false_eq_true, ↓reduceIte, set_apply]
  simp [hstale]

theorem InFlow.deliver {level : Nat} (h : InFlow level s) (hl : 0 < level) : Scan.deliver s = .ok ([], s) := by
  obtain ⟨k, hlast, hk, hnumber⟩ := h.keys.outermost
  have havailable : available s = 0 := by
    have hmem : k ∈ s.simpleKeys.filter (·.possible) := List.mem_filter.2 ⟨List.mem_of_getLast? hlast, hk⟩
    exact foldl_min_eq_zero hmem (by rw [hnumber, h.delivered]) _
  rw [Scan.deliver, bind_apply, staleKeys_flow (h.flowLevel ▸ hl), bind_ok, modifyGet_apply, havailable]
  simp

theorem InFlow.step {level : Nat} (h : InFlow level s) (hl : 0 < level) (hr : s.rest = c :: cs) (hs : Solid s.rest) :
    Scan.step s = content c s := by
  have hcolumn : s.place.column ≠ 0 := Nat.ne_of_gt h.column
  obtain ⟨_, hstart⟩ := atMarker_apply '-' s
  obtain ⟨_, hend⟩ := atMarker_apply '.' s
  have hindent : ¬((s.place.column : Int) < s.indent) := by
    rw [h.indent]
    omega
  simp only [Scan.step, bind_apply, get_apply, bind_ok, h.started, Bool.not_true, Bool.false_eq_true, ↓reduceIte,
    skipSpaceAndComments_solid hs, staleKeys_flow (h.flowLevel ▸ hl), column_apply, unroll_apply h.indents, peek_apply, hr,
    List.head?_cons, hcolumn, decide_false, Bool.false_and, hstart, hend, outsideIndent_apply, hindent]

end Scan
end YamlQuery.Yaml
