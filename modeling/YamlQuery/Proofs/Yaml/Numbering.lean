import YamlQuery.Proofs.Document.Opening
import YamlQuery.Proofs.Outcome
/-!
The numbers of anchors in the events that are read. Node events carry them in order from one, there are no more than
anchors in the text, and an alias has a number that an event before it carries.
-/
namespace YamlQuery.Yaml

def AnchorId.toList (a : AnchorId) : List AnchorId := if 0 < a then [a] else []

def Event.numbers (es : List Event) : List AnchorId := es.flatMap fun e => AnchorId.toList e.anchor

/-- Behind events with the numbers `ns`, an alias has one of them or a number that an event before it carries. -/
def Event.GroundedAfter (ns : List AnchorId) (es : List Event) : Prop :=
  ∀ pre k post, es = pre ++ .reference k :: post → k ∈ ns ++ numbers pre

def anchorsIn (ts : List Token) : Nat := (Scanned.anchorNames ⟨ts, none⟩).length

structure Reader.Numbered (total : Nat) (ns : List AnchorId) (r : Reader) : Prop where
  order : ns = List.range' 1 ns.length
  next : r.nextAnchor = ns.length + 1
  known : ∀ x ∈ r.anchors, x.2 ∈ ns
  room : ns.length + anchorsIn r.tokens ≤ total

namespace Read
open Reader

variable {α β : Type} {m : Read α} {f : α → Read β} {total : Nat} {ns : List AnchorId} {r r' : Reader}

theorem bind_eq_ok {b : β} : (m >>= f) r = .ok (b, r') ↔ ∃ a s, m r = .ok (a, s) ∧ f a s = .ok (b, r') := by
  have hbind : (m >>= f) r = m r >>= fun p => f p.1 p.2 := rfl
  rw [hbind, Outcome.bind_eq_ok]
  exact Prod.exists

/-- A reading that gives the numbers `fresh` in addition to those before, with a result that is right for them. -/
def Gives (m : Read α) (fresh : α → List AnchorId) (right : List AnchorId → α → Prop) : Prop :=
  ∀ total ns r a r', Numbered total ns r → m r = .ok (a, r') → Numbered total (ns ++ fresh a) r' ∧ right ns a

def Keeps (m : Read α) : Prop := Gives m (fun _ => []) fun _ _ => True

def Bears (a : AnchorId) (m : Read Event) : Prop :=
  Gives m (fun _ => []) fun _ e => e.anchor = a ∧ ∀ k, e ≠ .reference k

def Emits (m : Read Event) : Prop :=
  Gives m (fun e => e.anchor.toList) fun ns e => ∀ k, e = .reference k → k ∈ ns

def Streams (events : α → List Event) (m : Read α) : Prop :=
  Gives m (fun a => Event.numbers (events a)) fun ns a => Event.GroundedAfter ns (events a)

def Continues (e : Event) (m : Read (List Event)) : Prop :=
  Gives m (fun es => Event.numbers es.tail) fun ns es => es = e :: es.tail ∧ Event.GroundedAfter ns es.tail

variable {fresh : β → List AnchorId} {right : List AnchorId → β → Prop}

theorem gives_throw (e : SyntaxError) : Gives (throw e : Read β) fresh right := by
  rintro total ns r _ _ h ⟨⟩

theorem Keeps.numbered (hm : Keeps m) (h : Numbered total ns r) {a : α} (hrun : m r = .ok (a, r')) :
    Numbered total ns r' := by
  have hr := (hm _ _ _ _ _ h hrun).1
  rwa [List.append_nil] at hr

theorem Keeps.bind (hm : Keeps m) (hf : ∀ a, Gives (f a) fresh right) : Gives (m >>= f) fresh right := by
  intro total ns r b r' h hrun
  obtain ⟨a, s, ha, hb⟩ := bind_eq_ok.1 hrun
  exact hf a _ _ _ _ _ (hm.numbered h ha) hb

theorem keeps_pure (a : α) : Keeps (pure a) := by
  rintro total ns r _ _ h ⟨⟩
  exact ⟨by simpa using h, trivial⟩

theorem bears_pure {e : Event} (he : ∀ k, e ≠ .reference k) : Bears e.anchor (pure e) := by
  rintro total ns r _ _ h ⟨⟩
  exact ⟨by simpa using h, rfl, he⟩

theorem Bears.emits {m : Read Event} (hm : Bears 0 m) : Emits m := by
  intro total ns r e r' h hrun
  obtain ⟨hr, ha, hne⟩ := hm _ _ _ _ _ h hrun
  refine ⟨?_, fun k hk => absurd hk (hne k)⟩
  simpa [ha, AnchorId.toList] using hr

theorem anchorsIn_cons (t : Token) (ts : List Token) : anchorsIn ts ≤ anchorsIn (t :: ts) := by
  unfold anchorsIn Scanned.anchorNames
  rw [List.filterMap_cons]
  split <;> simp

theorem anchorsIn_anchor {t : Token} {name : String} (ht : t.kind = .anchor name) (ts : List Token) :
    anchorsIn (t :: ts) = anchorsIn ts + 1 := by
  unfold anchorsIn Scanned.anchorNames
  simp [ht]

theorem peek_eq_ok {k : TokenKind} (h : peek r = .ok (k, r')) : r' = r ∧ ∃ t ts, r.tokens = t :: ts ∧ t.kind = k := by
  obtain ⟨s, s', hget, hk⟩ := bind_eq_ok.1 h
  cases hget
  cases ht : r.tokens with
  | nil => simp [ht, throw, throwThe, MonadExceptOf.throw, StateT.lift, bind, Except.bind] at hk
  | cons t ts =>
    rw [ht] at hk
    cases hk
    exact ⟨rfl, t, ts, rfl, rfl⟩

theorem keeps_peek : Keeps peek := by
  intro total ns r k r' h hrun
  obtain ⟨rfl, _⟩ := peek_eq_ok hrun
  exact ⟨by simpa using h, trivial⟩

theorem keeps_get : Keeps (get : Read Reader) := by
  rintro total ns r _ _ h ⟨⟩
  exact ⟨by simpa using h, trivial⟩

/-- A change of the reader that is not about anchors, and takes no tokens back. -/
theorem keeps_modify {f : Reader → Reader} (ha : ∀ r, (f r).anchors = r.anchors) (hn : ∀ r, (f r).nextAnchor = r.nextAnchor)
    (ht : ∀ r, anchorsIn (f r).tokens ≤ anchorsIn r.tokens) : Keeps (modify f : Read Unit) := by
  rintro total ns r _ _ h ⟨⟩
  refine ⟨?_, trivial⟩
  rw [List.append_nil]
  exact ⟨h.order, (hn r).trans h.next, (ha r).symm ▸ h.known, Nat.le_trans (Nat.add_le_add_left (ht r) _) h.room⟩

theorem keeps_skip : Keeps skip := by
  apply keeps_modify (f := fun r => { r with tokens := r.tokens.tail }) (fun _ => rfl) (fun _ => rfl)
  intro r
  cases ht : r.tokens with
  | nil => simp
  | cons t ts => exact anchorsIn_cons t ts

theorem keeps_expect (stack : List Expected) : Keeps (expect stack) :=
  keeps_modify (f := fun r => { r with expected := stack }) (fun _ => rfl) (fun _ => rfl) fun _ => Nat.le_refl _

theorem keeps_discard : Keeps (discard peek) := keeps_peek.bind fun _ => keeps_pure PUnit.unit

theorem keeps_skipStart (first : Bool) : Keeps (skipStart first) := by
  unfold skipStart
  cases first with
  | false => exact keeps_pure ()
  | true => exact keeps_discard.bind fun _ => keeps_skip

theorem keeps_resolveTag (handles : List (String × String)) (handle suffix : String) :
    Keeps (liftM (resolveTag handles handle suffix) : Read Tag) := by
  intro total ns r t r' h hrun
  cases ht : resolveTag handles handle suffix with
  | error e => simp [ht, liftM, monadLift, MonadLift.monadLift, StateT.lift, bind, Except.bind] at hrun
  | ok tag =>
    rw [ht] at hrun
    cases hrun
    exact ⟨by simpa using h, trivial⟩

theorem keeps_tagHere : Keeps tagHere := by
  apply keeps_peek.bind
  intro k
  cases k with
  | tag handle suffix =>
    exact keeps_skip.bind fun _ => keeps_get.bind fun _ => (keeps_resolveTag _ _ _).bind fun _ => keeps_pure _
  | _ => exact keeps_pure none

theorem numbered_anchor (h : Numbered total ns r) {t : Token} {ts : List Token} (ht : r.tokens = t :: ts) {name : String}
    (hk : t.kind = .anchor name) :
    Numbered total (ns ++ r.nextAnchor.toList) { r with
      tokens := r.tokens.tail
      anchors := (name, r.nextAnchor) :: r.anchors
      nextAnchor := r.nextAnchor + 1 } := by
  have hlist : r.nextAnchor.toList = [ns.length + 1] := by simp [AnchorId.toList, h.next]
  have hroom := h.room
  rw [ht, anchorsIn_anchor hk] at hroom
  rw [hlist]
  constructor
  · rw [List.length_append, List.length_singleton, List.range'_1_concat, ← h.order, Nat.add_comm 1]
  · simp [h.next]
  · intro x hx
    rcases List.mem_cons.1 hx with rfl | hx
    · simp [h.next]
    · exact List.mem_append_left _ (h.known x hx)
  · simp only [ht, List.tail_cons, List.length_append, List.length_singleton]
    omega

theorem gives_anchorHere : Gives anchorHere AnchorId.toList fun _ _ => True := by
  intro total ns r a r' h hrun
  obtain ⟨k, s, hpeek, hrest⟩ := bind_eq_ok.1 hrun
  obtain ⟨rfl, t, ts, ht, hk⟩ := peek_eq_ok hpeek
  refine ⟨?_, trivial⟩
  cases k with
  | anchor name =>
    cases hrest
    exact numbered_anchor h ht hk
  | _ =>
    cases hrest
    simpa [AnchorId.toList] using h

theorem gives_properties : Gives properties (fun p => p.1.toList) fun _ _ => True := by
  intro total ns r p r' h hrun
  obtain ⟨k, s, hpeek, hrest⟩ := bind_eq_ok.1 hrun
  obtain ⟨rfl, _⟩ := peek_eq_ok hpeek
  cases k with
  | anchor name =>
    obtain ⟨a, s, hanchor, htag⟩ := bind_eq_ok.1 hrest
    obtain ⟨t, s', ht, hp⟩ := bind_eq_ok.1 htag
    cases hp
    exact ⟨keeps_tagHere.numbered (gives_anchorHere _ _ _ _ _ h hanchor).1 ht, trivial⟩
  | tag handle suffix =>
    obtain ⟨t, s, ht, hanchor⟩ := bind_eq_ok.1 hrest
    obtain ⟨a, s', ha, hp⟩ := bind_eq_ok.1 hanchor
    cases hp
    exact gives_anchorHere _ _ _ _ _ (keeps_tagHere.numbered h ht) ha
  | _ =>
    cases hrest
    exact ⟨by simpa [AnchorId.toList] using h, trivial⟩

theorem bears_expect {e : Event} (stack : List Expected) (he : ∀ k, e ≠ .reference k) :
    Bears e.anchor (do expect stack; return e) :=
  (keeps_expect stack).bind fun _ => bears_pure he

theorem bears_missing (stack : List Expected) : Bears 0 (missing stack) :=
  bears_expect (e := .emptyScalar) stack nofun

theorem emits_properties {f : AnchorId × Option Tag → Read Event} (hf : ∀ p, Bears p.1 (f p)) :
    Emits (properties >>= f) := by
  intro total ns r e r' h hrun
  obtain ⟨p, s, hp, he⟩ := bind_eq_ok.1 hrun
  obtain ⟨hr, ha, hne⟩ := hf p _ _ _ _ _ (gives_properties _ _ _ _ _ h hp).1 he
  refine ⟨?_, fun k hk => absurd hk (hne k)⟩
  simpa only [ha, List.append_nil] using hr

theorem mem_of_lookup {name : String} {a : AnchorId} (h : Numbered total ns r) (hl : r.anchors.lookup name = some a) :
    a ∈ ns := by
  obtain ⟨before, after, he, _⟩ := List.lookup_eq_some_iff.1 hl
  exact h.known (name, a) (by simp [he])

theorem emits_node (block indentless : Bool) (after : List Expected) : Emits (node block indentless after) := by
  apply keeps_peek.bind
  intro k
  split
  · next name =>
    intro total ns r e r' h hrun
    obtain ⟨s, s', hget, hrest⟩ := bind_eq_ok.1 hrun
    cases hget
    cases hl : r.anchors.lookup name with
    | none => simp [hl, throw, throwThe, MonadExceptOf.throw, StateT.lift, bind, Except.bind] at hrest
    | some a =>
      simp only [hl] at hrest
      have hafter : Keeps (do expect after; skip; return Event.reference a) :=
        (keeps_expect after).bind fun _ => keeps_skip.bind fun _ => keeps_pure _
      have hr := hafter.numbered h hrest
      cases hrest
      refine ⟨by simpa [Event.anchor, AnchorId.toList] using hr, ?_⟩
      rintro k ⟨⟩
      exact mem_of_lookup h hl
  · apply emits_properties
    rintro ⟨anchor, tag⟩
    have hempty : ∀ stack, Bears anchor (do expect stack; return .scalar "" .plain anchor tag) :=
      fun stack => bears_expect stack nofun
    have hsequence : ∀ stack, Bears anchor (do expect stack; return .sequenceStart anchor tag) :=
      fun stack => bears_expect stack nofun
    have hmapping : ∀ stack, Bears anchor (do expect stack; return .mappingStart anchor tag) :=
      fun stack => bears_expect stack nofun
    apply keeps_peek.bind
    intro k
    split
    · split
      · exact hsequence _
      · split
        · exact hempty _
        · exact gives_throw _
    · exact (keeps_expect after).bind fun _ => keeps_skip.bind fun _ => bears_pure nofun
    · exact hsequence _
    · exact hmapping _
    · split
      · exact hsequence _
      · split
        · exact hmapping _
        · split
          · exact hempty _
          · exact gives_throw _

theorem emits_value (c : Prop) [Decidable c] (block indentless : Bool) (stack : List Expected) :
    Emits (if c then missing stack else node block indentless stack) := by
  split
  · exact (bears_missing stack).emits
  · exact emits_node block indentless stack

theorem emits_end {e : Event} (he : e.anchor = 0) (hne : ∀ k, e ≠ .reference k) (after : List Expected) :
    Emits (do expect after; skip; return e) := by
  apply Bears.emits
  rw [← he]
  exact (keeps_expect after).bind fun _ => keeps_skip.bind fun _ => bears_pure hne

theorem emits_blockMappingKey (after : List Expected) : Emits (blockMappingKey after) := by
  apply keeps_peek.bind
  intro k
  split
  · exact keeps_skip.bind fun _ => keeps_peek.bind fun _ => emits_value _ _ _ _
  · exact (bears_missing _).emits
  · exact emits_end (e := .mappingEnd) rfl nofun after
  · exact gives_throw _

theorem emits_blockMappingValue (after : List Expected) : Emits (blockMappingValue after) := by
  apply keeps_peek.bind
  intro k
  split
  · exact keeps_skip.bind fun _ => keeps_peek.bind fun _ => emits_value _ _ _ _
  · exact (bears_missing _).emits

theorem emits_blockSequence (after : List Expected) : Emits (blockSequence after) := by
  apply keeps_peek.bind
  intro k
  split
  · exact emits_end (e := .sequenceEnd) rfl nofun after
  · exact keeps_skip.bind fun _ => keeps_peek.bind fun _ => emits_value _ _ _ _
  · exact gives_throw _

theorem emits_indentlessSequence (after : List Expected) : Emits (indentlessSequence after) := by
  apply keeps_peek.bind
  intro k
  split
  · exact keeps_skip.bind fun _ => keeps_peek.bind fun _ => emits_value _ _ _ _
  · exact (bears_expect (e := .sequenceEnd) after nofun).emits

/-- An entry of a flow collection; all but the first stand behind a comma. -/
theorem emits_entry (first : Bool) {entry : PUnit → Read Event} (h : ∀ u, Emits (entry u)) :
    Emits (if first then entry ⟨⟩ else do
      if (← peek) = .flowEntry then
        let u ← skip
        entry u
      else
        let u ← throw SyntaxError.unexpectedToken
        entry u) := by
  split
  · exact h ⟨⟩
  · apply keeps_peek.bind
    intro k
    split
    · exact keeps_skip.bind h
    · exact Keeps.bind (gives_throw _) h

theorem emits_flowSequence (first : Bool) (after : List Expected) : Emits (flowSequence first after) := by
  have hend : Emits (endFlowSequence after) := emits_end (e := .sequenceEnd) rfl nofun after
  apply keeps_peek.bind
  intro k
  split
  · exact hend
  · refine @emits_entry first (fun _ => _) fun _ => ?_
    apply keeps_peek.bind
    intro k
    split
    · exact hend
    · have hstart : Bears 0 (do expect (.pairKey :: after); skip; return .mappingStart 0 none) :=
        (keeps_expect _).bind fun _ => keeps_skip.bind fun _ => bears_pure nofun
      exact hstart.emits
    · exact emits_node _ _ _

theorem emits_pairKey (after : List Expected) : Emits (pairKey after) := by
  apply keeps_peek.bind
  intro k
  split
  · exact keeps_skip.bind fun _ => (bears_missing _).emits
  · exact emits_node _ _ _

theorem emits_pairValue (after : List Expected) : Emits (pairValue after) := by
  apply keeps_peek.bind
  intro k
  split
  · exact keeps_skip.bind fun _ => keeps_peek.bind fun _ => emits_value _ _ _ _
  · exact (bears_missing _).emits

theorem emits_flowMappingKey (first : Bool) (after : List Expected) : Emits (flowMappingKey first after) := by
  have hend : Emits (endFlowMapping after) := emits_end (e := .mappingEnd) rfl nofun after
  apply keeps_peek.bind
  intro k
  split
  · exact hend
  · refine @emits_entry first (fun _ => _) fun _ => ?_
    apply keeps_peek.bind
    intro k
    split
    · exact keeps_skip.bind fun _ => keeps_peek.bind fun _ => emits_value _ _ _ _
    · exact (bears_missing _).emits
    · exact hend
    · exact emits_node _ _ _

theorem emits_flowMappingValue (after : List Expected) : Emits (flowMappingValue after) := by
  apply keeps_peek.bind
  intro k
  split
  · exact keeps_skip.bind fun _ => keeps_peek.bind fun _ => emits_value _ _ _ _
  · exact (bears_missing _).emits

theorem emits_documentContent (after : List Expected) : Emits (documentContent after) :=
  keeps_peek.bind fun _ => emits_value _ _ _ _

theorem emits_documentEnd : Emits documentEnd := by
  apply keeps_peek.bind
  intro k
  split
  · exact gives_throw _
  · exact gives_throw _
  · exact (bears_expect (e := .documentEnd) [] nofun).emits

/-- Events that are neither given an anchor nor aliases. -/
theorem streams_pure {events : α → List Event} {a : α} (h : ∀ e ∈ events a, e.anchor = 0 ∧ ∀ k, e ≠ .reference k) :
    Streams events (pure a) := by
  rintro total ns r _ _ hr ⟨⟩
  have hnone : Event.numbers (events a) = [] := by
    apply List.flatMap_eq_nil_iff.2
    intro e he
    rw [(h e he).1]
    rfl
  refine ⟨by simpa [hnone] using hr, fun pre k post heq => ?_⟩
  exact absurd rfl ((h (.reference k) (by simp [heq])).2 k)

theorem Emits.streams {m : Read Event} (hm : Emits m) : Streams Option.toList (do return some (← m)) := by
  intro total ns r o r' h hrun
  obtain ⟨e, s, he, ho⟩ := bind_eq_ok.1 hrun
  cases ho
  obtain ⟨hs, hk⟩ := hm _ _ _ _ _ h he
  refine ⟨by simpa [Event.numbers] using hs, ?_⟩
  intro pre k post heq
  cases pre with
  | nil =>
    have hfirst : e = .reference k ∧ [] = post := by simpa using heq
    simpa [Event.numbers] using hk k hfirst.1
  | cons e' pre => simp at heq

theorem streams_next : Streams Option.toList next := by
  apply keeps_get.bind
  intro r
  split
  · exact streams_pure (by simp)
  · next e after _ =>
    cases e with
    | blockNode => exact (emits_node _ _ _).streams
    | documentContent => exact (emits_documentContent _).streams
    | documentEnd => exact emits_documentEnd.streams
    | blockSequence first => exact (keeps_skipStart first).bind fun _ => (emits_blockSequence _).streams
    | indentlessSequence => exact (emits_indentlessSequence _).streams
    | blockMappingKey first => exact (keeps_skipStart first).bind fun _ => (emits_blockMappingKey _).streams
    | blockMappingValue => exact (emits_blockMappingValue _).streams
    | flowSequence first => exact (keeps_skipStart first).bind fun _ => (emits_flowSequence _ _).streams
    | flowMappingKey first => exact (keeps_skipStart first).bind fun _ => (emits_flowMappingKey _ _).streams
    | flowMappingValue => exact (emits_flowMappingValue _).streams
    | flowMappingNoValue => exact (bears_missing _).emits.streams
    | pairKey => exact (emits_pairKey _).streams
    | pairValue => exact (emits_pairValue _).streams
    | pairEnd =>
      exact keeps_discard.bind fun _ => (keeps_expect _).bind fun _ => streams_pure (by simp [Event.anchor])

theorem numbers_cons (e : Event) (es : List Event) : Event.numbers (e :: es) = Event.numbers [e] ++ Event.numbers es := by
  simp [Event.numbers]

theorem Streams.continues {m : Read (List Event)} (hm : Streams id m) (e : Event) :
    Continues e (do return e :: (← m)) := by
  intro total ns r es r' h hrun
  obtain ⟨after, s, hafter, hes⟩ := bind_eq_ok.1 hrun
  cases hes
  obtain ⟨hr, hgrounded⟩ := hm _ _ _ _ _ h hafter
  exact ⟨hr, rfl, hgrounded⟩

theorem Streams.cons {m : Read (Option Event)} {f : Event → Read (List Event)} (hm : Streams Option.toList m)
    (hf : ∀ e, Continues e (f e)) :
    Streams id (do
      match ← m with
      | some e => f e
      | none => return []) := by
  intro total ns r es r' h hrun
  obtain ⟨o, s, ho, hes⟩ := bind_eq_ok.1 hrun
  obtain ⟨hs, hfirst⟩ := hm _ _ _ _ _ h ho
  cases o with
  | none =>
    cases hes
    exact ⟨hs, fun pre k post heq => by simp at heq⟩
  | some e =>
    obtain ⟨hs', hes', hlater⟩ := hf e _ _ _ _ _ hs hes
    generalize es.tail = after at hs' hes' hlater
    subst hes'
    constructor
    · show Numbered total (ns ++ Event.numbers (e :: after)) r'
      rw [numbers_cons, ← List.append_assoc]
      exact hs'
    · intro pre k post heq
      -- an alias is the event itself, with a number given before, or one of those behind it
      cases pre with
      | nil =>
        obtain ⟨rfl, _⟩ : e = .reference k ∧ after = post := by simpa using heq
        exact hfirst [] k [] rfl
      | cons e' pre =>
        obtain ⟨rfl, htail⟩ : e = e' ∧ after = pre ++ .reference k :: post := by simpa using heq
        rw [numbers_cons, ← List.append_assoc]
        exact hlater pre k post htail

theorem streams_rest (fuel : Nat) : Streams id (rest fuel) := by
  induction fuel with
  | zero => exact streams_pure (by simp)
  | succ fuel ih => exact streams_next.cons fun e => ih.continues e

theorem keeps_directives (fuel : Nat) (versioned : Bool) : Keeps (directives fuel versioned) := by
  induction fuel generalizing versioned with
  | zero => exact keeps_pure ()
  | succ fuel ih =>
    apply keeps_peek.bind
    intro k
    split
    · have hclear : Keeps (modify fun r => { r with handles := [] } : Read Unit) :=
        keeps_modify (fun _ => rfl) (fun _ => rfl) fun _ => Nat.le_refl _
      have hrest : Keeps (do modify fun r => { r with handles := [] }; skip; directives fuel true) :=
        hclear.bind fun _ => keeps_skip.bind fun _ => ih true
      split
      · exact Keeps.bind (gives_throw _) fun _ => hrest
      · exact hrest
    · next handle expansion =>
      have hhandles : Keeps (modify fun r => { r with handles := [(handle, expansion)] } : Read Unit) :=
        keeps_modify (fun _ => rfl) (fun _ => rfl) fun _ => Nat.le_refl _
      exact hhandles.bind fun _ => keeps_skip.bind fun _ => ih versioned
    · exact keeps_pure ()

theorem anchorsIn_skipDocumentEnds (ts : List Token) : anchorsIn (skipDocumentEnds ts) ≤ anchorsIn ts := by
  induction ts with
  | nil => exact Nat.le_refl _
  | cons t ts ih =>
    unfold skipDocumentEnds
    split
    · exact Nat.le_trans ih (anchorsIn_cons t ts)
    · exact Nat.le_refl _

theorem streams_documentStart : Streams Option.toList documentStart := by
  have hskip : Keeps (modify fun r => { r with tokens := skipDocumentEnds r.tokens } : Read Unit) :=
    keeps_modify (fun _ => rfl) (fun _ => rfl) fun r => anchorsIn_skipDocumentEnds r.tokens
  have hstart : ∀ stack, Streams Option.toList (do expect stack; return some Event.documentStart) :=
    fun stack => (keeps_expect stack).bind fun _ => streams_pure (by simp [Event.anchor])
  apply hskip.bind
  intro _
  apply keeps_peek.bind
  intro k
  split
  -- the stream ends, a document starts without a marker, or the marker follows the directives
  all_goals first
    | exact streams_pure (by simp)
    | exact hstart _
    | refine keeps_get.bind fun _ => (keeps_directives _ _).bind fun _ => keeps_peek.bind fun k => ?_
      split
      · exact keeps_skip.bind fun _ => hstart _
      · exact gives_throw _

theorem streams_document : Streams id document := by
  have hevents : Streams id (do
      match ← documentStart with
      | some e => return e :: (← rest (4 * (← get).tokens.length + 8))
      | none => return []) :=
    streams_documentStart.cons fun e => keeps_get.bind fun _ => (streams_rest _).continues e
  apply keeps_peek.bind
  intro k
  split
  · exact keeps_skip.bind fun _ => hevents
  · exact Keeps.bind (gives_throw _) fun _ => hevents

end Read

def Event.Grounded (es : List Event) : Prop := ∀ pre k post, es = pre ++ .reference k :: post → k ∈ numbers pre

structure Event.WellNumbered (total : Nat) (es : List Event) : Prop where
  order : numbers es = List.range' 1 (numbers es).length
  room : (numbers es).length ≤ total
  grounded : Grounded es

theorem Event.wellNumbered_ofScanned {s : Scanned} {es : List Event} (h : ofScanned? s = .ok es) :
    WellNumbered s.anchorNames.length es := by
  obtain ⟨⟨_, r⟩, hrun, rfl⟩ := Outcome.map_eq_ok.1 h
  have hstart : Reader.Numbered s.anchorNames.length [] { tokens := s.tokens, failure := s.failure } :=
    ⟨rfl, rfl, by simp, by simp [anchorsIn, Scanned.anchorNames]⟩
  obtain ⟨hnumbered, hgrounded⟩ := Read.streams_document _ _ _ _ _ hstart hrun
  exact ⟨hnumbered.order, Nat.le_trans (Nat.le_add_right _ _) hnumbered.room, hgrounded⟩

end YamlQuery.Yaml
