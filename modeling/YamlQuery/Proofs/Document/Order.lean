import YamlQuery.Proofs.Document.Integrity
/-!
Ids in the order of the source. Whatever the events, all that an earlier member of a collection holds was added before the
later members, because the nodes that wait for their collections are attached in the order in which they were opened.
-/
namespace YamlQuery
open Relation

namespace Document

def Above (d : Document) (a b : NodeId) : Prop := ∀ x, ReflTransGen d.Holds b x → x < a

def Ordered (d : Document) : Prop := ∀ p, (d.members p).Pairwise fun a b => d.Above b a

variable {d d' : Document} {a b : NodeId}

theorem Above.lt (h : d.Above a b) : b < a := h b .refl

theorem holds_congr (h : ∀ x, d'.members x = d.members x) : d'.Holds = d.Holds := by
  funext p c
  rw [Holds, Holds, h p]

theorem above_congr (h : ∀ x, d'.members x = d.members x) : d'.Above = d.Above := by
  funext a b
  rw [Above, Above, holds_congr h]

theorem Ordered.congr (ho : d.Ordered) (h : ∀ x, d'.members x = d.members x) : d'.Ordered := by
  intro p
  rw [h p, above_congr h]
  exact ho p

theorem ordered_empty : Ordered .empty := by
  intro p
  simp [empty, node?, members, content?]

theorem members_setRoot (d : Document) (id x : NodeId) : (d.setRoot id).members x = d.members x := by
  show (((d.update id _).node? x).map _ |>.map _).getD _ = _
  rw [members, content?, node?_update]
  by_cases hx : x = id
  · cases d.node? x <;> simp [hx]
  · simp [hx]

/-- What a free node holds is in the arena. -/
theorem Owned.under_lt {free : List NodeId} {x : NodeId} (h : d.Owned free) (hb : b ∈ free)
    (hx : ReflTransGen d.Holds b x) : x < d.size := by
  rcases ReflTransGen.cases_tail hx with rfl | ⟨p, _, hp⟩
  · exact h.free_lt x hb
  · exact parent?_lt ((h.parent_iff x p).2 hp)

theorem Owned.not_mem_members {free : List NodeId} (h : d.Owned free) (hb : b ∈ free) (p : NodeId) :
    b ∉ d.members p := by
  rw [← h.parent_iff, h.free_orphan b hb]
  simp

/-- Filling a collection that nothing holds changes nothing below other nodes. -/
theorem Above.fill {free : List NodeId} {id : NodeId} {c : Content} (ho : d.Owned free) (hid : id ∈ free)
    (hb : b ≠ id) (h : d.Above a b) : (d.fill id c).Above a b := by
  have hunder : ∀ x, ReflTransGen (d.fill id c).Holds b x → x ≠ id ∧ ReflTransGen d.Holds b x := by
    intro x hx
    induction hx with
    | refl => exact ⟨hb, .refl⟩
    | @tail y z _ hz ih =>
      rw [Holds, members_fill (ho.free_lt id hid), if_neg ih.1] at hz
      refine ⟨?_, ih.2.tail hz⟩
      rintro rfl
      exact ho.not_mem_members hid y hz
  intro x hx
  exact h x (hunder x hx).2

end Document

namespace Frame

def latest : Frame → List NodeId
  | sequence _ items => items
  | mapping _ pairs key => key.toList ++ pairs.flatMap fun p => [p.2, p.1]

theorem latest_perm (f : Frame) : f.latest.Perm f.held := by
  cases f with
  | sequence => exact .refl _
  | mapping _ pairs key => exact (List.Perm.flatMap_left pairs fun p _ => .swap _ _ _).append_left _

end Frame

namespace Assembly
open Document Yaml

def recent (frames : List Frame) : List NodeId := frames.flatMap fun f => f.latest ++ [f.id]

/-- Members are in order, and so are the nodes that wait for a collection or are one that is open. -/
structure Ranked (a : Assembly) : Prop where
  ordered : a.doc.Ordered
  waiting : (recent a.frames).Pairwise a.doc.Above

variable {a : Assembly} {id : NodeId} {names : List String}

theorem recent_subset_free {x : NodeId} (h : x ∈ recent a.frames) : x ∈ a.free := by
  obtain ⟨f, hf, hx⟩ := List.mem_flatMap.1 h
  refine List.mem_append_left _ (List.mem_flatMap.2 ⟨f, hf, ?_⟩)
  rcases List.mem_append.1 hx with hx | hx
  · exact List.mem_cons_of_mem _ (f.latest_perm.mem_iff.1 hx)
  · simp [List.mem_singleton.1 hx]

theorem ranked_start : Ranked {} where
  ordered := ordered_empty
  waiting := .nil

/-- A node that came after all that waits may be attached. -/
theorem ranked_attach (ho : a.doc.Ordered) (h : (id :: recent a.frames).Pairwise a.doc.Above) :
    (attach id a).Ranked := by
  obtain ⟨d, frames, finished⟩ := a
  cases frames with
  | nil =>
    unfold attach
    dsimp only
    split
    · exact ⟨ho.congr (members_setRoot d id), .nil⟩
    · exact ⟨ho, .nil⟩
  | cons f fs =>
    cases f with
    | sequence owner items => exact ⟨ho, h⟩
    | mapping owner pairs key =>
      cases key with
      | none => exact ⟨ho, h⟩
      | some key => exact ⟨ho, h⟩

theorem members_decorate_add {d : Document} {c : Content} (hc : c.members = []) (anchor : AnchorId) (tag : Option Tag)
    (x : NodeId) : (decorate names anchor tag d.size (d.add c)).members x = d.members x := by
  obtain ⟨_, _, hp⟩ := decorate_frame names anchor tag d.size (d.add c)
  rw [(hp x).2, members_add hc]

/-- A new node comes after all that waits. -/
theorem ranked_new (hs : a.Sound) (h : a.Ranked) {d : Document} (hd : ∀ x, d.members x = a.doc.members x) :
    d.Ordered ∧ (a.doc.size :: recent a.frames).Pairwise d.Above := by
  refine ⟨h.ordered.congr hd, ?_⟩
  rw [above_congr hd]
  refine List.pairwise_cons.2 ⟨?_, h.waiting⟩
  intro b hb x hx
  exact hs.owned.under_lt (recent_subset_free hb) hx

theorem ranked_fill {d : Document} {f : Frame} {fs : List Frame} {finished : Bool} {c : Content}
    (hs : Sound ⟨d, f :: fs, finished⟩) (h : Ranked ⟨d, f :: fs, finished⟩) (hc : c.members.reverse.Sublist f.latest) :
    (attach f.id ⟨d.fill f.id c, fs, finished⟩).Ranked := by
  have hfree : f.id ∈ free ⟨d, f :: fs, finished⟩ := by simp [free]
  have hlt : f.id < d.size := hs.owned.free_lt f.id hfree
  have hwaiting : (f.latest ++ f.id :: recent fs).Pairwise d.Above := by
    simpa [recent] using h.waiting
  obtain ⟨hlatest, hopen, _⟩ := List.pairwise_append.1 hwaiting
  obtain ⟨hhead, htail⟩ := List.pairwise_cons.1 hopen
  have hne : ∀ b ∈ recent fs, b ≠ f.id := fun b hb => Nat.ne_of_lt (hhead b hb).lt
  apply ranked_attach
  · intro p
    rw [members_fill hlt]
    by_cases hp : p = f.id
    · -- the members of the collection are what waited for it
      rw [if_pos hp]
      have hmembers : c.members.Pairwise fun a b => d.Above b a := List.pairwise_reverse.1 (hlatest.sublist hc)
      refine hmembers.imp_of_mem ?_
      intro a b ha _ hab
      have hheld : a ∈ f.held := f.latest_perm.mem_iff.1 (hc.subset (List.mem_reverse.2 ha))
      exact hab.fill hs.owned hfree (Nat.ne_of_gt (hs.opened.older f (by simp) a hheld))
    · rw [if_neg hp]
      refine (h.ordered p).imp_of_mem ?_
      intro a b ha _ hab
      refine hab.fill hs.owned hfree ?_
      rintro rfl
      exact hs.owned.not_mem_members hfree p ha
  · refine List.pairwise_cons.2 ⟨?_, htail.imp_of_mem ?_⟩
    · intro b hb
      exact (hhead b hb).fill hs.owned hfree (hne b hb)
    · intro a b _ hb hab
      exact hab.fill hs.owned hfree (hne b hb)

theorem ranked_close (hs : a.Sound) (h : a.Ranked) : a.close.Ranked := by
  obtain ⟨d, frames, finished⟩ := a
  cases frames with
  | nil => exact h
  | cons f fs =>
    cases f with
    | sequence owner items =>
      have hc : (Content.sequence items.reverse).members.reverse.Sublist (Frame.sequence owner items).latest := by
        simp [Content.members, Frame.latest]
      have hfill := ranked_fill hs h hc
      exact hfill
    | mapping owner pairs key =>
      have hc : (Content.mapping pairs.reverse).members.reverse.Sublist (Frame.mapping owner pairs key).latest := by
        simp [Content.members, Frame.latest, List.reverse_flatMap, Function.comp_def]
      have hfill := ranked_fill hs h hc
      exact hfill

/-- One event keeps the order. -/
theorem ranked_take (hs : a.Sound) (h : a.Ranked) (e : Event) : (take names a e).Ranked := by
  unfold take
  split
  · exact h
  · cases e with
    | documentStart => exact h
    | documentEnd => exact ⟨h.ordered, h.waiting⟩
    | scalar text style anchor tag =>
      obtain ⟨ho, hw⟩ := ranked_new hs h (members_decorate_add (c := .scalar text style) rfl anchor tag)
      exact ranked_attach ho hw
    | reference anchor =>
      obtain ⟨ho, hw⟩ := ranked_new hs h (members_add (c := .reference (anchorName names anchor)) rfl)
      exact ranked_attach ho hw
    | sequenceStart anchor tag =>
      obtain ⟨ho, hw⟩ := ranked_new hs h (members_decorate_add (c := .sequence []) rfl anchor tag)
      exact ⟨ho, hw⟩
    | mappingStart anchor tag =>
      obtain ⟨ho, hw⟩ := ranked_new hs h (members_decorate_add (c := .mapping []) rfl anchor tag)
      exact ⟨ho, hw⟩
    | sequenceEnd | mappingEnd => exact ranked_close hs h

/-- All events do. -/
theorem ranked_run (hs : a.Sound) (h : a.Ranked) (es : List Event) : (es.foldl (take names) a).Ranked := by
  induction es generalizing a with
  | nil => exact h
  | cons e es ih => exact ih (sound_take hs e) (ranked_take hs h e)

end Assembly

/-- The ids of the document of any events follow the source. -/
theorem Document.ordered_ofEvents (names : List String) (es : List Yaml.Event) : (ofEvents names es).Ordered :=
  (Assembly.ranked_run Assembly.sound_start Assembly.ranked_start es).ordered

end YamlQuery
