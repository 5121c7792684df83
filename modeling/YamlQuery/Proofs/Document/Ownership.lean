import YamlQuery.Document.OfEvents
import YamlQuery.Proofs.Document.Edits
/-!
Who holds whom. Whatever the events, a document under construction keeps every node in one place: a member of one
collection that is its parent and was opened before it, or free for a collection that is still open.
-/
namespace YamlQuery

namespace Document

/-- Parents and members agree, and the nodes in `free` are held by nothing. -/
structure Owned (d : Document) (free : List NodeId) : Prop where
  parent_iff : ∀ c p, d.parent? c = some p ↔ c ∈ d.members p
  older : ∀ c p, c ∈ d.members p → p < c
  once : ∀ p, (d.members p).Nodup
  free_once : free.Nodup
  free_lt : ∀ c ∈ free, c < d.size
  free_orphan : ∀ c ∈ free, d.parent? c = none

variable {d d' : Document} {free free' : List NodeId} {id : NodeId}

theorem owned_empty : Owned .empty [] where
  parent_iff := by simp [empty, parent?, node?, members, content?]
  older := by simp [empty, node?, members, content?]
  once := by simp [empty, node?, members, content?]
  free_once := by simp
  free_lt := by simp
  free_orphan := by simp

theorem Owned.perm (h : Owned d free) (hp : free.Perm free') : Owned d free' where
  parent_iff := h.parent_iff
  older := h.older
  once := h.once
  free_once := hp.nodup_iff.1 h.free_once
  free_lt := fun c hc => h.free_lt c (hp.mem_iff.2 hc)
  free_orphan := fun c hc => h.free_orphan c (hp.mem_iff.2 hc)

theorem Owned.tail (h : Owned d (id :: free)) : Owned d free where
  parent_iff := h.parent_iff
  older := h.older
  once := h.once
  free_once := (List.nodup_cons.1 h.free_once).2
  free_lt := fun c hc => h.free_lt c (List.mem_cons_of_mem _ hc)
  free_orphan := fun c hc => h.free_orphan c (List.mem_cons_of_mem _ hc)

theorem Owned.drop {dropped : List NodeId} (h : Owned d (dropped ++ free)) : Owned d free := by
  induction dropped with
  | nil => exact h
  | cons id dropped ih => exact ih h.tail

theorem Owned.congr (h : Owned d free) (hs : d'.size = d.size)
    (hp : ∀ x, d'.parent? x = d.parent? x ∧ d'.members x = d.members x) : Owned d' free where
  parent_iff := by
    intro c p
    rw [(hp c).1, (hp p).2]
    exact h.parent_iff c p
  older := by
    intro c p hc
    rw [(hp p).2] at hc
    exact h.older c p hc
  once := by
    intro p
    rw [(hp p).2]
    exact h.once p
  free_once := h.free_once
  free_lt := by
    intro c hc
    rw [hs]
    exact h.free_lt c hc
  free_orphan := by
    intro c hc
    rw [(hp c).1]
    exact h.free_orphan c hc

theorem Owned.add (h : Owned d free) {c : Content} (hc : c.members = []) : Owned (d.add c) (d.size :: free) where
  parent_iff := by
    intro x p
    rw [parent?_add hc, members_add hc]
    exact h.parent_iff x p
  older := by
    intro x p hx
    rw [members_add hc] at hx
    exact h.older x p hx
  once := by
    intro p
    rw [members_add hc]
    exact h.once p
  free_once := by
    refine List.nodup_cons.2 ⟨?_, h.free_once⟩
    intro hm
    exact Nat.lt_irrefl _ (h.free_lt _ hm)
  free_lt := by
    intro x hx
    rw [size_add hc]
    rcases List.mem_cons.1 hx with rfl | hx
    · exact Nat.lt_succ_self _
    · exact Nat.lt_succ_of_lt (h.free_lt x hx)
  free_orphan := by
    intro x hx
    rw [parent?_add hc]
    rcases List.mem_cons.1 hx with rfl | hx
    · rw [parent?, node?_none (Nat.le_refl _)]
      rfl
    · exact h.free_orphan x hx

/-- A free collection takes in free nodes that are younger. -/
theorem Owned.fill {c : Content} (h : Owned d (id :: (c.members ++ free))) (he : d.members id = [])
    (ho : ∀ x ∈ c.members, id < x) : Owned (d.fill id c) (id :: free) := by
  have hlt : id < d.size := h.free_lt id (by simp)
  have hmem : ∀ x ∈ c.members, x < d.size := fun x hx => h.free_lt x (by simp [hx])
  have horphan : ∀ x ∈ c.members, d.parent? x = none := fun x hx => h.free_orphan x (by simp [hx])
  obtain ⟨hid, hnd⟩ := List.nodup_cons.1 h.free_once
  obtain ⟨hcn, hfn, hdisj⟩ := List.nodup_append.1 hnd
  have hnot : ∀ x ∈ id :: free, x ∉ c.members := by
    intro x hx hxc
    rcases List.mem_cons.1 hx with rfl | hx
    · exact hid (by simp [hxc])
    · exact hdisj x hxc x hx rfl
  constructor
  case parent_iff =>
    intro x p
    rw [parent?_fill hmem, members_fill hlt]
    by_cases hx : x ∈ c.members
    · by_cases hp : p = id
      · simp [hx, hp]
      · have hxp : x ∉ d.members p := by
          rw [← h.parent_iff, horphan x hx]
          simp
        have hne : id ≠ p := fun he => hp he.symm
        simp [hx, hp, hxp, hne]
    · by_cases hp : p = id
      · have hxid : d.parent? x ≠ some id := by
          rw [ne_eq, h.parent_iff, he]
          simp
        simp [hx, hp, hxid]
      · simp only [hx, hp, ↓reduceIte]
        exact h.parent_iff x p
  case older =>
    intro x p hx
    rw [members_fill hlt] at hx
    split at hx
    · next hp =>
      rw [hp]
      exact ho x hx
    · exact h.older x p hx
  case once =>
    intro p
    rw [members_fill hlt]
    split
    · exact hcn
    · exact h.once p
  case free_once =>
    refine List.nodup_cons.2 ⟨?_, hfn⟩
    intro hm
    exact hid (by simp [hm])
  case free_lt =>
    intro x hx
    rw [size_fill]
    rcases List.mem_cons.1 hx with rfl | hx
    · exact hlt
    · exact h.free_lt x (by simp [hx])
  case free_orphan =>
    intro x hx
    rw [parent?_fill hmem, if_neg (hnot x hx)]
    rcases List.mem_cons.1 hx with rfl | hx
    · exact h.free_orphan x (by simp)
    · exact h.free_orphan x (by simp [hx])

end Document

namespace Frame

def id : Frame → NodeId
  | sequence id _ | mapping id _ _ => id

def held : Frame → List NodeId
  | sequence _ items => items
  | mapping _ pairs key => key.toList ++ pairs.flatMap fun p => [p.1, p.2]

end Frame

namespace Assembly
open Document Yaml

def free (a : Assembly) : List NodeId := (a.frames.flatMap fun f => f.id :: f.held) ++ a.doc.root.toList

structure Open (d : Document) (frames : List Frame) : Prop where
  empty : ∀ f ∈ frames, d.members f.id = []
  older : ∀ f ∈ frames, ∀ c ∈ f.held, f.id < c
  nested : frames.Pairwise fun f g => g.id < f.id

structure Sound (a : Assembly) : Prop where
  owned : a.doc.Owned a.free
  opened : Open a.doc a.frames

variable {a : Assembly} {id : NodeId} {names : List String}

theorem sound_start : Sound {} where
  owned := owned_empty
  opened := ⟨by simp, by simp, .nil⟩

theorem owned_setRoot {d : Document} {free : List NodeId} (h : d.Owned (id :: free)) :
    (d.setRoot id).Owned (id :: free) := by
  refine h.congr (size_update d id _) ?_
  intro x
  have hid : d.parent? id = none := h.free_orphan id (by simp)
  unfold parent? at hid
  unfold setRoot parent? members content?
  show ((d.update id _).node? x).bind _ = _ ∧ (((d.update id _).node? x).map _ |>.map _).getD _ = _
  rw [node?_update]
  by_cases hx : x = id
  · subst hx
    cases hn : d.node? x with
    | none => simp
    | some n => simpa [hn, eq_comm] using hid
  · simp [hx]

/-- A younger node in the innermost collection. -/
theorem open_cons {d : Document} {f g : Frame} {fs : List Frame} (ho : Open d (f :: fs)) (hid : g.id = f.id)
    (hg : ∀ c ∈ g.held, c ∈ f.held ∨ f.id < c) : Open d (g :: fs) where
  empty := by
    intro e he
    rcases List.mem_cons.1 he with rfl | he
    · rw [hid]
      exact ho.empty f (by simp)
    · exact ho.empty e (by simp [he])
  older := by
    intro e he c hc
    rcases List.mem_cons.1 he with rfl | he
    · rw [hid]
      cases hg c hc with
      | inl hf => exact ho.older f (by simp) c hf
      | inr hf => exact hf
    · exact ho.older e (by simp [he]) c hc
  nested := by
    obtain ⟨hf, hfs⟩ := List.pairwise_cons.1 ho.nested
    refine List.pairwise_cons.2 ⟨?_, hfs⟩
    intro e he
    rw [hid]
    exact hf e he

/-- Attaching a free node that is younger than the innermost open collection. -/
theorem sound_attach (h : a.doc.Owned (id :: a.free)) (ho : Open a.doc a.frames)
    (hid : ∀ f ∈ a.frames.head?, f.id < id) : (attach id a).Sound := by
  obtain ⟨d, frames, finished⟩ := a
  cases frames with
  | nil =>
    cases hr : d.root with
    | none =>
      have hfree : d.Owned [id] := by simpa [free, hr] using h
      have hset := owned_setRoot hfree
      simp only [attach, hr, Option.isNone_none, ↓reduceIte]
      exact ⟨hset, ⟨by simp, by simp, .nil⟩⟩
    | some r =>
      simp only [attach, hr, Option.isNone_some, Bool.false_eq_true, ↓reduceIte]
      exact ⟨h.tail, ho⟩
  | cons f fs =>
    have hlt : f.id < id := hid f (by simp)
    have hopen : ∀ g : Frame, g.id = f.id → g.held.Perm (id :: f.held) → Sound ⟨d, g :: fs, finished⟩ := by
      intro g hg hp
      constructor
      · apply h.perm
        have hmid : (id :: (f.id :: f.held)).Perm (g.id :: g.held) := by
          rw [hg]
          exact (List.Perm.swap _ _ _).trans (hp.symm.cons _)
        simpa [free] using hmid.append_right ((fs.flatMap fun f => f.id :: f.held) ++ d.root.toList)
      · apply open_cons ho hg
        intro c hc
        rcases List.mem_cons.1 (hp.mem_iff.1 hc) with rfl | hc
        · exact .inr hlt
        · exact .inl hc
    cases f with
    | sequence owner items => exact hopen (.sequence owner (id :: items)) rfl (.refl _)
    | mapping owner pairs key =>
      cases key with
      | none => exact hopen (.mapping owner pairs (some id)) rfl (.refl _)
      | some key => exact hopen (.mapping owner ((key, id) :: pairs) none) rfl (.swap _ _ _)

theorem decorate_frame (names : List String) (anchor : AnchorId) (tag : Option Tag) (id : NodeId) (d : Document) :
    (decorate names anchor tag id d).size = d.size ∧ (decorate names anchor tag id d).root = d.root ∧
      ∀ x, (decorate names anchor tag id d).parent? x = d.parent? x ∧
        (decorate names anchor tag id d).members x = d.members x := by
  have hsize : (d.setAnchor id (anchorName names anchor)).size = d.size := size_update d id _
  unfold decorate
  by_cases h : anchor > 0
  · cases tag with
    | none => exact ⟨by simpa [h] using hsize, by simp [h]; rfl, fun x => by simpa [h] using place_setAnchor d id _ x⟩
    | some t =>
      simp only [h, ↓reduceIte]
      refine ⟨(size_update _ id _).trans hsize, rfl, fun x => ?_⟩
      obtain ⟨hp, hm⟩ := place_setTag (d.setAnchor id (anchorName names anchor)) id t.text x
      rw [hp, hm]
      exact place_setAnchor d id _ x
  · cases tag with
    | none => simp [h]
    | some t =>
      simp only [h, ↓reduceIte]
      exact ⟨size_update d id _, rfl, fun x => place_setTag d id t.text x⟩

theorem decorate_plain (names : List String) (id : NodeId) (d : Document) : decorate names 0 none id d = d := rfl

/-- A node that holds nothing yet, with its anchor and tag. -/
theorem sound_add (names : List String) (h : a.Sound) {c : Content} (hc : c.members = []) (anchor : AnchorId)
    (tag : Option Tag) :
    (decorate names anchor tag a.doc.size (a.doc.add c)).Owned (a.doc.size :: a.free) ∧
      Open (decorate names anchor tag a.doc.size (a.doc.add c)) a.frames ∧
      (decorate names anchor tag a.doc.size (a.doc.add c)).root = a.doc.root ∧
      (decorate names anchor tag a.doc.size (a.doc.add c)).members a.doc.size = [] ∧ ∀ f ∈ a.frames, f.id < a.doc.size := by
  obtain ⟨hs, hr, hp⟩ := decorate_frame names anchor tag a.doc.size (a.doc.add c)
  have hnew : a.doc.members a.doc.size = [] := by
    rw [members, content?, node?_none (Nat.le_refl _)]
    rfl
  refine ⟨(h.owned.add hc).congr hs hp, ?_, ?_, ?_, ?_⟩
  · constructor
    · intro f hf
      rw [(hp f.id).2, members_add hc]
      exact h.opened.empty f hf
    · exact h.opened.older
    · exact h.opened.nested
  · rw [hr, add_eq_push hc]
  · rw [(hp _).2, members_add hc]
    exact hnew
  · intro f hf
    apply h.owned.free_lt
    rw [free, List.mem_append, List.mem_flatMap]
    exact .inl ⟨f, hf, by simp⟩

theorem sound_leaf (names : List String) (h : a.Sound) {c : Content} (hc : c.members = []) (anchor : AnchorId)
    (tag : Option Tag) :
    (attach a.doc.size { a with doc := decorate names anchor tag a.doc.size (a.doc.add c) }).Sound := by
  obtain ⟨howned, hopen, hroot, _, hlt⟩ := sound_add names h hc anchor tag
  apply sound_attach
  · rw [free, hroot]
    exact howned
  · exact hopen
  · intro f hf
    exact hlt f (List.mem_of_mem_head? hf)

theorem sound_open (h : a.Sound) {c : Content} (hc : c.members = []) (anchor : AnchorId) (tag : Option Tag) {f : Frame}
    (hid : f.id = a.doc.size) (hf : f.held = []) :
    Sound { a with doc := decorate names anchor tag a.doc.size (a.doc.add c), frames := f :: a.frames } := by
  obtain ⟨howned, hopen, hroot, hmem, hlt⟩ := sound_add names h hc anchor tag
  constructor
  · rw [free, hroot, List.flatMap_cons, hid, hf]
    exact howned
  · constructor
    · intro g hg
      rcases List.mem_cons.1 hg with rfl | hg
      · rw [hid]
        exact hmem
      · exact hopen.empty g hg
    · intro g hg c hc
      rcases List.mem_cons.1 hg with rfl | hg
      · simp [hf] at hc
      · exact hopen.older g hg c hc
    · refine List.pairwise_cons.2 ⟨?_, hopen.nested⟩
      intro g hg
      rw [hid]
      exact hlt g hg

/-- Closing the innermost collection with what it received, but for `dropped`. -/
theorem sound_fill {d : Document} {f : Frame} {fs : List Frame} {finished : Bool} {c : Content}
    (dropped : List NodeId) (h : Sound ⟨d, f :: fs, finished⟩) (hp : f.held.Perm (dropped ++ c.members)) :
    (attach f.id ⟨d.fill f.id c, fs, finished⟩).Sound := by
  have hrest : d.Owned (f.id :: (c.members ++ free ⟨d, fs, finished⟩)) := by
    have hperm : (free ⟨d, f :: fs, finished⟩).Perm (dropped ++ (f.id :: (c.members ++ free ⟨d, fs, finished⟩))) := by
      have hheld := (hp.cons f.id).append_right (free ⟨d, fs, finished⟩)
      have hmove := (@List.perm_middle _ f.id dropped (c.members ++ free ⟨d, fs, finished⟩)).symm
      simp only [free, List.flatMap_cons, List.append_assoc, List.cons_append] at hheld hmove ⊢
      exact hheld.trans hmove
    exact (h.owned.perm hperm).drop
  have hempty := h.opened.empty f (by simp)
  have holder : ∀ x ∈ c.members, f.id < x := by
    intro x hx
    exact h.opened.older f (by simp) x (hp.mem_iff.2 (by simp [hx]))
  obtain ⟨hnest, hfs⟩ := List.pairwise_cons.1 h.opened.nested
  have hlt : f.id < d.size := hrest.free_lt f.id (by simp)
  apply sound_attach
  · have hfill := hrest.fill hempty holder
    rw [free, (fill_frame d f.id c).1]
    exact hfill
  · constructor
    · intro g hg
      have hne : g.id ≠ f.id := Nat.ne_of_lt (hnest g hg)
      rw [members_fill hlt, if_neg hne]
      exact h.opened.empty g (by simp [hg])
    · intro g hg
      exact h.opened.older g (by simp [hg])
    · exact hfs
  · intro g hg
    exact hnest g (List.mem_of_mem_head? hg)

theorem sound_close (h : a.Sound) : a.close.Sound := by
  obtain ⟨d, frames, finished⟩ := a
  cases frames with
  | nil => exact h
  | cons f fs =>
    cases f with
    | sequence owner items =>
      have hfill := sound_fill (c := .sequence items.reverse) [] h (List.reverse_perm items).symm
      exact hfill
    | mapping owner pairs key =>
      have hp : (pairs.flatMap fun p => [p.1, p.2]).Perm (pairs.reverse.flatMap fun p => [p.1, p.2]) :=
        (List.reverse_perm pairs).symm.flatMap_right _
      have hfill := sound_fill (c := .mapping pairs.reverse) key.toList h (hp.append_left key.toList)
      exact hfill

/-- One event keeps the construction sound. -/
theorem sound_take (h : a.Sound) (e : Event) : (take names a e).Sound := by
  unfold take
  split
  · exact h
  · cases e with
    | documentStart => exact h
    | documentEnd => exact ⟨h.owned, h.opened⟩
    | scalar text style anchor tag => exact sound_leaf names h rfl anchor tag
    | reference anchor =>
      have hleaf := sound_leaf names h (c := .reference (anchorName names anchor)) rfl 0 none
      rw [decorate_plain] at hleaf
      exact hleaf
    | sequenceStart anchor tag => exact sound_open h rfl anchor tag rfl rfl
    | mappingStart anchor tag => exact sound_open h rfl anchor tag rfl rfl
    | sequenceEnd | mappingEnd => exact sound_close h

/-- All events do. -/
theorem sound_run (names : List String) (h : a.Sound) (es : List Event) : (es.foldl (take names) a).Sound := by
  induction es generalizing a with
  | nil => exact h
  | cons e es ih => exact ih (sound_take h e)

end Assembly

/-- The document of any events: members have their collection as parent and occur in it once, and the root is held by
nothing. -/
theorem Document.owned_ofEvents (names : List String) (es : List Yaml.Event) :
    (ofEvents names es).Owned (ofEvents names es).root.toList := by
  have h := Assembly.sound_run names Assembly.sound_start es
  exact h.owned.drop

end YamlQuery
