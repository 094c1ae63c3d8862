/-
# `OData.Proofs.Payload.Reading` — the reader accepts the grammar and nothing else

The reader is a loop over members with a state that every member may change, and it stops at the
first member that is out of place.  Each level has an invariant that says the state in terms of the
members read so far:

| | |
| :-- | :-- |
| `AnnotationsSoFar` | the annotations of one owner, and the names that count as seen on it |
| `LinkSoFar` | the members of a link |
| `ListSoFar` | the links of a list; no name counts as seen on a link to come |
| `LinksSoFar` | the members of a collection |

A step keeps the invariant or fails; and a member at which it fails either repeats a name or is none
that fits, so that the whole object is not in the grammar, whatever comes behind it.
-/
import OData.Proofs.Json.Skipping
import OData.Proofs.Payload.Shape

namespace OData.Payload

open Json Json.Scan

variable {parseUrl : Url.Parser} {i o : List UInt8} {t : Tree} {name : String}

/-! ## Single values -/

theorem yields_readUrl (h : t.BehindName i o) :
    Yields (readUrl parseUrl name) i o (fun u => urlOf? parseUrl t = some u)
      (urlOf? parseUrl t = none) := by
  refine (Yields.member h fun m hm => yields_string hm).bind ?_ ?_
  · intro s hs
    cases hparse : parseUrl s with
    | ok u =>
        refine yields_pure ?_
        simp [urlOf?, hs, hparse, Except.toOption]
    | error fault =>
        refine yields_refuse ?_
        simp [urlOf?, hs, hparse, Except.toOption]
  · intro hs
    simp [urlOf?, hs]

theorem yields_readContext {seen : Bool} (h : t.BehindName i o) :
    Yields (readContext seen) i o (fun _ => seen = false) (seen = true) := by
  unfold readContext
  refine yields_unless (fun hseen => hseen) ?_
  intro hseen
  exact Yields.member h fun _ hm => (passes_skip hm).yields (Bool.eq_false_iff.2 hseen)

theorem countOf?_eq {s : Scalar} (h : t.start = .scalar s) :
    countOf? t = (countOfScalar s).toOption := by
  cases t <;> cases h <;> try rfl
  all_goals
    simp only [countOf?, countOfScalar]
    split <;> simp_all [Except.toOption]

theorem yields_readCount {room : Nat} (hdepth : t.depth ≤ room) (h : t.Ahead i o) :
    Yields (readCount room) i o (fun n => countOf? t = some n) (countOf? t = none) := by
  refine (Yields.of_start h ?_).located
  intro m hm
  cases t with
  | list items =>
      obtain ⟨room, rfl⟩ := Tree.exists_room_of_list hdepth
      exact Yields.listOpening hm fun _ _ => yields_misfit rfl
  | object members =>
      obtain ⟨room, rfl⟩ := Tree.exists_room_of_object hdepth
      exact Yields.objectOpening hm fun _ _ => yields_misfit rfl
  | _ =>
      obtain rfl : m = o := hm
      simp only [Tree.start]
      split
      · next n hn =>
          refine yields_pure ?_
          rw [countOf?_eq rfl, hn, Except.toOption]
      · next fault hfault =>
          refine yields_misfit ?_
          rw [countOf?_eq rfl, hfault, Except.toOption]

/-! ## Annotations -/

/-- The names of the custom annotations among members. -/
def customNames (ms : List (String × Tree)) : List String := ms.filterMap fun m => customName? m.1

theorem mem_names_of_mem_customNames {ms : List (String × Tree)} {n : String}
    (hname : customName? name = some n) (h : n ∈ customNames ms) : name ∈ ms.map Prod.fst := by
  obtain ⟨m, hm, hcustom⟩ := List.mem_filterMap.1 h
  rw [eq_of_customName? hname hcustom]
  exact List.mem_map_of_mem hm

theorem mem_customNames_of_mem_names {ms : List (String × Tree)} {n : String}
    (hname : customName? name = some n) (h : name ∈ ms.map Prod.fst) : n ∈ customNames ms := by
  obtain ⟨m, hm, rfl⟩ := List.mem_map.1 h
  exact List.mem_filterMap.2 ⟨m, hm, hname⟩

variable (settings : ReaderSettings) (owner : AnnotationOwner) {before after whole : List (String × Tree)}
  {seen : SeenNames} {annotations : Annotations} {room : Nat}

/-- What has been read of an owner's annotations, in terms of the members read so far. -/
structure AnnotationsSoFar (before : List (String × Tree)) (seen : SeenNames)
    (annotations : Annotations) : Prop where
  annotations : annotations = (before.filterMap (annotationOf? settings)).reverse
  names : ∀ n, (owner, n) ∈ seen.entries ↔ n ∈ customNames before

/-- No name of another owner has been added or forgotten. -/
def KeepsOthers (seen seen' : SeenNames) : Prop :=
  ∀ other n, other ≠ owner → ((other, n) ∈ seen'.entries ↔ (other, n) ∈ seen.entries)

variable {settings owner}

theorem KeepsOthers.refl (owner : AnnotationOwner) (seen : SeenNames) : KeepsOthers owner seen seen :=
  fun _ _ _ => Iff.rfl

theorem KeepsOthers.trans {seen seen' seen'' : SeenNames} (h : KeepsOthers owner seen seen')
    (h' : KeepsOthers owner seen' seen'') : KeepsOthers owner seen seen'' :=
  fun other n hne => (h' other n hne).trans (h other n hne)

theorem AnnotationsSoFar.nil (hfresh : ∀ n, (owner, n) ∉ seen.entries) :
    AnnotationsSoFar settings owner [] seen [] :=
  ⟨rfl, fun n => iff_of_false (hfresh n) List.not_mem_nil⟩

/-- A member that is no annotation leaves them as they are. -/
theorem AnnotationsSoFar.other (h : AnnotationsSoFar settings owner before seen annotations)
    (hname : customName? name = none) :
    AnnotationsSoFar settings owner (before ++ [(name, t)]) seen annotations := by
  refine ⟨?_, ?_⟩
  · simp [h.annotations, annotationOf?, hname]
  · intro n
    simp [h.names, customNames, hname]

/-- A member that is an annotation is read with its name. -/
theorem AnnotationsSoFar.annotation (h : AnnotationsSoFar settings owner before seen annotations)
    {n : String} (hname : customName? name = some n) :
    AnnotationsSoFar settings owner (before ++ [(name, t)]) ⟨(owner, n) :: seen.entries⟩
      (if settings.annotationFilter.accepts n then
        ⟨n, annotationValue settings (Value.ofTree t)⟩ :: annotations else annotations) := by
  refine ⟨?_, ?_⟩
  · split <;> simp [h.annotations, annotationOf?, *]
  · intro n'
    simp [h.names, customNames, hname, eq_comm, or_comm]

theorem keepsOthers_cons (owner : AnnotationOwner) (n : String) (seen : SeenNames) :
    KeepsOthers owner seen ⟨(owner, n) :: seen.entries⟩ := by
  intro other m hne
  simp [hne]

theorem yields_readOne {n : String} (hsofar : AnnotationsSoFar settings owner before seen annotations)
    (hname : annotationName? name = some n) (hdepth : t.depth ≤ room) (h : t.BehindName i o) :
    Yields (readOne settings room owner n seen annotations) i o
      (fun r => (customName? name).isSome ∧ name ∉ before.map Prod.fst ∧ t.DistinctNames ∧
        AnnotationsSoFar settings owner (before ++ [(name, t)]) r.1 r.2 ∧
        KeepsOthers owner seen r.1)
      (customName? name = none ∨ name ∈ before.map Prod.fst ∨ ¬ t.DistinctNames) := by
  unfold readOne
  refine yields_unless ?_ ?_
  · intro hreserved
    exact .inl (by simp [customName?, hname, hreserved])
  · intro hreserved
    have hcustom : customName? name = some n :=
      customName?_eq_some_iff.2 ⟨hname, Bool.eq_false_iff.2 hreserved⟩
    -- The names seen on the owner are those of the annotations in front, so that a name is refused here
    -- exactly if a member has it already.
    by_cases hseen : n ∈ customNames before
    · rw [SeenNames.insert_of_mem ((hsofar.names n).2 hseen)]
      exact yields_refuse (.inr (.inl (mem_names_of_mem_customNames hcustom hseen)))
    · rw [SeenNames.insert_of_not_mem (mt (hsofar.names n).1 hseen)]
      refine (Yields.member h fun m hm => Value.reads_scan hdepth hm).bind ?_ ?_
      · rintro _ ⟨hdistinct, rfl⟩
        have hsome : (customName? name).isSome := by simp [hcustom]
        have hnew : name ∉ before.map Prod.fst := by
          intro hmem
          exact hseen (mem_customNames_of_mem_names hcustom hmem)
        have hnext := hsofar.annotation (t := t) hcustom
        have hothers := keepsOthers_cons owner n seen
        split
        · next haccepts =>
            rw [if_pos haccepts] at hnext
            exact yields_pure ⟨hsome, hnew, hdistinct, hnext, hothers⟩
        · next haccepts =>
            rw [if_neg haccepts] at hnext
            exact yields_pure ⟨hsome, hnew, hdistinct, hnext, hothers⟩
      · intro hbad
        exact .inr (.inr hbad)

/-- An annotation that is turned down is out of place in any object that wants an annotation there. -/
theorem not_members_of_bad {Fits : String × Tree → Prop}
    (hbad : customName? name = none ∨ name ∈ before.map Prod.fst ∨ ¬ t.DistinctNames)
    (hfits : Fits (name, t) → (customName? name).isSome ∧ t.DistinctNames) :
    ¬ Members Fits (before ++ (name, t) :: after) := by
  intro hall
  obtain ⟨hcustom, hdistinct⟩ := hfits hall.fits_next
  rcases hbad with hbad | hbad | hbad
  · simp [hbad] at hcustom
  · exact hall.fresh_next hbad
  · exact hbad hdistinct

/-- A name of the protocol's own is not that of an annotation. -/
theorem ne_of_isCustom {key : String} (hkey : customName? key = none)
    (hname : (customName? name).isSome) : key ≠ name := by
  rintro rfl
  simp [hkey] at hname

/-! ## Members that stand once -/

section Slots

variable {α : Type} {f : Tree → Option α} {slot : Option α} {Fits : String × Tree → Prop}
  {key : String}

/-- What has been read of the member `key`: its value as `f` takes it. -/
abbrev Slot (f : Tree → Option α) (key : String) (before : List (String × Tree))
    (slot : Option α) : Prop :=
  slot = before.lookup key >>= f

theorem Slot.mem (h : Slot f key before slot) (hslot : slot.isSome = true) :
    key ∈ before.map Prod.fst := by
  cases hlookup : before.lookup key with
  | none => simp [h, hlookup] at hslot
  | some t => exact mem_names_of_lookup hlookup

theorem Slot.not_mem (h : Slot f key before slot) (hslot : ¬ slot.isSome = true)
    (hbefore : Members Fits before) (hfits : ∀ t, Fits (key, t) → (f t).isSome) :
    key ∉ before.map Prod.fst := by
  intro hmem
  obtain ⟨t, ht⟩ := exists_lookup_of_mem hmem
  refine hslot ?_
  simpa [h, ht] using hfits t (hbefore.fits _ (mem_of_lookup ht))

theorem Slot.other (h : Slot f key before slot) (hne : key ≠ name) :
    Slot f key (before ++ [(name, t)]) slot := by
  rw [Slot, lookup_snoc_ne hne]
  exact h

theorem Slot.self {a : α} (hnew : key ∉ before.map Prod.fst) (ht : f t = some a) :
    Slot f key (before ++ [(key, t)]) (some a) := by
  rw [Slot, lookup_snoc_self hnew]
  exact ht.symm

end Slots

/-- Another member leaves what is known of the context as it is. -/
theorem seenContext_other {seenContext : Bool}
    (h : seenContext = true ↔ context ∈ before.map Prod.fst) (hname : name ≠ context) :
    seenContext = true ↔ context ∈ (before ++ [(name, t)]).map Prod.fst := by
  simp [h, Ne.symm hname]

/-! ## Links -/

theorem LinkMember.of_id {alone : Bool} (h : LinkMember parseUrl alone (id, t)) :
    (urlOf? parseUrl t).isSome := by
  rcases h with ⟨-, h⟩ | ⟨h, -⟩ | ⟨h, -⟩
  · exact h
  · exact absurd h (show id ≠ context by decide)
  · simp at h

theorem LinkMember.of_other {alone : Bool} (h : LinkMember parseUrl alone (name, t)) (hid : name ≠ id)
    (hcontext : ¬ (name = context ∧ alone = true)) :
    (customName? name).isSome ∧ t.DistinctNames := by
  rcases h with ⟨h, -⟩ | h | h
  · exact absurd h hid
  · exact absurd h hcontext
  · exact h

/-- What has been read of a link, in terms of the members read so far. -/
structure LinkSoFar (parseUrl : Url.Parser) (settings : ReaderSettings) (owner : AnnotationOwner)
    (alone : Bool) (seen : SeenNames) (before : List (String × Tree)) (d : LinkDraft) : Prop where
  members : Members (LinkMember parseUrl alone) before
  context : d.seenContext = true ↔ context ∈ before.map Prod.fst
  url : Slot (urlOf? parseUrl) id before d.url
  annotations : AnnotationsSoFar settings owner before d.seen d.annotations
  others : KeepsOthers owner seen d.seen

section LinkStep

variable {alone : Bool} {d : LinkDraft} (hd : LinkSoFar parseUrl settings owner alone seen before d)
include hd

theorem linkSoFar_id {u : Url} (hnew : id ∉ before.map Prod.fst) (hu : urlOf? parseUrl t = some u) :
    LinkSoFar parseUrl settings owner alone seen (before ++ [(id, t)]) { d with url := some u } where
  members := hd.members.snoc hnew (.inl ⟨rfl, by simp [hu]⟩)
  context := seenContext_other hd.context (by decide)
  url := Slot.self hnew hu
  annotations := hd.annotations.other customName?_id
  others := hd.others

theorem linkSoFar_context (halone : alone = true) (hseen : d.seenContext = false) :
    LinkSoFar parseUrl settings owner alone seen (before ++ [(context, t)])
      { d with seenContext := true } where
  members := by
    refine hd.members.snoc ?_ (.inr (.inl ⟨rfl, halone⟩))
    rw [← hd.context, hseen]
    exact Bool.false_ne_true
  context := by simp
  url := hd.url.other (by decide)
  annotations := hd.annotations.other customName?_context
  others := hd.others

theorem linkSoFar_custom {seen' : SeenNames} {annotations' : Annotations}
    (hcustom : (customName? name).isSome) (hnew : name ∉ before.map Prod.fst)
    (hdistinct : t.DistinctNames)
    (hannotations : AnnotationsSoFar settings owner (before ++ [(name, t)]) seen' annotations')
    (hothers : KeepsOthers owner d.seen seen') :
    LinkSoFar parseUrl settings owner alone seen (before ++ [(name, t)])
      { d with seen := seen', annotations := annotations' } where
  members := hd.members.snoc hnew (.inr (.inr ⟨hcustom, hdistinct⟩))
  context := seenContext_other hd.context (ne_of_isCustom customName?_context hcustom).symm
  url := hd.url.other (ne_of_isCustom customName?_id hcustom)
  annotations := hannotations
  others := hd.others.trans hothers

section Members

variable (h : t.BehindName i o)
include h

theorem yields_idMember :
    Yields (readLinkMember parseUrl settings room owner alone d id) i o
      (LinkSoFar parseUrl settings owner alone seen (before ++ [(id, t)]))
      (¬ Members (LinkMember parseUrl alone) (before ++ (id, t) :: after)) := by
  rw [readLinkMember, if_pos rfl]
  refine yields_unless ?_ ?_
  · intro hurl hall
    exact hall.fresh_next (hd.url.mem hurl)
  · intro hurl
    have hnew := hd.url.not_mem hurl hd.members fun t => LinkMember.of_id
    refine (yields_readUrl h).bind ?_ ?_
    · intro u hu
      exact yields_pure (linkSoFar_id hd hnew hu)
    · intro hu hall
      simpa [hu] using hall.fits_next.of_id

theorem yields_contextMember_alone (halone : alone = true) :
    Yields (readLinkMember parseUrl settings room owner alone d context) i o
      (LinkSoFar parseUrl settings owner alone seen (before ++ [(context, t)]))
      (¬ Members (LinkMember parseUrl alone) (before ++ (context, t) :: after)) := by
  rw [readLinkMember, if_neg (by decide), if_pos ⟨rfl, halone⟩]
  refine (yields_readContext h).bind ?_ ?_
  · intro _ hseen
    exact yields_pure (linkSoFar_context hd halone hseen)
  · intro hseen hall
    exact hall.fresh_next (hd.context.1 hseen)

/-- A member of a link: each name has its own reader, and what is wrong with a member is wrong with the
whole link. -/
theorem yields_readLinkMember (hwhole : whole = before ++ (name, t) :: after)
    (hdepth : t.depth ≤ room) :
    Yields (readLinkMember parseUrl settings room owner alone d name) i o
      (LinkSoFar parseUrl settings owner alone seen (before ++ [(name, t)]))
      (¬ Members (LinkMember parseUrl alone) whole) := by
  subst hwhole
  by_cases hid : name = id
  · subst hid
    exact yields_idMember hd h
  by_cases hcontext : name = context ∧ alone = true
  · obtain ⟨rfl, halone⟩ := hcontext
    exact yields_contextMember_alone hd h halone
  rw [readLinkMember, if_neg hid, if_neg hcontext]
  cases hname : annotationName? name with
  | none =>
      refine yields_refuse ?_
      intro hall
      have hcustom := (hall.fits_next.of_other hid hcontext).1
      simp [customName?, hname] at hcustom
  | some n =>
      refine (yields_readOne hd.annotations hname hdepth h).bind ?_ ?_
      · rintro ⟨seen', annotations'⟩ ⟨hcustom, hnew, hdistinct, hannotations, hothers⟩
        exact yields_pure (linkSoFar_custom hd hcustom hnew hdistinct hannotations hothers)
      · intro hbad
        exact not_members_of_bad hbad fun hfits => hfits.of_other hid hcontext

end Members

end LinkStep

theorem isLink_object_iff {alone : Bool} {ms : List (String × Tree)} :
    IsLink parseUrl alone (.object ms) ↔
      Members (LinkMember parseUrl alone) ms ∧ id ∈ ms.map Prod.fst := by
  simp [IsLink]

/-- What a reader of a link may yield: the link, and a state in which no other owner has changed. -/
def LinkRead (parseUrl : Url.Parser) (settings : ReaderSettings) (owner : AnnotationOwner)
    (alone : Bool) (seen : SeenNames) (t : Tree) (r : SeenNames × ReferenceLink) : Prop :=
  IsLink parseUrl alone t ∧ linkOf? parseUrl settings t = some r.2 ∧ KeepsOthers owner seen r.1

theorem linkSoFar_nil {alone : Bool} (hfresh : ∀ n, (owner, n) ∉ seen.entries) :
    LinkSoFar parseUrl settings owner alone seen [] { seen } where
  members := Members.nil _
  context := by simp
  url := rfl
  annotations := AnnotationsSoFar.nil hfresh
  others := KeepsOthers.refl owner seen

/-- The link that its members make. -/
theorem yields_finishLink {alone : Bool} {d : LinkDraft} {ms : List (String × Tree)}
    (hd : LinkSoFar parseUrl settings owner alone seen ms d) :
    Yields (d.finish owner) o o (LinkRead parseUrl settings owner alone seen (.object ms))
      (¬ IsLink parseUrl alone (.object ms)) := by
  unfold LinkDraft.finish
  cases hurl : d.url with
  | none =>
      refine yields_refuse ?_
      intro hlink
      have hnew := hd.url.not_mem (by simp [hurl]) hd.members fun t => LinkMember.of_id
      exact hnew (isLink_object_iff.1 hlink).2
  | some u =>
      have hlink := isLink_object_iff.2 ⟨hd.members, hd.url.mem (by simp [hurl])⟩
      have hslot : ms.lookup id >>= urlOf? parseUrl = some u := hd.url.symm.trans hurl
      refine yields_pure ⟨hlink, ?_, hd.others⟩
      simp [linkOf?, hslot, hd.annotations.annotations]

theorem yields_readLinkObject {alone : Bool} (hfresh : ∀ n, (owner, n) ∉ seen.entries)
    (hdepth : t.depth ≤ room) (h : t.Ahead i o) :
    Yields (readLinkObject parseUrl settings room owner alone seen) i o
      (LinkRead parseUrl settings owner alone seen t) (¬ IsLink parseUrl alone t) := by
  refine (Yields.of_start h ?_).located
  intro m hm
  cases t with
  | object ms =>
      obtain ⟨room, rfl⟩ := Tree.exists_room_of_object hdepth
      refine Yields.objectOpening hm ?_
      intro i hi
      have hmembers : Yields
          (Scan.members (readLinkMember parseUrl settings room owner alone) { seen }) i
          (Byte.closeBrace :: o) (LinkSoFar parseUrl settings owner alone seen ms)
          (¬ Members (LinkMember parseUrl alone) ms) := by
        refine yields_members (LinkSoFar parseUrl settings owner alone seen) hi
          (linkSoFar_nil hfresh) ?_
        intro before name t after d m o hwhole hd hm
        have hmem : (name, t) ∈ ms := by simp [hwhole]
        exact yields_readLinkMember hd hm hwhole (Tree.depth_object_le_iff.1 hdepth _ hmem)
      refine hmembers.bind ?_ ?_
      · intro d hd
        exact yields_finishLink hd
      · intro hbad hlink
        exact hbad (isLink_object_iff.1 hlink).1
  | _ =>
      refine yields_misfit ?_
      rintro ⟨ms, hms, -⟩
      cases hms

/-! ## Lists of links -/

/-- What has been read of a list of links, in terms of the items read so far. -/
structure ListSoFar (parseUrl : Url.Parser) (settings : ReaderSettings) (seen : SeenNames)
    (before : List Tree) (state : SeenNames × List ReferenceLink) : Prop where
  areLinks : ∀ t ∈ before, IsLink parseUrl false t
  links : before.mapM (linkOf? parseUrl settings) = some state.2.reverse
  fresh : ∀ index n, before.length ≤ index → (.link index, n) ∉ state.1.entries
  collection : ∀ n, (.collection, n) ∈ state.1.entries ↔ (.collection, n) ∈ seen.entries

theorem length_of_mapM {α β : Type} {f : α → Option β} :
    ∀ {as : List α} {bs : List β}, as.mapM f = some bs → bs.length = as.length
  | [], bs, h => by
      cases h
      rfl
  | a :: as, bs, h => by
      simp only [List.mapM_cons, Option.bind_eq_bind, Option.bind_eq_some_iff, Option.pure_def,
        Option.some.injEq] at h
      obtain ⟨b, -, bs, hbs, rfl⟩ := h
      rw [List.length_cons, List.length_cons, length_of_mapM hbs]

theorem ListSoFar.length {before : List Tree} {state : SeenNames × List ReferenceLink}
    (h : ListSoFar parseUrl settings seen before state) : state.2.length = before.length := by
  rw [← length_of_mapM h.links, List.length_reverse]

theorem ListSoFar.snoc {before : List Tree} {state : SeenNames × List ReferenceLink}
    {r : SeenNames × ReferenceLink} (h : ListSoFar parseUrl settings seen before state)
    (ht : LinkRead parseUrl settings (.link before.length) false state.1 t r) :
    ListSoFar parseUrl settings seen (before ++ [t]) (r.1, r.2 :: state.2) := by
  obtain ⟨hlink, hvalue, hothers⟩ := ht
  refine ⟨?_, ?_, ?_, ?_⟩
  · simp only [List.forall_mem_append, List.forall_mem_singleton]
    exact ⟨h.areLinks, hlink⟩
  · simp [List.mapM_append, h.links, hvalue]
  · intro index n hindex
    rw [List.length_append, List.length_singleton] at hindex
    have hne : AnnotationOwner.link index ≠ .link before.length := by
      intro heq
      cases heq
      omega
    rw [hothers _ n hne]
    exact h.fresh index n (by omega)
  · intro n
    exact (hothers .collection n (by simp)).trans (h.collection n)

theorem ListSoFar.nil (hfresh : ∀ index n, (.link index, n) ∉ seen.entries) :
    ListSoFar parseUrl settings seen [] (seen, []) where
  areLinks _ ht := absurd ht List.not_mem_nil
  links := rfl
  fresh index n _ := hfresh index n
  collection _ := Iff.rfl

theorem yields_readLinkItem {before after whole : List Tree} {state : SeenNames × List ReferenceLink}
    (hstate : ListSoFar parseUrl settings seen before state) (hwhole : whole = before ++ t :: after)
    (hdepth : t.depth ≤ room) (h : t.Ahead i o) :
    Yields (readLinkItem parseUrl settings room state) i o
      (ListSoFar parseUrl settings seen (before ++ [t]))
      (¬ ∀ t ∈ whole, IsLink parseUrl false t) := by
  obtain ⟨seen', links⟩ := state
  have hmem : t ∈ whole := by simp [hwhole]
  have hlength : links.length = before.length := hstate.length
  have hfresh : ∀ n, (.link links.length, n) ∉ seen'.entries := by
    intro n
    exact hstate.fresh links.length n (by omega)
  have hlink : Yields (readLinkObject parseUrl settings room (.link links.length) false seen') i o
      (LinkRead parseUrl settings (.link links.length) false seen' t) (¬ IsLink parseUrl false t) :=
    yields_readLinkObject hfresh hdepth h
  refine hlink.bind ?_ ?_
  · intro r hr
    rw [hlength] at hr
    exact yields_pure (hstate.snoc hr)
  · intro hbad hall
    exact hbad (hall t hmem)

/-- What a reader of a list of links may yield: the links, and no name more on the collection. -/
def ListRead (parseUrl : Url.Parser) (settings : ReaderSettings) (seen : SeenNames) (t : Tree)
    (r : SeenNames × List ReferenceLink) : Prop :=
  (∃ items, t = .list items ∧ ∀ t ∈ items, IsLink parseUrl false t) ∧
    linkListOf? parseUrl settings t = some r.2 ∧
    ∀ n, (.collection, n) ∈ r.1.entries ↔ (.collection, n) ∈ seen.entries

theorem yields_readLinkList (hfresh : ∀ index n, (.link index, n) ∉ seen.entries)
    (hdepth : t.depth ≤ room) (h : t.Ahead i o) :
    Yields (readLinkList parseUrl settings room seen) i o (ListRead parseUrl settings seen t)
      (¬ ∃ items, t = .list items ∧ ∀ t ∈ items, IsLink parseUrl false t) := by
  refine (Yields.of_start h ?_).located
  intro m hm
  cases t with
  | list whole =>
      obtain ⟨room, rfl⟩ := Tree.exists_room_of_list hdepth
      refine Yields.listOpening hm ?_
      intro i hi
      have hitems : Yields (items (readLinkItem parseUrl settings room) (seen, [])) i
          (Byte.closeBracket :: o) (ListSoFar parseUrl settings seen whole)
          (¬ ∀ t ∈ whole, IsLink parseUrl false t) := by
        refine yields_items (ListSoFar parseUrl settings seen) hi (ListSoFar.nil hfresh) ?_
        intro before t after state m o hwhole hstate hm
        have hmem : t ∈ whole := by simp [hwhole]
        exact yields_readLinkItem hstate hwhole (Tree.depth_list_le_iff.1 hdepth t hmem) hm
      refine hitems.bind ?_ ?_
      · intro r hr
        exact yields_pure ⟨⟨whole, rfl, hr.areLinks⟩, hr.links, hr.collection⟩
      · rintro hbad ⟨items, hitems, hall⟩
        cases hitems
        exact hbad hall
  | _ =>
      refine yields_misfit ?_
      rintro ⟨items, hitems, -⟩
      cases hitems

/-! ## Collections -/

section LinksMember

variable (h : LinksMember parseUrl (name, t))
include h

theorem LinksMember.of_count (hname : name = count) : (countOf? t).isSome := by
  subst hname
  rcases h with h | h | h | h | h
  · exact absurd h (show count ≠ context by decide)
  · exact h.2
  · exact absurd h.1 (show count ≠ nextLink by decide)
  · exact absurd h.1 (show count ≠ value by decide)
  · simp at h

theorem LinksMember.of_nextLink (hname : name = nextLink) : (urlOf? parseUrl t).isSome := by
  subst hname
  rcases h with h | h | h | h | h
  · exact absurd h (show nextLink ≠ context by decide)
  · exact absurd h.1 (show nextLink ≠ count by decide)
  · exact h.2
  · exact absurd h.1 (show nextLink ≠ value by decide)
  · simp at h

theorem LinksMember.of_value (hname : name = value) :
    ∃ items, t = .list items ∧ ∀ t ∈ items, IsLink parseUrl false t := by
  subst hname
  rcases h with h | h | h | h | h
  · exact absurd h (show value ≠ context by decide)
  · exact absurd h.1 (show value ≠ count by decide)
  · exact absurd h.1 (show value ≠ nextLink by decide)
  · exact h.2
  · simp at h

theorem LinksMember.of_other (hcontext : name ≠ context) (hcount : name ≠ count)
    (hnext : name ≠ nextLink) (hvalue : name ≠ value) :
    (customName? name).isSome ∧ t.DistinctNames := by
  rcases h with h | h | h | h | h
  · exact absurd h hcontext
  · exact absurd h.1 hcount
  · exact absurd h.1 hnext
  · exact absurd h.1 hvalue
  · exact h

end LinksMember

/-- Every link of the grammar stands for something. -/
theorem linkOf?_isSome {alone : Bool} (settings : ReaderSettings) (h : IsLink parseUrl alone t) :
    (linkOf? parseUrl settings t).isSome := by
  obtain ⟨ms, rfl, hmembers, hid⟩ := h
  obtain ⟨t, ht⟩ := exists_lookup_of_mem hid
  have hurl : (urlOf? parseUrl t).isSome := LinkMember.of_id (hmembers.fits _ (mem_of_lookup ht))
  simpa [linkOf?, ht] using hurl

theorem linkListOf?_isSome (settings : ReaderSettings) {items : List Tree}
    (h : ∀ t ∈ items, IsLink parseUrl false t) :
    (linkListOf? parseUrl settings (.list items)).isSome := by
  rw [linkListOf?]
  induction items with
  | nil => rfl
  | cons t items ih =>
      rw [List.forall_mem_cons] at h
      obtain ⟨link, hlink⟩ := Option.isSome_iff_exists.1 (linkOf?_isSome settings h.1)
      obtain ⟨links, hlinks⟩ := Option.isSome_iff_exists.1 (ih h.2)
      simp [List.mapM_cons, hlink, hlinks]

/-- What has been read of a collection, in terms of the members read so far. -/
structure LinksSoFar (parseUrl : Url.Parser) (settings : ReaderSettings)
    (before : List (String × Tree)) (d : LinksDraft) : Prop where
  members : Members (LinksMember parseUrl) before
  context : d.seenContext = true ↔ context ∈ before.map Prod.fst
  count : Slot countOf? count before d.count
  nextPage : Slot (urlOf? parseUrl) nextLink before d.nextPage
  links : Slot (linkListOf? parseUrl settings) value before d.links
  annotations : AnnotationsSoFar settings .collection before d.seen d.annotations
  /-- Names are seen on links only when the list of links is read. -/
  fresh : d.links = none → ∀ index n, (.link index, n) ∉ d.seen.entries

theorem linksSoFar_nil (settings : ReaderSettings) : LinksSoFar parseUrl settings [] {} where
  members := Members.nil _
  context := by simp
  count := rfl
  nextPage := rfl
  links := rfl
  annotations := AnnotationsSoFar.nil fun _ => List.not_mem_nil
  fresh _ _ _ := List.not_mem_nil

section LinksStep

variable {d : LinksDraft} (hd : LinksSoFar parseUrl settings before d)
include hd

theorem value_not_mem (hlinks : ¬ d.links.isSome = true) : value ∉ before.map Prod.fst := by
  refine hd.links.not_mem hlinks hd.members ?_
  intro t ht
  obtain ⟨items, rfl, hall⟩ := LinksMember.of_value ht rfl
  exact linkListOf?_isSome settings hall

theorem linksSoFar_context (hseen : d.seenContext = false) :
    LinksSoFar parseUrl settings (before ++ [(context, t)]) { d with seenContext := true } where
  members := by
    refine hd.members.snoc ?_ (.inl rfl)
    rw [← hd.context, hseen]
    exact Bool.false_ne_true
  context := by simp
  count := hd.count.other (by decide)
  nextPage := hd.nextPage.other (by decide)
  links := hd.links.other (by decide)
  annotations := hd.annotations.other customName?_context
  fresh := hd.fresh

theorem linksSoFar_count {n : Int64} (hnew : count ∉ before.map Prod.fst)
    (hn : countOf? t = some n) :
    LinksSoFar parseUrl settings (before ++ [(count, t)]) { d with count := some n } where
  members := hd.members.snoc hnew (.inr (.inl ⟨rfl, by simp [hn]⟩))
  context := seenContext_other hd.context (by decide)
  count := Slot.self hnew hn
  nextPage := hd.nextPage.other (by decide)
  links := hd.links.other (by decide)
  annotations := hd.annotations.other customName?_count
  fresh := hd.fresh

theorem linksSoFar_nextLink {u : Url} (hnew : nextLink ∉ before.map Prod.fst)
    (hu : urlOf? parseUrl t = some u) :
    LinksSoFar parseUrl settings (before ++ [(nextLink, t)]) { d with nextPage := some u } where
  members := hd.members.snoc hnew (.inr (.inr (.inl ⟨rfl, by simp [hu]⟩)))
  context := seenContext_other hd.context (by decide)
  count := hd.count.other (by decide)
  nextPage := Slot.self hnew hu
  links := hd.links.other (by decide)
  annotations := hd.annotations.other customName?_nextLink
  fresh := hd.fresh

theorem linksSoFar_value {r : SeenNames × List ReferenceLink} (hnew : value ∉ before.map Prod.fst)
    (hr : ListRead parseUrl settings d.seen t r) :
    LinksSoFar parseUrl settings (before ++ [(value, t)])
      { d with seen := r.1, links := some r.2 } where
  members := hd.members.snoc hnew (.inr (.inr (.inr (.inl ⟨rfl, hr.1⟩))))
  context := seenContext_other hd.context (by decide)
  count := hd.count.other (by decide)
  nextPage := hd.nextPage.other (by decide)
  links := Slot.self hnew hr.2.1
  annotations :=
    { annotations := (hd.annotations.other customName?_value).annotations
      names := fun n => (hr.2.2 n).trans ((hd.annotations.other customName?_value).names n) }
  fresh := nofun

theorem linksSoFar_custom {seen' : SeenNames} {annotations' : Annotations}
    (hcustom : (customName? name).isSome) (hnew : name ∉ before.map Prod.fst)
    (hdistinct : t.DistinctNames)
    (hannotations : AnnotationsSoFar settings .collection (before ++ [(name, t)]) seen' annotations')
    (hothers : KeepsOthers .collection d.seen seen') :
    LinksSoFar parseUrl settings (before ++ [(name, t)])
      { d with seen := seen', annotations := annotations' } where
  members := hd.members.snoc hnew (.inr (.inr (.inr (.inr ⟨hcustom, hdistinct⟩))))
  context := seenContext_other hd.context (ne_of_isCustom customName?_context hcustom).symm
  count := hd.count.other (ne_of_isCustom customName?_count hcustom)
  nextPage := hd.nextPage.other (ne_of_isCustom customName?_nextLink hcustom)
  links := hd.links.other (ne_of_isCustom customName?_value hcustom)
  annotations := hannotations
  fresh hlinks index n := by
    rw [hothers _ n (by simp)]
    exact hd.fresh hlinks index n

section Members

variable (h : t.BehindName i o)
include h

theorem yields_contextMember :
    Yields (readLinksMember parseUrl settings room d context) i o
      (LinksSoFar parseUrl settings (before ++ [(context, t)]))
      (¬ Members (LinksMember parseUrl) (before ++ (context, t) :: after)) := by
  rw [readLinksMember, if_pos rfl]
  refine (yields_readContext h).bind ?_ ?_
  · intro _ hseen
    exact yields_pure (linksSoFar_context hd hseen)
  · intro hseen hall
    exact hall.fresh_next (hd.context.1 hseen)

theorem yields_nextLinkMember :
    Yields (readLinksMember parseUrl settings room d nextLink) i o
      (LinksSoFar parseUrl settings (before ++ [(nextLink, t)]))
      (¬ Members (LinksMember parseUrl) (before ++ (nextLink, t) :: after)) := by
  rw [readLinksMember, if_neg (by decide), if_neg (by decide), if_pos rfl]
  refine yields_unless ?_ ?_
  · intro hslot hall
    exact hall.fresh_next (hd.nextPage.mem hslot)
  · intro hslot
    have hnew := hd.nextPage.not_mem hslot hd.members fun t ht => ht.of_nextLink rfl
    refine (yields_readUrl h).bind ?_ ?_
    · intro u hu
      exact yields_pure (linksSoFar_nextLink hd hnew hu)
    · intro hu hall
      simpa [hu] using hall.fits_next.of_nextLink rfl

variable (hdepth : t.depth ≤ room)
include hdepth

theorem yields_countMember :
    Yields (readLinksMember parseUrl settings room d count) i o
      (LinksSoFar parseUrl settings (before ++ [(count, t)]))
      (¬ Members (LinksMember parseUrl) (before ++ (count, t) :: after)) := by
  rw [readLinksMember, if_neg (by decide), if_pos rfl]
  refine yields_unless ?_ ?_
  · intro hslot hall
    exact hall.fresh_next (hd.count.mem hslot)
  · intro hslot
    have hnew := hd.count.not_mem hslot hd.members fun t ht => ht.of_count rfl
    refine (Yields.member h fun m hm => yields_readCount hdepth hm).bind ?_ ?_
    · intro n hn
      exact yields_pure (linksSoFar_count hd hnew hn)
    · intro hn hall
      simpa [hn] using hall.fits_next.of_count rfl

theorem yields_valueMember :
    Yields (readLinksMember parseUrl settings room d value) i o
      (LinksSoFar parseUrl settings (before ++ [(value, t)]))
      (¬ Members (LinksMember parseUrl) (before ++ (value, t) :: after)) := by
  rw [readLinksMember, if_neg (by decide), if_neg (by decide), if_neg (by decide), if_pos rfl]
  refine yields_unless ?_ ?_
  · intro hslot hall
    exact hall.fresh_next (hd.links.mem hslot)
  · intro hslot
    have hnew := value_not_mem hd hslot
    have hfresh := hd.fresh (Option.not_isSome_iff_eq_none.1 hslot)
    refine (Yields.member h fun m hm => yields_readLinkList hfresh hdepth hm).bind ?_ ?_
    · intro r hr
      exact yields_pure (linksSoFar_value hd hnew hr)
    · intro hbad hall
      exact hbad (hall.fits_next.of_value rfl)

/-- A member of a collection: as for links, with four names that have readers of their own. -/
theorem yields_readLinksMember (hwhole : whole = before ++ (name, t) :: after) :
    Yields (readLinksMember parseUrl settings room d name) i o
      (LinksSoFar parseUrl settings (before ++ [(name, t)]))
      (¬ Members (LinksMember parseUrl) whole) := by
  subst hwhole
  by_cases hcontext : name = context
  · subst hcontext
    exact yields_contextMember hd h
  by_cases hcount : name = count
  · subst hcount
    exact yields_countMember hd h hdepth
  by_cases hnext : name = nextLink
  · subst hnext
    exact yields_nextLinkMember hd h
  by_cases hvalue : name = value
  · subst hvalue
    exact yields_valueMember hd h hdepth
  rw [readLinksMember, if_neg hcontext, if_neg hcount, if_neg hnext, if_neg hvalue]
  cases hname : annotationName? name with
  | none =>
      refine yields_refuse ?_
      intro hall
      have hcustom := (hall.fits_next.of_other hcontext hcount hnext hvalue).1
      simp [customName?, hname] at hcustom
  | some n =>
      refine (yields_readOne hd.annotations hname hdepth h).bind ?_ ?_
      · rintro ⟨seen', annotations'⟩ ⟨hcustom, hnew, hdistinct, hannotations, hothers⟩
        exact yields_pure (linksSoFar_custom hd hcustom hnew hdistinct hannotations hothers)
      · intro hbad
        exact not_members_of_bad hbad fun hfits => hfits.of_other hcontext hcount hnext hvalue

end Members

end LinksStep

theorem isLinks_object_iff {ms : List (String × Tree)} :
    IsLinks parseUrl (.object ms) ↔ Members (LinksMember parseUrl) ms ∧ value ∈ ms.map Prod.fst := by
  simp [IsLinks]

/-- The collection that its members make. -/
theorem yields_finishLinks {d : LinksDraft} {ms : List (String × Tree)}
    (hd : LinksSoFar parseUrl settings ms d) :
    Yields d.finish o o
      (fun links => IsLinks parseUrl (.object ms) ∧
        linksOf? parseUrl settings (.object ms) = some links)
      (¬ IsLinks parseUrl (.object ms)) := by
  unfold LinksDraft.finish
  cases hlinks : d.links with
  | none =>
      refine yields_refuse ?_
      intro hgood
      exact value_not_mem hd (by simp [hlinks]) (isLinks_object_iff.1 hgood).2
  | some links =>
      have hgood := isLinks_object_iff.2 ⟨hd.members, hd.links.mem (by simp [hlinks])⟩
      have hslot : ms.lookup value >>= linkListOf? parseUrl settings = some links :=
        hd.links.symm.trans hlinks
      refine yields_pure ⟨hgood, ?_⟩
      simp [linksOf?, hslot, hd.annotations.annotations, hd.count, hd.nextPage]

theorem yields_readLinksObject (hdepth : t.depth ≤ room) (h : t.Ahead i o) :
    Yields (readLinksObject parseUrl settings room) i o
      (fun links => IsLinks parseUrl t ∧ linksOf? parseUrl settings t = some links)
      (¬ IsLinks parseUrl t) := by
  refine (Yields.of_start h ?_).located
  intro m hm
  cases t with
  | object ms =>
      obtain ⟨room, rfl⟩ := Tree.exists_room_of_object hdepth
      refine Yields.objectOpening hm ?_
      intro i hi
      have hmembers : Yields (Scan.members (readLinksMember parseUrl settings room) {}) i
          (Byte.closeBrace :: o) (LinksSoFar parseUrl settings ms)
          (¬ Members (LinksMember parseUrl) ms) := by
        refine yields_members (LinksSoFar parseUrl settings) hi (linksSoFar_nil settings) ?_
        intro before name t after d m o hwhole hd hm
        have hmem : (name, t) ∈ ms := by simp [hwhole]
        exact yields_readLinksMember hd hm (Tree.depth_object_le_iff.1 hdepth _ hmem) hwhole
      refine hmembers.bind ?_ ?_
      · intro d hd
        exact yields_finishLinks hd
      · intro hbad hlinks
        exact hbad (isLinks_object_iff.1 hlinks).1
  | _ =>
      refine yields_misfit ?_
      rintro ⟨ms, hms, -⟩
      cases hms

end OData.Payload
