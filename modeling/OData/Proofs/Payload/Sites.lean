/-
# `OData.Proofs.Payload.Sites` — where the value of an annotation stands

A payload with the value of one custom annotation cut out of it.  The annotation may be on any owner:

| | the members around it | what is read there |
| :-- | :-- | :-- |
| `collection` | those of a collection | the annotations of the collection |
| `listed` | those of a link in the list of a collection | the annotations of that link |
| `alone` | those of a link that stands alone | the annotations of the link |

Whether the whole is a payload does not depend on the value, if no name comes twice in it.  So a value
can be put in its place and is read there as it would be by itself (`gives_read`), and a flaw in
it is the flaw of the payload (`exists_read_eq_error`).
-/
import OData.Proofs.Payload.Acceptance
import OData.Proofs.Payload.Stopping

namespace OData

open Json Json.Scan Json.Tree

/-! ## One part for another -/

namespace Json.Tree

variable {t t' : Tree} {room : Nat}

theorem depth_list_replace {before after : List Tree}
    (h : (list (before ++ t :: after)).depth ≤ room) (ht : t'.depth ≤ t.depth) :
    (list (before ++ t' :: after)).depth ≤ room := by
  obtain ⟨room, rfl⟩ := exists_room_of_list h
  simp only [depth_list_le_iff, List.forall_mem_append, List.forall_mem_cons] at h ⊢
  exact ⟨h.1, Nat.le_trans ht h.2.1, h.2.2⟩

theorem depth_object_replace {before after : List (String × Tree)} {name : String}
    (h : (object (before ++ (name, t) :: after)).depth ≤ room) (ht : t'.depth ≤ t.depth) :
    (object (before ++ (name, t') :: after)).depth ≤ room := by
  obtain ⟨room, rfl⟩ := exists_room_of_object h
  simp only [depth_object_le_iff, List.forall_mem_append, List.forall_mem_cons] at h ⊢
  exact ⟨h.1, Nat.le_trans ht h.2.1, h.2.2⟩

/-- What stands in front of a part nests no deeper than the whole. -/
theorem depth_front_of_object {before after : List (String × Tree)} {m : String × Tree}
    (h : (object (before ++ m :: after)).depth ≤ room + 1) : ∀ m' ∈ before, m'.2.depth ≤ room :=
  (List.forall_mem_append.1 (depth_object_le_iff.1 h)).1

theorem depth_self_of_object {before after : List (String × Tree)} {m : String × Tree}
    (h : (object (before ++ m :: after)).depth ≤ room + 1) : m.2.depth ≤ room :=
  (List.forall_mem_cons.1 (List.forall_mem_append.1 (depth_object_le_iff.1 h)).2).1

/-- Blanks around a text that is put in its place. -/
theorem jsonText_around {lead front text back trail : List UInt8} (hlead : Blank lead)
    (htrail : Blank trail) (h : t.SpelledBy (front ++ (text ++ back))) :
    JsonText (lead ++ front ++ (text ++ (back ++ trail))) t := by
  refine ⟨lead, front ++ (text ++ back), trail, hlead, htrail, h, ?_⟩
  simp only [List.append_assoc]

end Json.Tree

namespace Payload

variable {parseUrl : Url.Parser} {settings : ReaderSettings} {before after : List (String × Tree)}
  {name n : String} {t t' : Tree}

theorem Members.replace {Fits : String × Tree → Prop} (h : Members Fits (before ++ (name, t) :: after))
    (ht : Fits (name, t')) : Members Fits (before ++ (name, t') :: after) := by
  obtain ⟨hdistinct, hfits⟩ := h
  rw [List.forall_mem_append, List.forall_mem_cons] at hfits
  refine ⟨?_, ?_⟩
  · simpa using hdistinct
  · rw [List.forall_mem_append, List.forall_mem_cons]
    exact ⟨hfits.1, ht, hfits.2.2⟩

theorem linkMember_custom {alone : Bool} (hcustom : customName? name = some n) (ht : t.DistinctNames) :
    LinkMember parseUrl alone (name, t) :=
  .inr (.inr ⟨by simp [hcustom], ht⟩)

theorem linksMember_custom (hcustom : customName? name = some n) (ht : t.DistinctNames) :
    LinksMember parseUrl (name, t) :=
  .inr (.inr (.inr (.inr ⟨by simp [hcustom], ht⟩)))

/-- Among members with distinct names there is one annotation of a name. -/
theorem mem_annotations_iff (hdistinct : ((before ++ (name, t) :: after).map Prod.fst).Nodup)
    (hcustom : customName? name = some n) (haccepts : settings.annotationFilter.accepts n = true)
    (v : Value) : ⟨n, v⟩ ∈ (before ++ (name, t) :: after).filterMap (annotationOf? settings) ↔
      v = annotationValue settings (Value.ofTree t) := by
  rw [List.mem_filterMap]
  constructor
  · rintro ⟨⟨other, t'⟩, hmem, hannotation⟩
    simp only [annotationOf?, Option.bind_eq_some_iff] at hannotation
    obtain ⟨n', hother, hannotation⟩ := hannotation
    split at hannotation
    · cases hannotation
      obtain rfl : other = name := eq_of_customName? hother hcustom
      have hself : (other, t) ∈ before ++ (other, t) :: after := by simp
      cases List.inj_on_of_nodup_map hdistinct hmem hself rfl
      rfl
    · cases hannotation
  · rintro rfl
    refine ⟨(name, t), by simp, ?_⟩
    simp [annotationOf?, hcustom, haccepts]

theorem isLink_replace {alone : Bool}
    (h : IsLink parseUrl alone (.object (before ++ (name, t) :: after)))
    (ht : LinkMember parseUrl alone (name, t')) :
    IsLink parseUrl alone (.object (before ++ (name, t') :: after)) := by
  rw [isLink_object_iff] at h ⊢
  exact ⟨h.1.replace ht, by simpa using h.2⟩

theorem isLinks_replace (h : IsLinks parseUrl (.object (before ++ (name, t) :: after)))
    (ht : LinksMember parseUrl (name, t')) :
    IsLinks parseUrl (.object (before ++ (name, t') :: after)) := by
  rw [isLinks_object_iff] at h ⊢
  exact ⟨h.1.replace ht, by simpa using h.2⟩

/-- The links of a collection that has one with this member, and that link. -/
theorem isLink_of_listed {links links' : List Tree} {outer outer' : List (String × Tree)}
    (h : IsLinks parseUrl (.object (outer ++
      (value, .list (links ++ .object (before ++ (name, t) :: after) :: links')) :: outer'))) :
    (∀ t ∈ links, IsLink parseUrl false t) ∧
      IsLink parseUrl false (.object (before ++ (name, t) :: after)) ∧
      ∀ t ∈ links', IsLink parseUrl false t := by
  obtain ⟨items, hitems, hall⟩ := (isLinks_object_iff.1 h).1.fits_next.of_value rfl
  cases hitems
  rwa [List.forall_mem_append, List.forall_mem_cons] at hall

/-! ## What a payload stands for -/

theorem annotations_of_linkOf? {ms : List (String × Tree)} {link : ReferenceLink}
    (h : linkOf? parseUrl settings (.object ms) = some link) :
    link.annotations = ms.filterMap (annotationOf? settings) := by
  obtain ⟨url, -, rfl⟩ := Option.map_eq_some_iff.1 h
  rfl

theorem annotations_of_linksOf? {ms : List (String × Tree)} {r : ReferenceLinks}
    (h : linksOf? parseUrl settings (.object ms) = some r) :
    r.annotations = ms.filterMap (annotationOf? settings) := by
  obtain ⟨links, -, rfl⟩ := Option.map_eq_some_iff.1 h
  rfl

theorem getElem?_of_mapM {α β : Type} {f : α → Option β} : ∀ {as : List α} {bs : List β},
    as.mapM f = some bs → ∀ k : Nat, bs[k]? = as[k]?.bind f
  | [], bs, h, k => by
      cases h
      rfl
  | a :: as, bs, h, k => by
      simp only [List.mapM_cons, Option.bind_eq_bind, Option.bind_eq_some_iff, Option.pure_def,
        Option.some.injEq] at h
      obtain ⟨b, hb, bs, hbs, rfl⟩ := h
      cases k with
      | zero => exact hb.symm
      | succ k => exact getElem?_of_mapM hbs k

theorem Members.lookup {Fits : String × Tree → Prop}
    (h : Members Fits (before ++ (name, t) :: after)) :
    (before ++ (name, t) :: after).lookup name = some t := by
  rw [List.lookup_append, lookup_eq_none_of_not_mem h.fresh_next, Option.none_or,
    List.lookup_cons_self]

/-- The links of a collection are those of its list, one for each item. -/
theorem links_of_linksOf? {ms : List (String × Tree)} {items : List Tree} {r : ReferenceLinks}
    (h : linksOf? parseUrl settings (.object ms) = some r)
    (hvalue : ms.lookup value = some (.list items)) (k : Nat) :
    r.links.bind (·[k]?) = items[k]?.bind (linkOf? parseUrl settings) := by
  obtain ⟨links, hlinks, rfl⟩ := Option.map_eq_some_iff.1 h
  rw [hvalue] at hlinks
  exact getElem?_of_mapM hlinks k

/-! ## Flaws -/

section Flaws

variable {flaw : Flaw} {lead front back i : List UInt8}

/-- A collection is reported with the flaw that stops the reader of one of its members. -/
theorem exists_readLinks_eq_error {room : Nat} (hroom : deepest = room + 1) (hlead : Blank lead)
    (hgap : MemberGap before name after front back)
    (hfits : IsLinks parseUrl (.object (before ++ (name, t) :: after)))
    (hdepth : (object (before ++ (name, t) :: after)).depth ≤ deepest)
    (hlast : ∀ d gap gap', LinksSoFar parseUrl settings before d → name ∉ before.map Prod.fst →
      Blank gap → Blank gap' →
      Stops flaw (readLinksMember parseUrl settings room d name) (gap ++ Byte.colon :: (gap' ++ i))) :
    ∃ place, readLinks parseUrl settings (lead ++ front ++ i) = .error (.notJson flaw place) := by
  obtain ⟨upTo, behind, hupTo, -, rfl, -⟩ := hgap
  have hmembers := (isLinks_object_iff.1 hfits).1
  have hstops : Stops flaw (readLinksObject parseUrl settings deepest)
      (lead ++ Byte.openBrace :: (upTo ++ i)) := by
    rw [hroom] at hdepth ⊢
    refine stops_readLinksObject hmembers (depth_front_of_object hdepth) hupTo hlead ?_
    exact fun d gap gap' hd => hlast d gap gap' hd hmembers.fresh_next
  obtain ⟨place, hrun⟩ := hstops.run
  refine ⟨place, ?_⟩
  rw [readLinks, List.append_assoc, List.cons_append, hrun]
  rfl

/-- So is a link that stands alone and has the flaw in an annotation. -/
theorem exists_readLink_eq_error (hlead : Blank lead) (hgap : MemberGap before name after front back)
    (hfits : IsLink parseUrl true (.object (before ++ (name, t) :: after)))
    (hdepth : (object (before ++ (name, t) :: after)).depth ≤ deepest)
    (hcustom : customName? name = some n) (hi : Flawed flaw i) :
    ∃ place, readLink parseUrl settings (lead ++ front ++ i) = .error (.notJson flaw place) := by
  obtain ⟨upTo, behind, hupTo, -, rfl, -⟩ := hgap
  have hstops : Stops flaw (readLinkObject parseUrl settings deepest (.link 0) true .empty)
      (lead ++ Byte.openBrace :: (upTo ++ i)) :=
    hi.readLinkObject (fun _ => List.not_mem_nil) (isLink_object_iff.1 hfits).1 hcustom
      (depth_front_of_object hdepth) hupTo hlead
  obtain ⟨place, hrun⟩ := (hstops.bind fun r => pure r.2).run
  refine ⟨place, ?_⟩
  rw [readLink, List.append_assoc, List.cons_append, hrun]
  rfl

end Flaws

/-! ## Sites -/

/-- The surroundings of a custom annotation, whose owner is the collection, a link in its list or a link
that stands alone. -/
inductive AnnotationSite where
  | collection (before after : List (String × Tree))
  | listed (before after : List (String × Tree)) (links links' : List Tree)
      (outer outer' : List (String × Tree))
  | alone (before after : List (String × Tree))

namespace AnnotationSite

/-- The payload, with `t` for the value of the annotation. -/
def plug (name : String) (t : Tree) : AnnotationSite → Tree
  | collection before after => .object (before ++ (name, t) :: after)
  | listed before after links links' outer outer' =>
    .object (outer ++ (value, .list (links ++ .object (before ++ (name, t) :: after) :: links')) :: outer')
  | alone before after => .object (before ++ (name, t) :: after)

/-- The text of the payload, up to that value and behind it. -/
def Around (name : String) (front back : List UInt8) : AnnotationSite → Prop
  | collection before after => MemberGap before name after front back
  | listed before after links links' outer outer' =>
    ∃ front₁ front₂ front₃ back₁ back₂ back₃, MemberGap outer value outer' front₁ back₁ ∧
      ItemGap links links' front₂ back₂ ∧ MemberGap before name after front₃ back₃ ∧
      front = front₁ ++ (front₂ ++ front₃) ∧ back = back₃ ++ (back₂ ++ back₁)
  | alone before after => MemberGap before name after front back

/-- The tree is a payload of the kind that is read. -/
def Fits (parseUrl : Url.Parser) : AnnotationSite → Tree → Prop
  | alone _ _, t => IsLink parseUrl true t
  | _, t => IsLinks parseUrl t

/-- The annotations that are read for the owner. -/
def read (parseUrl : Url.Parser) (settings : ReaderSettings) (bytes : List UInt8) :
    AnnotationSite → Except PayloadError (List InstanceAnnotation)
  | collection _ _ => (readLinks parseUrl settings bytes).map (·.annotations)
  | listed _ _ links _ _ _ => (readLinks parseUrl settings bytes).map fun r =>
    (r.links.bind (·[links.length]?)).elim [] (·.annotations)
  | alone _ _ => (readLink parseUrl settings bytes).map (·.annotations)

variable {site : AnnotationSite} {front back text : List UInt8}

theorem spelledBy (h : site.Around name front back) (ht : t.SpelledBy text) :
    (site.plug name t).SpelledBy (front ++ (text ++ back)) := by
  cases site with
  | collection before after => exact h.spelledBy ht
  | alone before after => exact h.spelledBy ht
  | listed before after links links' outer outer' =>
      obtain ⟨front₁, front₂, front₃, back₁, back₂, back₃, houter, hitem, hmember, rfl, rfl⟩ := h
      have hall := houter.spelledBy (hitem.spelledBy (hmember.spelledBy ht))
      simp only [List.append_assoc] at hall ⊢
      exact hall

theorem depth_plug (h : (site.plug name t).depth ≤ deepest) (ht : t'.depth ≤ t.depth) :
    (site.plug name t').depth ≤ deepest := by
  cases site with
  | collection before after => exact depth_object_replace h ht
  | alone before after => exact depth_object_replace h ht
  | listed before after links links' outer outer' =>
      exact depth_object_replace h
        (depth_list_replace (Nat.le_refl _) (depth_object_replace (Nat.le_refl _) ht))

/-- Any value may stand in the place of another. -/
theorem fits_plug (h : site.Fits parseUrl (site.plug name t)) (hcustom : customName? name = some n)
    (ht : t'.DistinctNames) : site.Fits parseUrl (site.plug name t') := by
  cases site with
  | collection before after => exact isLinks_replace h (linksMember_custom hcustom ht)
  | alone before after => exact isLink_replace h (linkMember_custom hcustom ht)
  | listed before after links links' outer outer' =>
      obtain ⟨hlinks, hlink, hlinks'⟩ := isLink_of_listed h
      have hlink' := isLink_replace hlink (linkMember_custom hcustom ht)
      refine isLinks_replace h (.inr (.inr (.inr (.inl ⟨rfl, _, rfl, ?_⟩))))
      rw [List.forall_mem_append, List.forall_mem_cons]
      exact ⟨hlinks, hlink', hlinks'⟩

/-! ## What is read there -/

/-- A value in its place is read as it is by itself, and is the only one of its name. -/
theorem gives_read {bytes : List UInt8} (hbytes : JsonText bytes (site.plug name t))
    (hdepth : (site.plug name t).depth ≤ deepest) (hcustom : customName? name = some n)
    (haccepts : settings.annotationFilter.accepts n = true) :
    Gives (site.read parseUrl settings bytes)
      (fun annotations => ∀ v, ⟨n, v⟩ ∈ annotations ↔ v = annotationValue settings (Value.ofTree t))
      fun _ => ¬ site.Fits parseUrl (site.plug name t) := by
  cases site with
  | collection before after =>
      refine (gives_readLinks parseUrl settings hbytes hdepth).map ?_
      rintro r ⟨hfits, hr⟩
      rw [annotations_of_linksOf? hr]
      exact mem_annotations_iff (isLinks_object_iff.1 hfits).1.distinct hcustom haccepts
  | alone before after =>
      refine (gives_readLink parseUrl settings hbytes hdepth).map ?_
      rintro r ⟨hfits, hr⟩
      rw [annotations_of_linkOf? hr]
      exact mem_annotations_iff (isLink_object_iff.1 hfits).1.distinct hcustom haccepts
  | listed before after links links' outer outer' =>
      refine (gives_readLinks parseUrl settings hbytes hdepth).map ?_
      rintro r ⟨hfits, hr⟩
      have hlink := (isLink_of_listed hfits).2.1
      obtain ⟨link, hvalue⟩ := Option.isSome_iff_exists.1 (linkOf?_isSome settings hlink)
      have hat : (links ++ .object (before ++ (name, t) :: after) :: links')[links.length]? =
          some (.object (before ++ (name, t) :: after)) := by simp
      have hread := links_of_linksOf? hr (isLinks_object_iff.1 hfits).1.lookup links.length
      rw [hread, hat, Option.bind_some, hvalue, Option.elim_some, annotations_of_linkOf? hvalue]
      exact mem_annotations_iff (isLink_object_iff.1 hlink).1.distinct hcustom haccepts

/-- A flaw in the value is what is wrong with the payload. -/
theorem exists_read_eq_error {flaw : Flaw} {lead i : List UInt8} (h : site.Around name front back)
    (hdepth : (site.plug name t).depth ≤ deepest) (hfits : site.Fits parseUrl (site.plug name t))
    (hcustom : customName? name = some n) (hlead : Blank lead) (hi : Flawed flaw i) :
    ∃ place, site.read parseUrl settings (lead ++ front ++ i) = .error (.notJson flaw place) := by
  cases site with
  | collection before after =>
      obtain ⟨place, hread⟩ := exists_readLinks_eq_error rfl hlead h hfits hdepth
        fun _ _ _ hd hnew => hi.readLinksMember_custom hd hcustom hnew
      exact ⟨place, congrArg (Except.map _) hread⟩
  | alone before after =>
      obtain ⟨place, hread⟩ := exists_readLink_eq_error hlead h hfits hdepth hcustom hi
      exact ⟨place, congrArg (Except.map _) hread⟩
  | listed before after links links' outer outer' =>
      obtain ⟨front₁, front₂, front₃, back₁, back₂, back₃, houter, hitem, hmember, rfl, -⟩ := h
      obtain ⟨upTo₂, behind₂, hupTo₂, -, rfl, -⟩ := hitem
      obtain ⟨upTo₃, behind₃, hupTo₃, -, rfl, -⟩ := hmember
      obtain ⟨hlinks, hlink, -⟩ := isLink_of_listed hfits
      -- What is in front of the value nests no deeper than the whole, one level after the other.
      have hlist := depth_list_le_iff.1 (depth_self_of_object hdepth)
      obtain ⟨hbefore₂, hobject⟩ := List.forall_mem_append.1 hlist
      have hbefore₃ := depth_front_of_object (List.forall_mem_cons.1 hobject).1
      obtain ⟨place, hread⟩ : ∃ place, readLinks parseUrl settings (lead ++ front₁ ++ Byte.openBracket ::
          (upTo₂ ++ Byte.openBrace :: (upTo₃ ++ i))) = .error (.notJson flaw place) := by
        refine exists_readLinks_eq_error rfl hlead houter hfits hdepth ?_
        intro d gap gap' hd hnew hgap hgap'
        refine stops_readLinksMember_value hd hnew hgap ?_
        intro seen hfresh
        exact hi.readLinkList hfresh hlinks (isLink_object_iff.1 hlink).1 hcustom hbefore₂ hbefore₃
          hupTo₂ hupTo₃ hgap'
      refine ⟨place, ?_⟩
      simp only [List.append_assoc, List.cons_append] at hread ⊢
      exact congrArg (Except.map _) hread

/-! ## Payloads without the value -/

theorem halts_around (h : site.Around name front back) (rest : List UInt8) :
    Halts extendsNumber (back ++ rest) := by
  cases site with
  | collection before after => exact h.halts rest
  | alone before after => exact h.halts rest
  | listed before after links links' outer outer' =>
      obtain ⟨front₁, front₂, front₃, back₁, back₂, back₃, -, -, hmember, -, rfl⟩ := h
      rw [List.append_assoc]
      exact hmember.halts _

/-- The text of a payload from which the value of the annotation `n` has been cut out.  Nothing else is
wrong with it: with `null` in its place it could be read. -/
structure Cut (parseUrl : Url.Parser) (site : AnnotationSite) (n : String) (front back : List UInt8) :
    Prop where
  text : ∃ lead front' back' trail, Blank lead ∧ Blank trail ∧
    site.Around ("@" ++ n) front' back' ∧ front = lead ++ front' ∧ back = back' ++ trail
  custom : isReserved n = false
  fits : site.Fits parseUrl (site.plug ("@" ++ n) .null)
  depth : (site.plug ("@" ++ n) .null).depth ≤ deepest

section Cut

variable (h : site.Cut parseUrl n front back)
include h

theorem Cut.customName : customName? ("@" ++ n) = some n :=
  customName?_eq_some_iff.2 ⟨annotationName?_at n, h.custom⟩

theorem Cut.halts : Halts extendsNumber back := by
  obtain ⟨lead, front, back, trail, -, -, haround, rfl, rfl⟩ := h.text
  exact halts_around haround trail

/-- A value without parts is put in its place. -/
theorem Cut.gives_read (haccepts : settings.annotationFilter.accepts n = true)
    (htext : t.SpelledBy text) (hdepth : t.depth = 0) (hdistinct : t.DistinctNames) :
    Gives (site.read parseUrl settings (front ++ (text ++ back)))
      (fun annotations => ∀ v, ⟨n, v⟩ ∈ annotations ↔ v = annotationValue settings (Value.ofTree t))
      fun _ => False := by
  have hroom : (site.plug ("@" ++ n) t).depth ≤ deepest := depth_plug h.depth (Nat.le_of_eq hdepth)
  have hfits := fits_plug h.fits h.customName hdistinct
  obtain ⟨lead, front, back, trail, hlead, htrail, haround, rfl, rfl⟩ := h.text
  have hbytes := jsonText_around hlead htrail (spelledBy haround htext)
  refine (AnnotationSite.gives_read hbytes hroom h.customName haccepts).mono (fun _ hgood => hgood) ?_
  exact fun _ hbad => hbad hfits

theorem Cut.exists_read_eq_error {flaw : Flaw} {i : List UInt8} (hi : Flawed flaw i) :
    ∃ place, site.read parseUrl settings (front ++ i) = .error (.notJson flaw place) := by
  obtain ⟨lead, front, back, trail, hlead, -, haround, rfl, -⟩ := h.text
  exact AnnotationSite.exists_read_eq_error haround h.depth h.fits h.customName hlead hi

end Cut

end AnnotationSite

/-! ## The number of links -/

/-- The text of a collection from which the number of links has been cut out; with a number in its place
it could be read. -/
structure CountCut (parseUrl : Url.Parser) (before after : List (String × Tree))
    (front back : List UInt8) : Prop where
  text : ∃ lead front' back' trail, Blank lead ∧ Blank trail ∧
    MemberGap before count after front' back' ∧ front = lead ++ front' ∧ back = back' ++ trail
  fits : IsLinks parseUrl (.object (before ++ (count, .integer 0) :: after))
  depth : (Tree.object (before ++ (count, .integer 0) :: after)).depth ≤ deepest

namespace CountCut

variable {front back text : List UInt8} (h : CountCut parseUrl before after front back)
include h

theorem halts : Halts extendsNumber back := by
  obtain ⟨lead, front, back, trail, -, -, hgap, rfl, rfl⟩ := h.text
  exact hgap.halts trail

/-- The number of links is what the value in its place says, and if that is none, nothing is read. -/
theorem gives_readLinks (htext : t.SpelledBy text) (hdepth : t.depth = 0) :
    Gives (readLinks parseUrl settings (front ++ (text ++ back)))
      (fun links => ∃ m, countOf? t = some m ∧ links.count = some m) fun _ => countOf? t = none := by
  have hroom : (Tree.object (before ++ (count, t) :: after)).depth ≤ deepest :=
    depth_object_replace h.depth (Nat.le_of_eq hdepth)
  have hreplace : LinksMember parseUrl (count, t) →
      IsLinks parseUrl (.object (before ++ (count, t) :: after)) :=
    isLinks_replace h.fits
  obtain ⟨lead, front, back, trail, hlead, htrail, hgap, rfl, rfl⟩ := h.text
  have hbytes := jsonText_around hlead htrail (hgap.spelledBy htext)
  refine (Payload.gives_readLinks parseUrl settings hbytes hroom).mono ?_ ?_
  · rintro links ⟨hfits, hlinks⟩
    have hmembers := (isLinks_object_iff.1 hfits).1
    obtain ⟨m, hm⟩ := Option.isSome_iff_exists.1 (hmembers.fits_next.of_count rfl)
    obtain ⟨read, -, rfl⟩ := Option.map_eq_some_iff.1 hlinks
    refine ⟨m, hm, ?_⟩
    simp only [hmembers.lookup, Option.bind_eq_bind, Option.bind_some, hm]
  · intro _ hbad
    rw [← Option.not_isSome_iff_eq_none]
    exact fun hsome => hbad (hreplace (.inr (.inl ⟨rfl, hsome⟩)))

theorem exists_readLinks_eq_error {flaw : Flaw} {i : List UInt8} (hi : Flawed flaw i) :
    ∃ place, readLinks parseUrl settings (front ++ i) = .error (.notJson flaw place) := by
  obtain ⟨lead, front, back, trail, hlead, -, hgap, rfl, -⟩ := h.text
  refine Payload.exists_readLinks_eq_error rfl hlead hgap h.fits h.depth ?_
  intro d gap gap' hd hnew hblank hblank'
  exact hi.readLinksMember_count hd hnew hblank hblank'

end CountCut

end Payload

end OData
