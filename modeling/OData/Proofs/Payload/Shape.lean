/-
# `OData.Proofs.Payload.Shape` — which JSON is a payload, and what it says

The grammar of payloads over trees, without a reader and without an order of members:

| | the members of the object |
| :-- | :-- |
| `IsLink` | an id, custom annotations and, if the link stands alone, a context |
| `IsLinks` | a list of links under `value`, custom annotations, and possibly a context, a count and a next link |

No name stands twice on one object.  `linkOf?` and `linksOf?` say what a payload stands for: each part is
looked up by its name, and annotations are those that the filter lets pass, in the order of the
text.  What a URL is, `parseUrl` says, for the grammar as for the reader.
-/
import OData.Payload.Read
import OData.Proofs.Value.Reading

namespace OData.Payload

open Json

/-! ## Members and their names -/

/-- The name of the custom annotation that a member is for. -/
def customName? (member : String) : Option String :=
  (annotationName? member).filter fun name => !isReserved name

theorem customName?_eq_some_iff {member name : String} :
    customName? member = some name ↔
      annotationName? member = some name ∧ isReserved name = false := by
  simp [customName?, Option.filter_eq_some_iff]

theorem annotationName?_eq_some_iff {member name : String} :
    annotationName? member = some name ↔ member.toList = '@' :: name.toList := by
  rw [annotationName?]
  split
  · next cs hcs =>
      rw [hcs]
      constructor
      · rintro ⟨⟩
        rw [String.toList_ofList]
      · intro h
        rw [(List.cons.inj h).2, String.ofList_toList]
  · next hne =>
      exact ⟨nofun, fun h => absurd h (hne _)⟩

theorem annotationName?_at (name : String) : annotationName? ("@" ++ name) = some name := by
  simp [annotationName?_eq_some_iff]

/-- A custom annotation has one member name. -/
theorem eq_of_customName? {m m' name : String} (h : customName? m = some name)
    (h' : customName? m' = some name) : m = m' := by
  rw [customName?_eq_some_iff, annotationName?_eq_some_iff] at h h'
  exact String.toList_inj.1 (h.1.trans h'.1.symm)

@[simp] theorem customName?_context : customName? context = none := by decide
@[simp] theorem customName?_count : customName? count = none := by decide
@[simp] theorem customName?_id : customName? id = none := by decide
@[simp] theorem customName?_nextLink : customName? nextLink = none := by decide
@[simp] theorem customName?_value : customName? value = none := by decide

/-- Members with distinct names, each of which is as it should be. -/
structure Members (Fits : String × Tree → Prop) (ms : List (String × Tree)) : Prop where
  distinct : (ms.map Prod.fst).Nodup
  fits : ∀ m ∈ ms, Fits m

namespace Members

variable {Fits : String × Tree → Prop} {before after : List (String × Tree)} {name : String}
  {t : Tree}

theorem nil (Fits : String × Tree → Prop) : Members Fits [] := ⟨List.nodup_nil, nofun⟩

/-- One more member, with a new name. -/
theorem snoc (h : Members Fits before) (hname : name ∉ before.map Prod.fst) (ht : Fits (name, t)) :
    Members Fits (before ++ [(name, t)]) := by
  refine ⟨?_, List.forall_mem_append.2 ⟨h.fits, List.forall_mem_singleton.2 ht⟩⟩
  rw [List.map_append, List.nodup_append_comm]
  exact List.nodup_cons.2 ⟨hname, h.distinct⟩

theorem fits_next (h : Members Fits (before ++ (name, t) :: after)) : Fits (name, t) :=
  h.fits _ (by simp)

theorem fresh_next (h : Members Fits (before ++ (name, t) :: after)) :
    name ∉ before.map Prod.fst := by
  have hdistinct := h.distinct
  rw [List.map_append, List.map_cons, List.nodup_append] at hdistinct
  exact fun hmem => hdistinct.2.2 _ hmem _ List.mem_cons_self rfl

end Members

theorem mem_names_of_lookup {ms : List (String × Tree)} {name : String} {t : Tree}
    (h : ms.lookup name = some t) : name ∈ ms.map Prod.fst := by
  obtain ⟨before, after, rfl, -⟩ := List.lookup_eq_some_iff.1 h
  simp

theorem mem_of_lookup {ms : List (String × Tree)} {name : String} {t : Tree}
    (h : ms.lookup name = some t) : (name, t) ∈ ms := by
  obtain ⟨before, after, rfl, -⟩ := List.lookup_eq_some_iff.1 h
  simp

theorem lookup_eq_none_of_not_mem {ms : List (String × Tree)} {name : String}
    (h : name ∉ ms.map Prod.fst) : ms.lookup name = none := by
  refine List.lookup_eq_none_iff.2 ?_
  intro m hm
  rw [bne_iff_ne]
  rintro rfl
  exact h (List.mem_map_of_mem hm)

theorem lookup_snoc_self {ms : List (String × Tree)} {name : String} {t : Tree}
    (h : name ∉ ms.map Prod.fst) : (ms ++ [(name, t)]).lookup name = some t := by
  simp [List.lookup_append, lookup_eq_none_of_not_mem h]

theorem lookup_snoc_ne {ms : List (String × Tree)} {name other : String} {t : Tree}
    (h : other ≠ name) : (ms ++ [(name, t)]).lookup other = ms.lookup other := by
  have hne : (other == name) = false := beq_eq_false_iff_ne.2 h
  simp [List.lookup_append, List.lookup_cons, hne]

theorem exists_lookup_of_mem {ms : List (String × Tree)} {name : String}
    (h : name ∈ ms.map Prod.fst) : ∃ t, ms.lookup name = some t := by
  refine Option.isSome_iff_exists.1 (List.lookup_isSome_iff.2 ?_)
  obtain ⟨m, hm, rfl⟩ := List.mem_map.1 h
  exact ⟨m, hm, beq_self_eq_true _⟩

/-! ## What the values of members say -/

variable (parseUrl : Url.Parser)

/-- The URL that a value is. -/
def urlOf? (t : Tree) : Option Url := t.string? >>= fun s => (parseUrl s).toOption

/-- The number of links that a value says. -/
def countOf? : Tree → Option Int64
  | .integer n => Text.int64OfInt? n
  | .string s => Text.int64? s
  | _ => none

variable (settings : ReaderSettings)

/-- The annotation that a member is, if it is one and the filter lets it pass. -/
def annotationOf? (m : String × Tree) : Option InstanceAnnotation :=
  (customName? m.1).bind fun name =>
    if settings.annotationFilter.accepts name then
      some ⟨name, annotationValue settings (Value.ofTree m.2)⟩
    else none

/-! ## Links -/

/-- A member that a link may have. -/
def LinkMember (alone : Bool) (m : String × Tree) : Prop :=
  m.1 = id ∧ (urlOf? parseUrl m.2).isSome ∨ m.1 = context ∧ alone = true ∨
    (customName? m.1).isSome ∧ m.2.DistinctNames

/-- The tree is a link, which may stand alone and name its context. -/
def IsLink (alone : Bool) (t : Tree) : Prop :=
  ∃ ms, t = .object ms ∧ Members (LinkMember parseUrl alone) ms ∧ id ∈ ms.map Prod.fst

/-- The link that a tree stands for. -/
def linkOf? : Tree → Option ReferenceLink
  | .object ms =>
    (ms.lookup id >>= urlOf? parseUrl).map fun url => ⟨url, ms.filterMap (annotationOf? settings)⟩
  | _ => none

/-- The links that a list stands for. -/
def linkListOf? : Tree → Option (List ReferenceLink)
  | .list items => items.mapM (linkOf? parseUrl settings)
  | _ => none

/-- A member that a collection of links may have. -/
def LinksMember (m : String × Tree) : Prop :=
  m.1 = context ∨ m.1 = count ∧ (countOf? m.2).isSome ∨ m.1 = nextLink ∧ (urlOf? parseUrl m.2).isSome ∨
    m.1 = value ∧ (∃ items, m.2 = .list items ∧ ∀ t ∈ items, IsLink parseUrl false t) ∨
    (customName? m.1).isSome ∧ m.2.DistinctNames

/-- The tree is a collection of links. -/
def IsLinks (t : Tree) : Prop :=
  ∃ ms, t = .object ms ∧ Members (LinksMember parseUrl) ms ∧ value ∈ ms.map Prod.fst

/-- The collection of links that a tree stands for. -/
def linksOf? : Tree → Option ReferenceLinks
  | .object ms =>
    (ms.lookup value >>= linkListOf? parseUrl settings).map fun links =>
      { links := some links
        count := ms.lookup count >>= countOf?
        nextPage := ms.lookup nextLink >>= urlOf? parseUrl
        annotations := ms.filterMap (annotationOf? settings) }
  | _ => none

end OData.Payload
