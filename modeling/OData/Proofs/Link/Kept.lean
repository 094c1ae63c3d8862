/-
# `OData.Proofs.Link.Kept` — links that are kept and read again

Links are kept field by field, not as they are sent: whether a collection is populated, annotations
of any name, the same name twice on one link.  What comes back is `kept` of what was kept: everything
as it was, but that an integer has the width that its number asks for, which does not show when
values are compared.

A field that has nothing in it is not written, and one that is not there has nothing in it; so the
fields of a record are steps that may be missing (`ReadsMembers.append`).

| hypothesis | why it is there |
| :-- | :-- |
| `toTree.depth ≤ deepest` | the reader opens no more containers inside one another |
| `Value.Keepable` | a double that is not finite is kept as a string, and a resource that repeats a name is turned down |
| `parseUrl u.text = .ok u` | a URL is kept as its text |
-/
import OData.Link.Json
import OData.Proofs.Json.Records
import OData.Proofs.Payload.RoundTrip

namespace OData

open Json Json.Scan

variable {ρ : Type} {parseUrl : Url.Parser} {room : Nat}

/-! ## Values -/

namespace Value

/-- A value that is itself again when it has been kept: its doubles are finite and read back from
their text, and no resource in it repeats a name. -/
structure Keepable (v : Value) : Prop where
  finite : v.FiniteDoubles
  doubles : v.DoublesReadBack
  names : v.DistinctNames

variable {v : Value}

/-- The value as it comes back. -/
def kept (v : Value) : Value := ofTree v.toTree

theorem kept_eq (h : v.FiniteDoubles) : v.kept.eq v = true := by
  have heq := ofTree_toTree_eq_spelled v
  rwa [spelled_eq h] at heq

theorem faithful_toTree (h : v.DoublesReadBack) : v.toTree.Faithful :=
  ⟨printable_toTree v, doublesReadBack_toTree h⟩

theorem readsAs_scan (hnames : v.DistinctNames) (hdepth : v.toTree.depth ≤ room) :
    ReadsAs (ρ := ρ) (scan room) v.toTree v.kept := by
  intro i o hi
  refine (reads_scan hdepth hi).mono (fun _ h => h.2) ?_
  intro hbad
  exact hbad ((distinctNames_toTree_iff v).2 hnames)

end Value

/-! ## Annotations -/

theorem eqList_map_self {α : Type} {eq : α → α → Bool} {f : α → α} {as : List α}
    (h : ∀ a ∈ as, eq (f a) a = true) : eqList eq (as.map f) as = true := by
  have hmap : eqList eq (as.map f) (as.map id) = true := Payload.eqList_map h
  rwa [List.map_id] at hmap

namespace InstanceAnnotation

variable {a : InstanceAnnotation} {annotations : List InstanceAnnotation}

/-- The annotation as it comes back. -/
def kept (a : InstanceAnnotation) : InstanceAnnotation := ⟨a.name, a.value.kept⟩

theorem kept_eq (h : a.value.FiniteDoubles) : a.kept.eq a = true := by
  rw [eq, kept, Value.kept_eq h, beq_self_eq_true, Bool.and_self]

theorem faithful_toTree (h : a.value.DoublesReadBack) : a.toTree.Faithful := by
  refine Tree.faithful_object_iff.2 (List.forall_mem_cons.2 ⟨Tree.faithful_string a.name, ?_⟩)
  exact List.forall_mem_singleton.2 (Value.faithful_toTree h)

theorem readsAs_scan (hnames : a.value.DistinctNames) (hdepth : a.toTree.depth ≤ room) :
    ReadsAs (ρ := ρ) (scan room) a.toTree a.kept := by
  refine readsAs_record hdepth ?_
  intro less hless
  have hvalue : a.value.toTree.depth ≤ less := hless ("value", a.value.toTree) (by simp)
  have hmembers : ReadsMembers (ρ := ρ) (Draft.step less) {}
      [("name", .string a.name), ("value", a.value.toTree)] ⟨some a.name, some a.value.kept⟩ :=
    .cons (readsAs_string _ a.name).field
      (.cons (Value.readsAs_scan hnames hvalue).field (.nil _))
  exact hmembers.inside rfl

/-- The field for annotations, wherever it stands. -/
theorem faithful_annotationsField (h : ∀ a ∈ annotations, a.value.DoublesReadBack) :
    ∀ m ∈ annotationsField annotations, m.2.Faithful := by
  unfold annotationsField
  split
  · exact nofun
  · refine List.forall_mem_singleton.2 (Tree.faithful_list_iff.2 (List.forall_mem_map.2 ?_))
    intro a ha
    exact faithful_toTree (h a ha)

theorem readsAs_listOf_scan (h : ∀ a ∈ annotations, a.value.DistinctNames)
    (hdepth : (Tree.list (annotations.map toTree)).depth ≤ room) :
    ReadsAs (ρ := ρ) (listOf scan room) (.list (annotations.map toTree)) (annotations.map kept) :=
  readsAs_listOf hdepth fun a ha _ hless => readsAs_scan (h a ha) hless

/-- The field for annotations is read where it is written, and where it is not there are none. -/
theorem readsMembers_annotationsField {σ : Type} {step : σ → String → Scan ρ σ} {s : σ}
    {put : Option (List InstanceAnnotation) → σ} (hnone : put none = s)
    (hstep : step s "instance_annotations" = do
      let read ← field "instance_annotations" none (listOf scan room)
      pure (put read))
    (h : ∀ a ∈ annotations, a.value.DistinctNames)
    (hdepth : ∀ m ∈ annotationsField annotations, m.2.depth ≤ room) :
    ∃ read, ReadsMembers step s (annotationsField annotations) (put read) ∧
      read.getD [] = annotations.map kept := by
  unfold annotationsField at hdepth ⊢
  split
  · next hempty =>
      obtain rfl := List.isEmpty_iff.1 hempty
      exact ⟨none, hnone ▸ .nil _, rfl⟩
  · next hempty =>
      rw [if_neg hempty, List.forall_mem_singleton] at hdepth
      refine ⟨some (annotations.map kept), .cons ?_ (.nil _), rfl⟩
      rw [hstep]
      exact (readsAs_listOf_scan h hdepth).field

end InstanceAnnotation

/-! ## Links -/

theorem Url.readsAs_scan {u : Url} (h : parseUrl u.text = .ok u) :
    ReadsAs (ρ := ρ) (Url.scan parseUrl) u.toTree u := by
  refine ((readsAs_string _ u.text).bind ?_).located
  rw [h]

namespace ReferenceLink

variable {l : ReferenceLink}

/-- The link as it comes back. -/
def kept (l : ReferenceLink) : ReferenceLink := ⟨l.url, l.annotations.map InstanceAnnotation.kept⟩

theorem kept_eq (h : ∀ a ∈ l.annotations, a.value.FiniteDoubles) : l.kept.eq l = true := by
  have hannotations : eqList InstanceAnnotation.eq (l.annotations.map InstanceAnnotation.kept)
      l.annotations = true :=
    eqList_map_self fun a ha => InstanceAnnotation.kept_eq (h a ha)
  rw [eq, kept, hannotations, beq_self_eq_true, Bool.and_self]

theorem faithful_toTree (h : ∀ a ∈ l.annotations, a.value.DoublesReadBack) : l.toTree.Faithful := by
  refine Tree.faithful_object_iff.2 (List.forall_mem_cons.2 ⟨Tree.faithful_string _, ?_⟩)
  exact InstanceAnnotation.faithful_annotationsField h

theorem readsAs_scan (hurl : parseUrl l.url.text = .ok l.url)
    (hnames : ∀ a ∈ l.annotations, a.value.DistinctNames) (hdepth : l.toTree.depth ≤ room) :
    ReadsAs (ρ := ρ) (scan parseUrl room) l.toTree l.kept := by
  refine readsAs_record hdepth ?_
  intro less hless
  rw [List.forall_mem_cons] at hless
  obtain ⟨read, hread, hannotations⟩ : ∃ read, ReadsMembers (ρ := ρ) (Draft.step parseUrl less)
      ⟨some l.url, none⟩ (annotationsField l.annotations) ⟨some l.url, read⟩ ∧
        read.getD [] = l.annotations.map InstanceAnnotation.kept :=
    InstanceAnnotation.readsMembers_annotationsField rfl rfl hnames hless.2
  have hmembers : ReadsMembers (ρ := ρ) (Draft.step parseUrl less) {}
      (("url", l.url.toTree) :: annotationsField l.annotations) ⟨some l.url, read⟩ :=
    .cons (Url.readsAs_scan hurl).field hread
  refine hmembers.inside ?_
  rw [kept, ← hannotations]
  rfl

end ReferenceLink

namespace ReferenceLinks

variable {ls : ReferenceLinks}

/-- The collection as it comes back. -/
def kept (ls : ReferenceLinks) : ReferenceLinks :=
  { links := ls.links.map (·.map ReferenceLink.kept)
    count := ls.count
    nextPage := ls.nextPage
    annotations := ls.annotations.map InstanceAnnotation.kept }

/-- The annotations of the collection and of its links. -/
def allAnnotations (ls : ReferenceLinks) : List InstanceAnnotation :=
  ls.annotations ++ ls.toList.flatMap ReferenceLink.annotations

theorem forall_allAnnotations_iff {p : InstanceAnnotation → Prop} :
    (∀ a ∈ ls.allAnnotations, p a) ↔
      (∀ a ∈ ls.annotations, p a) ∧ ∀ l ∈ ls.toList, ∀ a ∈ l.annotations, p a := by
  rw [allAnnotations, List.forall_mem_append]
  refine and_congr Iff.rfl ⟨fun h l hl a ha => h a (List.mem_flatMap.2 ⟨l, hl, ha⟩), ?_⟩
  intro h a ha
  obtain ⟨l, hl, ha⟩ := List.mem_flatMap.1 ha
  exact h l hl a ha

theorem kept_eq (h : ∀ a ∈ ls.allAnnotations, a.value.FiniteDoubles) : ls.kept.eq ls = true := by
  obtain ⟨hcollection, hlinks⟩ := forall_allAnnotations_iff.1 h
  have hannotations : eqList InstanceAnnotation.eq (ls.annotations.map InstanceAnnotation.kept)
      ls.annotations = true :=
    eqList_map_self fun a ha => InstanceAnnotation.kept_eq (hcollection a ha)
  cases hpopulated : ls.links with
  | none => simp [eq, kept, hpopulated, hannotations]
  | some links =>
      have hkept : eqList ReferenceLink.eq (links.map ReferenceLink.kept) links = true := by
        refine eqList_map_self fun l hl => ReferenceLink.kept_eq (hlinks l ?_)
        rwa [toList, hpopulated]
      simp [eq, kept, hpopulated, hannotations, hkept]

/-! ### Fields that may be missing -/

/-- A field for what may be nothing. -/
def optionalField {α : Type} (name : String) (tree : α → Tree) : Option α → List (String × Tree)
  | some a => [(name, tree a)]
  | none => []

/-- The field for the links, whose word is `null` while nobody has said which. -/
def linksTree : Option (List ReferenceLink) → Tree
  | some links => .list (links.map ReferenceLink.toTree)
  | none => .null

theorem toTree_eq (ls : ReferenceLinks) : ls.toTree = .object ([("links", linksTree ls.links)] ++
    optionalField "count" (fun n : Int64 => .integer n.toInt) ls.count ++
    optionalField "next_page_link" Url.toTree ls.nextPage ++
    annotationsField ls.annotations) := by
  obtain ⟨links, count, nextPage, annotations⟩ := ls
  cases links <;> cases count <;> cases nextPage <;> rfl

section Fields

variable {α σ : Type} {name : String} {tree : α → Tree} {value? : Option α}

theorem faithful_optionalField (h : ∀ a, (tree a).Faithful) :
    ∀ m ∈ optionalField name tree value?, m.2.Faithful := by
  cases value? with
  | none => exact nofun
  | some a => exact List.forall_mem_singleton.2 (h a)

theorem readsMembers_optionalField {step : σ → String → Scan ρ σ} {s : σ} {scan : Scan ρ α}
    {put : Option (Option α) → σ} (hnone : put none = s)
    (hstep : step s name = do
      let read ← field name none (optional scan)
      pure (put read))
    (h : ∀ a ∈ value?, ReadsAs scan (tree a) a) (hnull : ∀ a, tree a ≠ .null) :
    ∃ read, ReadsMembers step s (optionalField name tree value?) (put read) ∧
      read.join = value? := by
  cases value? with
  | none => exact ⟨none, hnone ▸ .nil _, rfl⟩
  | some a =>
      refine ⟨some (some a), .cons ?_ (.nil _), rfl⟩
      rw [hstep]
      exact ((h a rfl).optional (hnull a)).field

end Fields

theorem readsAs_scanCount (n : Int64) : ReadsAs (ρ := ρ) scanCount (.integer n.toInt) n := by
  have hhigh := n.toInt_lt
  refine (readsAs_integer n.le_toInt (by omega)).bind ?_
  rw [Int64.ofInt_toInt]

theorem readsAs_links {links : Option (List ReferenceLink)}
    (hurls : ∀ l ∈ links.getD [], parseUrl l.url.text = .ok l.url)
    (hnames : ∀ l ∈ links.getD [], ∀ a ∈ l.annotations, a.value.DistinctNames)
    (hdepth : (linksTree links).depth ≤ room) :
    ReadsAs (ρ := ρ) (optional (listOf (ReferenceLink.scan parseUrl) room)) (linksTree links)
      (links.map (·.map ReferenceLink.kept)) := by
  cases links with
  | none => exact readsAs_optional_null
  | some links =>
      have hlist : ReadsAs (ρ := ρ) (listOf (ReferenceLink.scan parseUrl) room)
          (.list (links.map ReferenceLink.toTree)) (links.map ReferenceLink.kept) :=
        readsAs_listOf hdepth fun l hl _ hless =>
          ReferenceLink.readsAs_scan (hurls l hl) (hnames l hl) hless
      exact hlist.optional nofun

theorem faithful_toTree (h : ∀ a ∈ ls.allAnnotations, a.value.DoublesReadBack) :
    ls.toTree.Faithful := by
  obtain ⟨hcollection, hlinks⟩ := forall_allAnnotations_iff.1 h
  have hlinksTree : (linksTree ls.links).Faithful := by
    cases hpopulated : ls.links with
    | none => exact Tree.faithful_null
    | some links =>
        refine Tree.faithful_list_iff.2 (List.forall_mem_map.2 fun l hl => ?_)
        refine ReferenceLink.faithful_toTree (hlinks l ?_)
        rwa [toList, hpopulated]
  rw [toTree_eq, Tree.faithful_object_iff]
  simp only [List.forall_mem_append]
  refine ⟨⟨⟨List.forall_mem_singleton.2 hlinksTree, faithful_optionalField fun n => ?_⟩,
    faithful_optionalField fun u => Tree.faithful_string u.text⟩,
    InstanceAnnotation.faithful_annotationsField hcollection⟩
  have hhigh := n.toInt_lt
  exact Tree.faithful_integer n.le_toInt (by omega)

theorem readsAs_scan (hurls : ∀ u ∈ ls.urls, parseUrl u.text = .ok u)
    (hnames : ∀ a ∈ ls.allAnnotations, a.value.DistinctNames) (hdepth : ls.toTree.depth ≤ room) :
    ReadsAs (ρ := ρ) (scan parseUrl room) ls.toTree ls.kept := by
  rw [toTree_eq] at hdepth ⊢
  obtain ⟨hlinkUrls, hpageUrl⟩ := Payload.forall_urls_iff.1 hurls
  obtain ⟨hcollection, hlinks⟩ := forall_allAnnotations_iff.1 hnames
  refine readsAs_record hdepth ?_
  intro less hless
  let links := ls.links.map (·.map ReferenceLink.kept)
  have hlinksField : ReadsMembers (ρ := ρ) (Draft.step parseUrl less) {} [("links", linksTree ls.links)]
      ⟨some links, none, none, none⟩ :=
    .cons (readsAs_links hlinkUrls hlinks (hless ("links", linksTree ls.links) (by simp))).field
      (.nil _)
  obtain ⟨count, hcountField, hcount⟩ : ∃ count, ReadsMembers (ρ := ρ) (Draft.step parseUrl less)
      ⟨some links, none, none, none⟩
      (optionalField "count" (fun n : Int64 => .integer n.toInt) ls.count)
      ⟨some links, count, none, none⟩ ∧ count.join = ls.count :=
    readsMembers_optionalField rfl rfl (fun n _ => readsAs_scanCount n) nofun
  obtain ⟨nextPage, hnextField, hnext⟩ : ∃ nextPage, ReadsMembers (ρ := ρ) (Draft.step parseUrl less)
      ⟨some links, count, none, none⟩ (optionalField "next_page_link" Url.toTree ls.nextPage)
      ⟨some links, count, nextPage, none⟩ ∧ nextPage.join = ls.nextPage :=
    readsMembers_optionalField rfl rfl (fun u hu => Url.readsAs_scan (hpageUrl u hu)) nofun
  obtain ⟨annotations, hannotationsField, hannotations⟩ :
      ∃ annotations, ReadsMembers (ρ := ρ) (Draft.step parseUrl less)
        ⟨some links, count, nextPage, none⟩ (annotationsField ls.annotations)
        ⟨some links, count, nextPage, annotations⟩ ∧
        annotations.getD [] = ls.annotations.map InstanceAnnotation.kept :=
    InstanceAnnotation.readsMembers_annotationsField rfl rfl hcollection
      fun m hm => hless m (List.mem_append_right _ hm)
  refine (((hlinksField.append hcountField).append hnextField).append hannotationsField).inside ?_
  rw [kept, ← hannotations, ← hcount, ← hnext]
  rfl

end ReferenceLinks

/-! ## Reading again -/

/-- What is kept of an annotation, of a link or of a collection is read again, and is equal to what
was kept; a collection is unpopulated or empty as it was. -/
theorem kept_lossless (parseUrl : Url.Parser) :
    (∀ a : InstanceAnnotation, a.value.Keepable → a.toTree.depth ≤ deepest →
      run (ρ := ρ) ( InstanceAnnotation.scan deepest) (Text.Utf8.encode a.toTree.compact) =
        .ok a.kept ∧ a.kept.eq a = true) ∧
    (∀ l : ReferenceLink, (∀ a ∈ l.annotations, a.value.Keepable) →
      parseUrl l.url.text = .ok l.url → l.toTree.depth ≤ deepest →
      run (ρ := ρ) (ReferenceLink.scan parseUrl deepest) (Text.Utf8.encode l.toTree.compact) =
        .ok l.kept ∧ l.kept.eq l = true) ∧
    ∀ ls : ReferenceLinks, (∀ a ∈ ls.allAnnotations, a.value.Keepable) →
      (∀ u ∈ ls.urls, parseUrl u.text = .ok u) → ls.toTree.depth ≤ deepest →
      run (ρ := ρ) (ReferenceLinks.scan parseUrl deepest) (Text.Utf8.encode ls.toTree.compact) =
        .ok ls.kept ∧ ls.kept.eq ls = true ∧ ls.kept.isPopulated = ls.isPopulated := by
  refine ⟨?_, ?_, ?_⟩
  · intro a ha hdepth
    have hreads := InstanceAnnotation.readsAs_scan (ρ := ρ) ha.names hdepth
    have hfaithful := InstanceAnnotation.faithful_toTree ha.doubles
    exact ⟨hreads.run hfaithful.jsonText, InstanceAnnotation.kept_eq ha.finite⟩
  · intro l hl hurl hdepth
    have hreads := ReferenceLink.readsAs_scan (ρ := ρ) hurl (fun a ha => (hl a ha).names) hdepth
    have hfaithful := ReferenceLink.faithful_toTree fun a ha => (hl a ha).doubles
    exact ⟨hreads.run hfaithful.jsonText, ReferenceLink.kept_eq fun a ha => (hl a ha).finite⟩
  · intro ls hls hurls hdepth
    have hreads := ReferenceLinks.readsAs_scan (ρ := ρ) hurls (fun a ha => (hls a ha).names) hdepth
    have hfaithful := ReferenceLinks.faithful_toTree fun a ha => (hls a ha).doubles
    refine ⟨hreads.run hfaithful.jsonText, ReferenceLinks.kept_eq fun a ha => (hls a ha).finite, ?_⟩
    exact Option.isSome_map

/-- A reserved name twice on one link, an integer wider than it need be, a double that has no short
binary form; and links that nobody has said beside links of which there are none. -/
theorem kept_lossless_of_reserved_name :
    let tenth : Double := .finite false ⟨0x3fb999999999999a, by decide⟩
    let a : InstanceAnnotation :=
      ⟨"odata.count", .collection [.int64 5, .double tenth, .resource [("x", .null)]]⟩
    let l : ReferenceLink := ⟨⟨"urn", none, .rootless "a", none, none⟩, [a, a]⟩
    let ls : ReferenceLinks := { links := some [l], count := some (-1) }
    let unpopulated : ReferenceLinks := {}
    let empty : ReferenceLinks := { links := some [] }
    a.value.Keepable ∧ Url.parse l.url.text = .ok l.url ∧ ls.toTree.depth ≤ deepest ∧
      run (ρ := Empty) ( InstanceAnnotation.scan deepest) (Text.Utf8.encode a.toTree.compact) =
        .ok a.kept ∧
      run (ρ := Empty) (ReferenceLink.scan Url.parse deepest) (Text.Utf8.encode l.toTree.compact) =
        .ok l.kept ∧
      run (ρ := Empty) (ReferenceLinks.scan Url.parse deepest) (Text.Utf8.encode ls.toTree.compact) =
        .ok ls.kept ∧
      run (ρ := Empty) (ReferenceLinks.scan Url.parse deepest)
        (Text.Utf8.encode "\x7b\"links\":null\x7d") = .ok unpopulated ∧
      run (ρ := Empty) (ReferenceLinks.scan Url.parse deepest)
        (Text.Utf8.encode "\x7b\"links\":[]\x7d") = .ok empty := by
  intro tenth a l ls unpopulated empty
  have htenth : Value.DoublesReadBack (.double tenth) :=
    Value.doublesReadBack_finite (Double.readsBack_iff.2 (by decide +kernel))
  have ha : a.value.Keepable := by
    refine ⟨?_, ?_, ?_⟩
    · simp [a, Value.FiniteDoubles, Value.Everywhere, Value.EverywhereItems,
        Value.EverywhereMembers, Double.IsFinite, tenth]
    · simp [a, Value.doublesReadBack_collection_iff, Value.doublesReadBack_resource_iff,
        Value.doublesReadBack_int64, Value.doublesReadBack_null, htenth]
    · simp [a, Value.DistinctNames, Value.Everywhere, Value.EverywhereItems,
        Value.EverywhereMembers, Value.names]
  have hurl : Url.parse l.url.text = .ok l.url := by decide +kernel
  have hdepth : ls.toTree.depth ≤ deepest := by decide +kernel
  obtain ⟨hone, hlink, hlinks⟩ := kept_lossless (ρ := Empty) Url.parse
  have hall : ∀ a ∈ l.annotations, a.value.Keepable := by
    simp only [l, List.forall_mem_cons]
    exact ⟨ha, ha, List.forall_mem_nil _⟩
  refine ⟨ha, hurl, hdepth, (hone a ha (by decide +kernel)).1,
    (hlink l hall hurl (by decide +kernel)).1,
    (hlinks ls hall (List.forall_mem_singleton.2 hurl) hdepth).1,
    (hlinks unpopulated (List.forall_mem_nil _) (List.forall_mem_nil _) (by decide +kernel)).1,
    (hlinks empty (List.forall_mem_nil _) (List.forall_mem_nil _) (by decide +kernel)).1⟩

end OData
