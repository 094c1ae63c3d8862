/-
# `OData.Proofs.Settings.RoundTrip` — settings that are kept and read again

Settings survive their JSON form, and so does what is left of them when members have been taken out
of it: those are at their defaults then, and all others as they were (`reset`).  Nothing taken out is
the case of an empty list of names (`reset_nil`).

A field is shown once for both, there and taken out (`ReadsMembers.field_filter`); what it is worth
in the end is `getD_ite`.
-/
import OData.Offer.Settings
import OData.Proofs.Annotation.FilterText
import OData.Proofs.Format.RoundTrip
import OData.Settings

namespace OData

open Json Json.Scan

/-! ## Members that are taken out -/

/-- The object without the members that have one of these names; other values are left alone. -/
def Json.Tree.without (names : List String) : Tree → Tree
  | .object members => .object (members.filter fun m => m.1 ∉ names)
  | t => t

namespace Json.Tree

variable {names : List String} {members : List (String × Tree)} {n : Nat}

theorem without_object : (object members).without names =
    object (members.filter fun m => m.1 ∉ names) := rfl

theorem depth_without_le (h : (object members).depth ≤ n + 1) :
    ((object members).without names).depth ≤ n + 1 := by
  rw [depth_object_le_iff] at h
  refine depth_object_le_iff.2 fun m hm => h m (List.mem_of_mem_filter hm)

theorem Faithful.without (h : (object members).Faithful) :
    ((object members).without names).Faithful := by
  rw [faithful_object_iff] at h
  refine faithful_object_iff.2 fun m hm => h m (List.mem_of_mem_filter hm)

theorem without_nil : (object members).without [] = object members := by
  simp [without_object]

end Json.Tree

theorem getD_ite {α : Type} {name : String} {names : List String} {a default : α} :
    (if name ∉ names then some a else none).getD default =
      if name ∈ names then default else a := by
  by_cases h : name ∈ names <;> simp [h]

variable {ρ : Type} {room : Nat} {names : List String}

/-! ## Whole and in part -/

/-- What is read of every remainder of an object is read of the whole of it. -/
theorem run_without {α : Type} {scan : Scan ρ α} {members : List (String × Tree)}
    {reset : List String → α} {whole : α} (hwhole : reset [] = whole)
    (h : ∀ names, ReadsAs scan ((Tree.object members).without names) (reset names))
    (hfaithful : (Tree.object members).Faithful) :
    run scan (Text.Utf8.encode (Tree.object members).compact) = .ok whole ∧
      ∀ names, run scan (Text.Utf8.encode ((Tree.object members).without names).compact) =
        .ok (reset names) := by
  have hreset : ∀ names, run scan (Text.Utf8.encode ((Tree.object members).without names).compact) =
      .ok (reset names) :=
    fun names => (h names).run hfaithful.without.jsonText
  refine ⟨?_, hreset⟩
  rw [← hwhole, ← hreset [], Tree.without_nil]

/-! ## Settings of a writer -/

namespace WriterSettings

variable {s : WriterSettings}

/-- The settings with the fields of these names at their defaults. -/
def reset (names : List String) (s : WriterSettings) : WriterSettings :=
  let default : WriterSettings := {}
  { contextUrl := if "context_url" ∈ names then default.contextUrl else s.contextUrl
    annotationFilter :=
      if "annotation_filter" ∈ names then default.annotationFilter else s.annotationFilter
    ieee754Compatible :=
      if "ieee754_compatible" ∈ names then default.ieee754Compatible else s.ieee754Compatible }

theorem reset_nil (s : WriterSettings) : s.reset [] = s := rfl

theorem faithful_toTree (s : WriterSettings) : s.toTree.Faithful := by
  refine Tree.faithful_object_iff.2 (List.forall_mem_cons.2 ⟨Tree.faithful_string _,
    List.forall_mem_cons.2 ⟨Tree.faithful_string _, List.forall_mem_singleton.2 ?_⟩⟩)
  exact Tree.faithful_bool s.ieee754Compatible

theorem depth_toTree_le (s : WriterSettings) : s.toTree.depth ≤ 1 := by
  refine Tree.depth_object_le_iff.2 ?_
  simp [Tree.depth, AnnotationFilter.toTree]

theorem readsAs_scan (h : s.annotationFilter.Written) :
    ReadsAs (ρ := ρ) (scan (room + 1)) (s.toTree.without names) (s.reset names) := by
  have hdepth := s.depth_toTree_le
  refine readsAs_record (Tree.depth_without_le (Nat.le_trans hdepth (Nat.le_add_left 1 room))) ?_
  intro less hless
  have hmembers : ReadsMembers (ρ := ρ) Draft.step {}
      ([("context_url", .string s.contextUrl), ("annotation_filter", s.annotationFilter.toTree),
        ("ieee754_compatible", .bool s.ieee754Compatible)].filter fun m => m.1 ∉ names)
      ⟨if "context_url" ∉ names then some s.contextUrl else none,
        if "annotation_filter" ∉ names then some s.annotationFilter else none,
        if "ieee754_compatible" ∉ names then some s.ieee754Compatible else none⟩ := by
    refine .field_filter (fun url => ⟨url, none, none⟩) rfl rfl
      (fun _ => readsAs_string _ s.contextUrl) ?_
    refine .field_filter (fun filter => ⟨_, filter, none⟩) rfl rfl (fun _ => h.readsAs_scan) ?_
    refine .field_filter (fun compatible => ⟨_, _, compatible⟩) rfl rfl
      (fun _ => readsAs_bool s.ieee754Compatible) ?_
    simp only [decide_eq_true_eq]
    exact .nil _
  refine hmembers.inside ?_
  simp only [Draft.finish, getD_ite]
  rfl

end WriterSettings

/-! ## Settings of a reader -/

namespace ReaderSettings

variable {s : ReaderSettings}

/-- The settings with the fields of these names at their defaults. -/
def reset (names : List String) (s : ReaderSettings) : ReaderSettings :=
  let default : ReaderSettings := {}
  { annotationFilter :=
      if "annotation_filter" ∈ names then default.annotationFilter else s.annotationFilter
    maxPayloadSize := if "max_payload_size" ∈ names then default.maxPayloadSize else s.maxPayloadSize
    ieee754Compatible :=
      if "ieee754_compatible" ∈ names then default.ieee754Compatible else s.ieee754Compatible }

theorem reset_nil (s : ReaderSettings) : s.reset [] = s := rfl

theorem toNat_size_le (s : ReaderSettings) : (s.maxPayloadSize.toNat : Int) ≤ 2 ^ 64 - 1 := by
  have hsize := s.maxPayloadSize.toNat_lt
  omega

theorem faithful_toTree (s : ReaderSettings) : s.toTree.Faithful := by
  have hsize := s.toNat_size_le
  refine Tree.faithful_object_iff.2 (List.forall_mem_cons.2 ⟨Tree.faithful_string _,
    List.forall_mem_cons.2 ⟨Tree.faithful_integer ?_ ?_, List.forall_mem_singleton.2 ?_⟩⟩)
  · omega
  · omega
  · exact Tree.faithful_bool s.ieee754Compatible

theorem depth_toTree_le (s : ReaderSettings) : s.toTree.depth ≤ 1 := by
  refine Tree.depth_object_le_iff.2 ?_
  simp [Tree.depth, AnnotationFilter.toTree]

theorem readsAs_scanSize (size : UInt64) (h : (size.toNat : Int) ≤ 2 ^ 64 - 1) :
    ReadsAs (ρ := ρ) scanSize (.integer size.toNat) size := by
  refine (readsAs_integer (Int.natCast_nonneg _) h).bind ?_
  rw [Int.toNat_natCast, UInt64.ofNat_toNat]

theorem readsAs_scan (h : s.annotationFilter.Written) :
    ReadsAs (ρ := ρ) (scan (room + 1)) (s.toTree.without names) (s.reset names) := by
  have hdepth := s.depth_toTree_le
  refine readsAs_record (Tree.depth_without_le (Nat.le_trans hdepth (Nat.le_add_left 1 room))) ?_
  intro less hless
  have hmembers : ReadsMembers (ρ := ρ) Draft.step {}
      ([("annotation_filter", s.annotationFilter.toTree),
        ("max_payload_size", .integer s.maxPayloadSize.toNat),
        ("ieee754_compatible", .bool s.ieee754Compatible)].filter fun m => m.1 ∉ names)
      ⟨if "annotation_filter" ∉ names then some s.annotationFilter else none,
        if "max_payload_size" ∉ names then some s.maxPayloadSize else none,
        if "ieee754_compatible" ∉ names then some s.ieee754Compatible else none⟩ := by
    refine .field_filter (fun filter => ⟨filter, none, none⟩) rfl rfl (fun _ => h.readsAs_scan) ?_
    refine .field_filter (fun size => ⟨_, size, none⟩) rfl rfl
      (fun _ => readsAs_scanSize s.maxPayloadSize s.toNat_size_le) ?_
    refine .field_filter (fun compatible => ⟨_, _, compatible⟩) rfl rfl
      (fun _ => readsAs_bool s.ieee754Compatible) ?_
    simp only [decide_eq_true_eq]
    exact .nil _
  refine hmembers.inside ?_
  simp only [Draft.finish, getD_ite]
  rfl

end ReaderSettings

/-! ## Settings of an offer -/

namespace OfferSettings

variable {s : OfferSettings}

/-- The settings with the fields of these names at their defaults. -/
def reset (names : List String) (s : OfferSettings) : OfferSettings :=
  let default : OfferSettings := {}
  { legacy := if "enable_legacy" ∈ names then default.legacy else s.legacy
    extensions := if "extensions" ∈ names then default.extensions else s.extensions }

theorem reset_nil (s : OfferSettings) : s.reset [] = s := rfl

/-- The media types of all extensions are ones of tokens. -/
def Tokenized (s : OfferSettings) : Prop := ∀ e ∈ s.extensions, e.Tokenized

theorem faithful_toTree (s : OfferSettings) : s.toTree.Faithful := by
  refine Tree.faithful_object_iff.2 (List.forall_mem_cons.2 ⟨Tree.faithful_bool s.legacy, ?_⟩)
  refine List.forall_mem_singleton.2 (Tree.faithful_list_iff.2 (List.forall_mem_map.2 ?_))
  exact fun e _ => e.faithful_toTree

/-- Encodings are the sixth container inside one another, and nothing goes deeper. -/
theorem depth_toTree_le (s : OfferSettings) : s.toTree.depth ≤ 6 := by
  refine Tree.depth_object_le_iff.2 (List.forall_mem_cons.2 ⟨Nat.zero_le 5, ?_⟩)
  refine List.forall_mem_singleton.2 (Tree.depth_list_le_iff.2 (List.forall_mem_map.2 ?_))
  exact fun e _ => e.depth_toTree_le

theorem readsAs_scan (h : s.Tokenized) :
    ReadsAs (ρ := ρ) (scan (room + 6)) (s.toTree.without names) (s.reset names) := by
  have hdepth : s.toTree.depth ≤ room + 6 := Nat.le_trans s.depth_toTree_le (Nat.le_add_left 6 room)
  refine readsAs_record (Tree.depth_without_le hdepth) ?_
  intro less hless
  -- That there is room for the extensions is known only if they have not been taken out.
  have hextensions : decide ("extensions" ∉ names) = true →
      ReadsAs (ρ := ρ) (listOf FormatExtension.scan less)
        (.list (s.extensions.map FormatExtension.toTree)) s.extensions := by
    intro hkept
    have hroom : (Tree.list (s.extensions.map FormatExtension.toTree)).depth ≤ less :=
      hless ("extensions", _) (List.mem_filter.2 ⟨by simp, hkept⟩)
    exact readsAs_listOf_self hroom fun e he _ hless => FormatExtension.readsAs_scan (h e he) hless
  have hmembers : ReadsMembers (ρ := ρ) (Draft.step less) {}
      ([("enable_legacy", .bool s.legacy),
        ("extensions", .list (s.extensions.map FormatExtension.toTree))].filter
          fun m => m.1 ∉ names)
      ⟨if "enable_legacy" ∉ names then some s.legacy else none,
        if "extensions" ∉ names then some s.extensions else none⟩ := by
    refine .field_filter (fun legacy => ⟨legacy, none⟩) rfl rfl
      (fun _ => readsAs_bool s.legacy) ?_
    refine .field_filter (fun extensions => ⟨_, extensions⟩) rfl rfl hextensions ?_
    simp only [decide_eq_true_eq]
    exact .nil _
  refine hmembers.inside ?_
  simp only [Draft.finish, getD_ite]
  rfl

end OfferSettings

/-! ## All settings -/

/-- Settings are read back as they were, so that an offer has the same formats for every kind of
payload; and with members taken out of their JSON form, as they were but for the defaults of what
was taken out. -/
theorem settings_survive_json :
    (∀ s : OfferSettings, s.Tokenized →
      (∃ read, run (ρ := ρ) (OfferSettings.scan deepest) (Text.Utf8.encode s.toTree.compact) =
          .ok read ∧ read = s ∧ ∀ kind, read.offer.formats kind = s.offer.formats kind) ∧
      ∀ names, run (ρ := ρ) (OfferSettings.scan deepest)
        (Text.Utf8.encode (s.toTree.without names).compact) = .ok (s.reset names)) ∧
    (∀ s : ReaderSettings, s.annotationFilter.Made →
      run (ρ := ρ) (ReaderSettings.scan deepest) (Text.Utf8.encode s.toTree.compact) = .ok s ∧
      ∀ names, run (ρ := ρ) (ReaderSettings.scan deepest)
        (Text.Utf8.encode (s.toTree.without names).compact) = .ok (s.reset names)) ∧
    ∀ s : WriterSettings, s.annotationFilter.Made →
      run (ρ := ρ) (WriterSettings.scan deepest) (Text.Utf8.encode s.toTree.compact) = .ok s ∧
      ∀ names, run (ρ := ρ) (WriterSettings.scan deepest)
        (Text.Utf8.encode (s.toTree.without names).compact) = .ok (s.reset names) := by
  refine ⟨?_, ?_, ?_⟩
  · intro s hs
    obtain ⟨hwhole, hreset⟩ :=
      run_without s.reset_nil (fun _ => OfferSettings.readsAs_scan hs) s.faithful_toTree
    exact ⟨⟨s, hwhole, rfl, fun _ => rfl⟩, hreset⟩
  · intro s hs
    exact run_without s.reset_nil (fun _ => ReaderSettings.readsAs_scan hs.written) s.faithful_toTree
  · intro s hs
    exact run_without s.reset_nil (fun _ => WriterSettings.readsAs_scan hs.written) s.faithful_toTree

/-- A custom encoding without a name and a value with marks in it; the largest size, and a filter
that lets nothing pass; an empty context, and a filter with an excluding pattern for `-b`. -/
theorem settings_survive_json_at_limits :
    let m := MediaType.ofList "text" "x" [("q", "\"\\;"), ("e", "")]
    let offer : OfferSettings := ⟨true, [⟨[.property, .property], [⟨m, .custom ""⟩, ⟨m, .json⟩]⟩]⟩
    let reader : ReaderSettings := ⟨.none, 18446744073709551615, true⟩
    let writer : WriterSettings := ⟨"", ⟨[⟨.under "a", false⟩, ⟨.exact "-b", true⟩]⟩, false⟩
    AnnotationFilter.parse " a.* ,-  -b" = .ok writer.annotationFilter ∧ offer.Tokenized ∧
      run (ρ := Empty) (OfferSettings.scan deepest) (Text.Utf8.encode offer.toTree.compact) =
        .ok offer ∧
      run (ρ := Empty) (OfferSettings.scan deepest)
        (Text.Utf8.encode "\x7b\"enable_legacy\":true\x7d") = .ok ⟨true, []⟩ ∧
      run (ρ := Empty) (ReaderSettings.scan deepest) (Text.Utf8.encode reader.toTree.compact) =
        .ok reader ∧
      run (ρ := Empty) (ReaderSettings.scan deepest) (Text.Utf8.encode "\x7b\x7d") =
        .ok ⟨.all, 16777216, false⟩ ∧
      run (ρ := Empty) (WriterSettings.scan deepest) (Text.Utf8.encode writer.toTree.compact) =
        .ok writer := by
  intro m offer reader writer
  have hparse : AnnotationFilter.parse " a.* ,-  -b" = .ok writer.annotationFilter := by
    decide +kernel
  have htokenized : offer.Tokenized := by
    have hm : m.Tokenized := ⟨by decide +kernel, by decide +kernel, by decide +kernel⟩
    exact List.forall_mem_singleton.2 (List.forall_mem_cons.2 ⟨hm, List.forall_mem_singleton.2 hm⟩)
  obtain ⟨hoffer, hreader, hwriter⟩ := settings_survive_json (ρ := Empty)
  obtain ⟨⟨read, hread, rfl, -⟩, hreset⟩ := hoffer offer htokenized
  obtain ⟨hwhole, hdefaults⟩ := hreader reader (.inr (.inl rfl))
  refine ⟨hparse, htokenized, hread, hreset ["extensions"], hwhole, ?_,
    (hwriter writer (.inr (.inr ⟨_, hparse⟩))).1⟩
  exact hdefaults ["annotation_filter", "max_payload_size", "ieee754_compatible"]

end OData
