/-
# `OData.Proofs.Offer.Layers` — what a stack of layers offers

A layer has extensions from the start and others that are registered later, and it may lie over other
layers.  None of this shows in what is offered: a stack of layers offers what one layer with all
their extensions does, the innermost first (`formats_stack`).  So what is to be known of a stack is
known of one way to put formats behind those of the table, `Appended`, in which a format is passed
over if its media type is there by then:

| | |
| :-- | :-- |
| `appended_iff` | there is one list that comes of it, the one that the offer makes |
| `Appended.isPrefix` | what was there before stays in front |
| `Appended.find?_isFor` | of each media type the first format counts |
| `Appended.eq_of_known` | media types that are all there add nothing |
| `Appended.nodup` | no media type is repeated that was not repeated before |
-/
import Mathlib
import OData.Offer

namespace OData

/-- The format is one for this media type. -/
def Format.isFor (m : MediaType) (f : Format) : Bool := f.mediaType == m

theorem Format.isFor_iff {m : MediaType} {f : Format} : f.isFor m = true ↔ f.mediaType = m :=
  beq_iff_eq

namespace Offer

variable {formats more result : List Format} {f : Format} {m : MediaType} {kind : PayloadKind}

/-! ## Adding formats -/

/-- `result` is `formats` and behind them, in order, those of `more` whose media type was not in the
list when it was their turn. -/
inductive Appended : List Format → List Format → List Format → Prop
  | nil (formats : List Format) : Appended formats [] formats
  | known {formats more result : List Format} {f : Format} :
      f.mediaType ∈ formats.map (·.mediaType) → Appended formats more result →
      Appended formats (f :: more) result
  | new {formats more result : List Format} {f : Format} :
      f.mediaType ∉ formats.map (·.mediaType) → Appended (formats ++ [f]) more result →
      Appended formats (f :: more) result

theorem addFormat_of_mem (h : f.mediaType ∈ formats.map (·.mediaType)) : addFormat formats f = formats := by
  obtain ⟨g, hg, hsame⟩ := List.mem_map.1 h
  refine if_pos (List.any_eq_true.2 ⟨g, hg, ?_⟩)
  exact beq_iff_eq.2 hsame

theorem addFormat_of_not_mem (h : f.mediaType ∉ formats.map (·.mediaType)) :
    addFormat formats f = formats ++ [f] := by
  refine if_neg ?_
  intro hany
  obtain ⟨g, hg, hsame⟩ := List.any_eq_true.1 hany
  exact h (List.mem_map.2 ⟨g, hg, beq_iff_eq.1 hsame⟩)

theorem appended_foldl (formats more : List Format) :
    Appended formats more (more.foldl addFormat formats) := by
  induction more generalizing formats with
  | nil => exact .nil formats
  | cons f more ih =>
      rw [List.foldl_cons]
      by_cases h : f.mediaType ∈ formats.map (·.mediaType)
      · rw [addFormat_of_mem h]
        exact .known h (ih formats)
      · rw [addFormat_of_not_mem h]
        exact .new h (ih (formats ++ [f]))

/-- One list comes of it. -/
theorem appended_iff : Appended formats more result ↔ result = more.foldl addFormat formats := by
  constructor
  · intro h
    induction h with
    | nil formats => rfl
    | known hf _ ih => rwa [List.foldl_cons, addFormat_of_mem hf]
    | new hf _ ih => rwa [List.foldl_cons, addFormat_of_not_mem hf]
  · rintro rfl
    exact appended_foldl formats more

theorem find?_isFor_isSome (h : m ∈ formats.map (·.mediaType)) :
    (formats.find? (Format.isFor m)).isSome := by
  obtain ⟨g, hg, hsame⟩ := List.mem_map.1 h
  exact List.find?_isSome.2 ⟨g, hg, Format.isFor_iff.2 hsame⟩

theorem exists_first (formats : List Format) (hf : f ∈ more) :
    ∃ g, (formats ++ more).find? (Format.isFor f.mediaType) = some g :=
  Option.isSome_iff_exists.1
    (find?_isFor_isSome (List.mem_map.2 ⟨f, List.mem_append_right _ hf, rfl⟩))

namespace Appended

/-- What was there before stays in front. -/
theorem isPrefix (h : Appended formats more result) : formats <+: result := by
  induction h with
  | nil formats => exact List.prefix_rfl
  | known _ _ ih => exact ih
  | new _ _ ih => exact (List.prefix_append ..).trans ih

/-- Of each media type the first format counts, whether it was there before or has been added. -/
theorem find?_isFor (h : Appended formats more result) (m : MediaType) :
    result.find? (Format.isFor m) = (formats ++ more).find? (Format.isFor m) := by
  induction h with
  | nil formats => rw [List.append_nil]
  | @known formats more result f hf _ ih =>
      rw [ih, List.find?_append, List.find?_append]
      by_cases hm : f.isFor m
      · rw [Format.isFor_iff] at hm
        subst hm
        obtain ⟨g, hg⟩ := Option.isSome_iff_exists.1 (find?_isFor_isSome hf)
        rw [hg, Option.some_or, Option.some_or]
      · rw [List.find?_cons_of_neg hm]
  | new _ _ ih => rw [ih, List.append_assoc, List.singleton_append]

/-- What has been added is there, by its media type. -/
theorem mem (h : Appended formats more result) (hf : f ∈ more) :
    f.mediaType ∈ result.map (·.mediaType) := by
  obtain ⟨g, hg⟩ := exists_first formats hf
  rw [← h.find?_isFor] at hg
  exact List.mem_map.2 ⟨g, List.mem_of_find?_eq_some hg, Format.isFor_iff.1 (List.find?_some hg)⟩

/-- Media types that are all there add nothing. -/
theorem eq_of_known (h : Appended formats more result)
    (hknown : ∀ f ∈ more, f.mediaType ∈ formats.map (·.mediaType)) : result = formats := by
  induction h with
  | nil formats => rfl
  | known _ _ ih => exact ih (List.forall_mem_cons.1 hknown).2
  | new hf _ _ => exact absurd (List.forall_mem_cons.1 hknown).1 hf

/-- No media type is repeated that was not repeated before. -/
theorem nodup (h : Appended formats more result) (hformats : (formats.map (·.mediaType)).Nodup) :
    (result.map (·.mediaType)).Nodup := by
  induction h with
  | nil formats => exact hformats
  | known _ _ ih => exact ih hformats
  | new hf _ ih =>
      refine ih ?_
      rw [List.map_append, List.nodup_append_comm]
      exact List.nodup_cons.2 ⟨hf, hformats⟩

end Appended

/-! ## Stacks of layers -/

/-- How a layer is made: with some extensions from the start, and others registered later. -/
structure LayerPlan where
  given : List FormatExtension
  registered : List FormatExtension

namespace LayerPlan

/-- The extensions of the layer, in order. -/
def extensions (p : LayerPlan) : List FormatExtension := p.given ++ p.registered

/-- The layer over `below`. -/
def build (below : Offer) (p : LayerPlan) : Offer :=
  p.registered.foldl (fun offer e => offer.extend e) (.layer below p.given)

/-- Whether an extension was given or registered does not show. -/
theorem build_eq_layer (below : Offer) (p : LayerPlan) : p.build below = .layer below p.extensions := by
  obtain ⟨given, registered⟩ := p
  simp only [build, extensions]
  induction registered generalizing given with
  | nil => rw [List.foldl_nil, List.append_nil]
  | cons e registered ih =>
      have hextend : (Offer.layer below given).extend e = .layer below (given ++ [e]) := rfl
      rw [List.foldl_cons, hextend, ih, List.append_assoc, List.singleton_append]

end LayerPlan

/-- Layers over `base`, the innermost first. -/
def stack (base : Offer) (plans : List LayerPlan) : Offer :=
  plans.foldl LayerPlan.build base

/-- All extensions of a stack, in order. -/
def registry (plans : List LayerPlan) : List FormatExtension := plans.flatMap LayerPlan.extensions

theorem additions_append (es es' : List FormatExtension) (kind : PayloadKind) :
    additions (es ++ es') kind = additions es kind ++ additions es' kind := by
  rw [additions, List.filter_append, List.flatMap_append]
  rfl

theorem additions_eq (es : List FormatExtension) (kind : PayloadKind) :
    additions es kind = (es.filter fun e => kind ∈ e.kinds).flatMap (·.formats) := by
  simp only [additions, FormatExtension.appliesTo, List.contains_eq_mem]

theorem formats_stack (base : Offer) (plans : List LayerPlan) (kind : PayloadKind) :
    (stack base plans).formats kind =
      (additions (registry plans) kind).foldl addFormat (base.formats kind) := by
  induction plans generalizing base with
  | nil => rfl
  | cons p plans ih =>
      have hlayer : (p.build base).formats kind =
          (additions p.extensions kind).foldl addFormat (base.formats kind) := by
        rw [LayerPlan.build_eq_layer, formats]
      have hregistry : registry (p :: plans) = p.extensions ++ registry plans := List.flatMap_cons
      have hstack : stack base (p :: plans) = stack (p.build base) plans := List.foldl_cons ..
      rw [hstack, ih, hlayer, hregistry, additions_append, List.foldl_append]

/-- An extension that is registered again, anywhere behind its first place, adds nothing. -/
theorem foldl_addFormat_again (formats : List Format) (before between after : List FormatExtension)
    (e : FormatExtension) (kind : PayloadKind) :
    (additions (before ++ e :: (between ++ e :: after)) kind).foldl addFormat formats =
      (additions (before ++ e :: (between ++ after)) kind).foldl addFormat formats := by
  rw [List.append_cons before e (between ++ e :: after), List.append_cons before e (between ++ after),
    List.append_cons between e after]
  simp only [additions_append, List.foldl_append]
  congr 1
  -- the formats of `e` are there since its first place, whatever came in between
  refine (appended_foldl _ _).eq_of_known ?_
  intro f hf
  exact ((appended_foldl _ _).isPrefix.map _).subset ((appended_foldl _ _).mem hf)

/-- The formats that payloads have from the start are all for different media types. -/
theorem nodup_standard (legacy : Bool) (kind : PayloadKind) :
    ((FormatTable.standard legacy kind).map (·.mediaType)).Nodup := by
  have hall : ∀ legacy, ∀ kind ∈ PayloadKind.all,
      ((FormatTable.standard legacy kind).map (·.mediaType)).Nodup := by
    decide +kernel
  exact hall legacy kind kind.mem_all

/-- However the layers are made, what they offer is the formats of the base and behind them, in the
order of the extensions that name the kind, each format whose media type does not stand before it. -/
theorem formats_stack_flat (base : Offer) (plans : List LayerPlan) (kind : PayloadKind) :
    let offered := ((registry plans).filter fun e => kind ∈ e.kinds).flatMap (·.formats)
    let result := (stack base plans).formats kind
    (∀ formats, Appended (base.formats kind) offered formats ↔ formats = result) ∧
      base.formats kind <+: result ∧
      result = (Offer.layer base (registry plans)).formats kind ∧
      (∀ e ∈ registry plans, kind ∈ e.kinds → ∀ f ∈ e.formats, ∃ g,
        result.find? (Format.isFor f.mediaType) = some g ∧
          (base.formats kind ++ offered).find? (Format.isFor f.mediaType) = some g) ∧
      (∀ again before e between after, registry plans = before ++ e :: (between ++ after) →
        registry again = before ++ e :: (between ++ e :: after) →
          (stack base again).formats kind = result) ∧
      ∀ legacy, (((stack (.table (.standard legacy)) plans).formats kind).map (·.mediaType)).Nodup := by
  intro offered result
  have hresult : result = (additions (registry plans) kind).foldl addFormat (base.formats kind) :=
    formats_stack base plans kind
  have hoffered : additions (registry plans) kind = offered := additions_eq (registry plans) kind
  have happended : Appended (base.formats kind) offered result :=
    appended_iff.2 (hoffered ▸ hresult)
  refine ⟨?_, happended.isPrefix, ?_, ?_, ?_, ?_⟩
  · intro formats
    rw [appended_iff, ← hoffered, ← hresult]
  · rw [hresult, formats]
  · intro e he hkind f hf
    have hmem : f ∈ offered :=
      List.mem_flatMap.2 ⟨e, List.mem_filter.2 ⟨he, decide_eq_true hkind⟩, hf⟩
    obtain ⟨g, hg⟩ := exists_first (base.formats kind) hmem
    exact ⟨g, (happended.find?_isFor f.mediaType).trans hg, hg⟩
  · intro again before e between after hplans hagain
    rw [formats_stack, hagain, foldl_addFormat_again, ← hplans, hresult]
  · intro legacy
    rw [formats_stack]
    exact (appended_foldl _ _).nodup (nodup_standard legacy kind)

/-- An extension of the inner layer is registered again in the outer one: its format is offered once,
and behind it that of the other extension. -/
theorem formats_stack_flat_again :
    let base := Offer.table (.standard false)
    let once : List LayerPlan := [⟨[.vcard], [.avro]⟩]
    let again : List LayerPlan := [⟨[.vcard], []⟩, ⟨[.avro], [.vcard]⟩]
    let card : Format := ⟨.new "text" "x-vCard", .custom "VCard"⟩
    let avro : Format := ⟨.new "avro" "binary", .custom "Avro"⟩
    registry once = [.vcard, .avro] ∧ registry again = [.vcard, .avro, .vcard] ∧
      (stack base again).formats .property = (stack base once).formats .property ∧
      (stack base again).formats .property = base.formats .property ++ [card, avro] := by
  intro base once again card avro
  obtain ⟨honly, -, -, -, hagain, -⟩ := formats_stack_flat base once .property
  have hsame : (stack base again).formats .property = (stack base once).formats .property :=
    hagain again [] .vcard [.avro] [] rfl rfl
  have honce : base.formats .property ++ [card, avro] = (stack base once).formats .property := by
    refine (honly _).1 (.new ?_ ?_)
    · decide
    · rw [List.append_cons]
      refine .new ?_ (.nil _)
      decide
  exact ⟨rfl, rfl, hsame, hsame.trans honce.symm⟩

end Offer

end OData
