/-
# `OData.Proofs.Format.RoundTrip` — formats that are kept and read again

What an offer is made of, from the inside out: encodings and kinds of payload, formats, extensions.
Names of variants are looked up in the table that they are written from; a media type survives if it
is one of tokens, and nothing else is asked for.
-/
import OData.Format.Extension
import OData.Proofs.MediaType.RoundTrip

namespace OData

open Json Json.Scan

variable {ρ : Type} {room : Nat}

namespace Encoding

variable {e : Encoding}

theorem depth_toTree_le (e : Encoding) : e.toTree.depth ≤ 1 := by
  cases e with
  | custom name => exact Nat.le_refl 1
  | _ => exact Nat.zero_le 1

theorem faithful_toTree (e : Encoding) : e.toTree.Faithful := by
  cases e with
  | custom name =>
      refine Tree.faithful_object_iff.2 (List.forall_mem_singleton.2 ?_)
      exact Tree.faithful_string name
  | _ => exact Tree.faithful_string _

/-- One of the protocol's own encodings is its name; one that was added has its name for content. -/
theorem readsAs_scan (hdepth : e.toTree.depth ≤ room) : ReadsAs (ρ := ρ) (scan room) e.toTree e := by
  cases e with
  | custom name =>
      obtain ⟨less, rfl⟩ := Tree.exists_room_of_object hdepth
      exact readsAs_variant_content rfl ((readsAs_string _ name).bind rfl)
  | _ => exact readsAs_variant_bare rfl rfl

end Encoding

namespace PayloadKind

theorem lookup_jsonName (k : PayloadKind) :
    (all.map fun k => (k.jsonName, k)).lookup k.jsonName = some k := by
  cases k <;> rfl

theorem readsAs_scan (k : PayloadKind) : ReadsAs (ρ := ρ) (scan room) k.toTree k :=
  readsAs_variant_bare k.lookup_jsonName rfl

end PayloadKind

namespace Format

variable {f : Format}

theorem depth_toTree_le (f : Format) : f.toTree.depth ≤ 2 := by
  refine Tree.depth_object_le_iff.2 (List.forall_mem_cons.2 ⟨Nat.zero_le 1, ?_⟩)
  exact List.forall_mem_singleton.2 f.encoding.depth_toTree_le

theorem faithful_toTree (f : Format) : f.toTree.Faithful := by
  refine Tree.faithful_object_iff.2 (List.forall_mem_cons.2 ⟨Tree.faithful_string _, ?_⟩)
  exact List.forall_mem_singleton.2 f.encoding.faithful_toTree

theorem readsAs_scan (h : f.mediaType.Tokenized) (hdepth : f.toTree.depth ≤ room) :
    ReadsAs (ρ := ρ) (scan room) f.toTree f := by
  refine readsAs_record hdepth ?_
  intro less hless
  have hencoding : f.encoding.toTree.depth ≤ less := hless ("encoding", f.encoding.toTree) (by simp)
  have hmembers : ReadsMembers (ρ := ρ) (Draft.step less) {}
      [("media_type", f.mediaType.toTree), ("encoding", f.encoding.toTree)]
      ⟨some f.mediaType, some f.encoding⟩ :=
    .cons h.readsAs_scan.field (.cons (Encoding.readsAs_scan hencoding).field (.nil _))
  exact hmembers.inside rfl

end Format

namespace FormatExtension

variable {e : FormatExtension}

/-- The media types of the formats are ones of tokens. -/
def Tokenized (e : FormatExtension) : Prop := ∀ f ∈ e.formats, f.mediaType.Tokenized

theorem depth_toTree_le (e : FormatExtension) : e.toTree.depth ≤ 4 := by
  refine Tree.depth_object_le_iff.2 (List.forall_mem_cons.2 ⟨?_, List.forall_mem_singleton.2 ?_⟩)
  · exact Tree.depth_list_le_iff.2 (List.forall_mem_map.2 fun _ _ => Nat.zero_le 2)
  · exact Tree.depth_list_le_iff.2 (List.forall_mem_map.2 fun f _ => f.depth_toTree_le)

theorem faithful_toTree (e : FormatExtension) : e.toTree.Faithful := by
  refine Tree.faithful_object_iff.2 (List.forall_mem_cons.2 ⟨?_, List.forall_mem_singleton.2 ?_⟩)
  · exact Tree.faithful_list_iff.2 (List.forall_mem_map.2 fun _ _ => Tree.faithful_string _)
  · exact Tree.faithful_list_iff.2 (List.forall_mem_map.2 fun f _ => f.faithful_toTree)

theorem readsAs_scan (h : e.Tokenized) (hdepth : e.toTree.depth ≤ room) :
    ReadsAs (ρ := ρ) (scan room) e.toTree e := by
  refine readsAs_record hdepth ?_
  intro less hless
  rw [List.forall_mem_cons, List.forall_mem_singleton] at hless
  have hkinds : ReadsAs (ρ := ρ) (listOf PayloadKind.scan less)
      (.list (e.kinds.map PayloadKind.toTree)) e.kinds :=
    readsAs_listOf_self hless.1 fun k _ _ _ => k.readsAs_scan
  have hformats : ReadsAs (ρ := ρ) (listOf Format.scan less)
      (.list (e.formats.map Format.toTree)) e.formats :=
    readsAs_listOf_self hless.2 fun f hf _ hdepth => Format.readsAs_scan (h f hf) hdepth
  have hmembers : ReadsMembers (ρ := ρ) (Draft.step less) {}
      [("kinds", .list (e.kinds.map PayloadKind.toTree)),
        ("formats", .list (e.formats.map Format.toTree))] ⟨some e.kinds, some e.formats⟩ :=
    .cons hkinds.field (.cons hformats.field (.nil _))
  exact hmembers.inside rfl

end FormatExtension

end OData
