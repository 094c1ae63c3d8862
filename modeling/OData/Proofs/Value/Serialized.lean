/-
# `OData.Proofs.Value.Serialized` — values read from their own text

A value by itself, in no payload, is written as its JSON form and read by `Value.scan`.  Which variant
comes back is settled by the text alone: an integer takes the narrower width, a number with a point is a
double, a string is a string.  None of this shows when values are compared.  What can go wrong is a
resource that repeats a name, and then reading fails; it does not drop one of the members, or keep the
last.

| hypothesis | why it is there |
| :-- | :-- |
| `FiniteDoubles` | a double that is not finite is written as a string and read as one |
| `toTree.depth ≤ deepest` | the reader opens no more containers inside one another |
| `DoublesReadBack` | what a long number is read as is not always the nearest double |

The last one is not needed to tell whether reading fails.
-/
import OData.Proofs.Value.Reading
import OData.Proofs.Value.RoundTrip

namespace OData.Value

open Json Json.Scan

variable {ρ : Type} {v : Value}

/-- Whatever becomes of the last bits of doubles, the text of a value is read as a value exactly if no
resource in it repeats a name. -/
theorem gives_run_scan (hdepth : v.toTree.depth ≤ deepest) :
    Gives (run (ρ := ρ) (scan deepest) (Text.Utf8.encode v.toTree.compact))
      (fun v' => v.DistinctNames ∧ v' = ofTree v.toTree.reread) fun _ => ¬ v.DistinctNames := by
  obtain ⟨gap, hgap, hahead⟩ := jsonText_iff_ahead.1 (Tree.jsonText_compact (printable_toTree v))
  have hroom : v.toTree.reread.depth ≤ deepest := (Tree.depth_reread v.toTree).trans_le hdepth
  have hnames : v.toTree.reread.DistinctNames ↔ v.DistinctNames :=
    (Tree.distinctNames_reread_iff v.toTree).trans (distinctNames_toTree_iff v)
  refine ((reads_scan hroom hahead).run hgap).mono ?_ ?_
  · rintro v' ⟨hdistinct, hv'⟩
    exact ⟨hnames.1 hdistinct, hv'⟩
  · rintro _ ⟨hbad, -⟩ hdistinct
    exact hbad (hnames.2 hdistinct)

/-- A value whose doubles are finite, and in which containers nest no deeper than can be read, is read
from its own text as a value that is equal to it, members in their order, if no resource in it repeats a
name; and if one does, reading fails. -/
theorem read_of_serialized_iff_distinct (hfinite : v.FiniteDoubles)
    (hdepth : v.toTree.depth ≤ deepest) :
    (v.DistinctNames → v.DoublesReadBack →
      ∃ v', run (ρ := ρ) (scan deepest) (Text.Utf8.encode v.toTree.compact) = .ok v' ∧
        v'.eq v = true) ∧
    (¬ v.DistinctNames →
      ∃ fault, run (ρ := ρ) (scan deepest) (Text.Utf8.encode v.toTree.compact) = .error fault) := by
  have hgives := gives_run_scan (ρ := ρ) hdepth
  cases hrun : run (ρ := ρ) (scan deepest) (Text.Utf8.encode v.toTree.compact) with
  | ok v' =>
      rw [hrun] at hgives
      obtain ⟨hdistinct, hv'⟩ := hgives
      refine ⟨fun _ hdoubles => ⟨v', rfl, ?_⟩, fun hbad => absurd hdistinct hbad⟩
      have heq := ofTree_toTree_eq_spelled v
      rw [spelled_eq hfinite] at heq
      rwa [hv', Tree.reread_eq (doublesReadBack_toTree hdoubles)]
  | error fault =>
      rw [hrun] at hgives
      exact ⟨fun hdistinct => absurd hdistinct hgives, fun _ => ⟨fault, rfl⟩⟩

/-- A double that has no short binary form, an integer wider than it need be, members out of order; and
the name of a member twice, two containers deep. -/
theorem read_of_serialized_nested :
    let tenth : Double := .finite false ⟨0x3fb999999999999a, by decide⟩
    let v : Value := .resource [("b", .collection [.int64 5, .double tenth]), ("a", .resource [])]
    let twice : Value := .collection [.resource [("x", .int32 1), ("x", .int32 1)]]
    (v.FiniteDoubles ∧ v.toTree.depth ≤ deepest ∧ v.DistinctNames ∧ v.DoublesReadBack) ∧
    (twice.FiniteDoubles ∧ twice.toTree.depth ≤ deepest ∧ ¬ twice.DistinctNames) ∧
    (∃ v', run (ρ := Empty) (scan deepest) (Text.Utf8.encode v.toTree.compact) = .ok v' ∧
      v'.eq v = true) ∧
    ∃ fault, run (ρ := Empty) (scan deepest) (Text.Utf8.encode twice.toTree.compact) =
      .error fault := by
  intro tenth v twice
  have htenth : DoublesReadBack (.double tenth) :=
    doublesReadBack_finite (Double.readsBack_iff.2 (by decide +kernel))
  have hfinite : v.FiniteDoubles := by
    simp [v, FiniteDoubles, Everywhere, EverywhereItems, EverywhereMembers, Double.IsFinite, tenth]
  have hdistinct : v.DistinctNames := by
    simp [v, DistinctNames, Everywhere, EverywhereItems, EverywhereMembers, names]
  have hdoubles : v.DoublesReadBack := by
    simp [v, doublesReadBack_collection_iff, doublesReadBack_resource_iff, doublesReadBack_int64,
      htenth]
  have hdepth : v.toTree.depth ≤ deepest := by decide +kernel
  have hfinite' : twice.FiniteDoubles := by
    simp [twice, FiniteDoubles, Everywhere, EverywhereItems, EverywhereMembers]
  have hrepeated : ¬ twice.DistinctNames := by
    simp [twice, DistinctNames, Everywhere, EverywhereItems, EverywhereMembers, names]
  have hdepth' : twice.toTree.depth ≤ deepest := by decide +kernel
  exact ⟨⟨hfinite, hdepth, hdistinct, hdoubles⟩, ⟨hfinite', hdepth', hrepeated⟩,
    (read_of_serialized_iff_distinct hfinite hdepth).1 hdistinct hdoubles,
    (read_of_serialized_iff_distinct hfinite' hdepth').2 hrepeated⟩

end OData.Value
