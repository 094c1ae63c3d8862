/-
# `OData.Proofs.Value.Int64Text` — which strings become integers again

Restoring turns a string into an integer if it is the canonical text of one that fits in 64 bits with a
sign, and leaves everything else as it is and where it is.  `Restored` says this of two values side by
side, without a function, and `restored_iff` that restoring is the one function that does it.

What restoring cannot know is where a string comes from.  A string of the value itself that reads like an
integer is taken for one, so that only a value without such strings comes back from being stringified:

| in the value | stringified | restored |
| :-- | :-- | :-- |
| a 64-bit integer | its text | the integer |
| a string that is no such text | the string | the string |
| a string that is | the string | an integer |

The last column depends on the first alone (`restore_stringify`), and this is the shape of the proof: what
is true of values that are restored is true of those that were stringified before.
-/
import OData.Proofs.Text.Integer
import OData.Proofs.Value.Equality
import OData.Proofs.Value.RoundTrip

namespace OData.Value

variable {v w : Value} {s : String} {n : Int} {m : Int64}

/-! ## Strings that stand for integers -/

/-- The string is the canonical text of `n`, and `n` fits in 64 bits with a sign. -/
structure SpellsInt64 (s : String) (n : Int) : Prop where
  text : Text.IsDecimal s.toList n
  low : -(2 ^ 63) ≤ n
  high : n < 2 ^ 63

theorem canonicalInt64?_eq_some_iff : canonicalInt64? s = some m ↔ s = Text.decimal m.toInt := by
  constructor
  · intro h
    rw [canonicalInt64?, Option.filter_eq_some_iff] at h
    exact (beq_iff_eq.1 h.2).symm
  · rintro rfl
    exact canonicalInt64?_decimal m

theorem SpellsInt64.canonicalInt64?_eq (h : SpellsInt64 s n) : canonicalInt64? s = some (.ofInt n) := by
  rw [canonicalInt64?_eq_some_iff, Int64.toInt_ofInt_of_le h.low h.high, ← String.toList_inj]
  exact Text.isDecimal_iff.1 h.text

theorem spellsInt64_of_canonicalInt64? (h : canonicalInt64? s = some m) : SpellsInt64 s m.toInt := by
  refine ⟨Text.isDecimal_iff.2 ?_, m.le_toInt, m.toInt_lt⟩
  rw [canonicalInt64?_eq_some_iff.1 h]

theorem restore_string_of_spells (h : SpellsInt64 s n) : (string s).restore = int64 (.ofInt n) := by
  rw [restore, h.canonicalInt64?_eq]

theorem restore_string_of_not (h : ∀ n, ¬ SpellsInt64 s n) : (string s).restore = string s := by
  rw [restore]
  split
  · next m hm => exact absurd (spellsInt64_of_canonicalInt64? hm) (h _)
  · rfl

theorem restore_string_cases (s : String) :
    (∃ n, SpellsInt64 s n ∧ (string s).restore = int64 (.ofInt n)) ∨
      (∀ n, ¬ SpellsInt64 s n) ∧ (string s).restore = string s := by
  by_cases hspells : ∃ n, SpellsInt64 s n
  · obtain ⟨n, h⟩ := hspells
    exact .inl ⟨n, h, restore_string_of_spells h⟩
  · have hno : ∀ n, ¬ SpellsInt64 s n := fun n h => hspells ⟨n, h⟩
    exact .inr ⟨hno, restore_string_of_not hno⟩

/-! ## What restoring changes -/

/-- The second value is the first with an integer in the place of each string that stands for one; both
have the same parts in the same order, and resources in them the same names. -/
inductive Restored : Value → Value → Prop
  | null : Restored null null
  | boolean (b : Bool) : Restored (boolean b) (boolean b)
  | int32 (n : Int32) : Restored (int32 n) (int32 n)
  | int64 (n : Int64) : Restored (int64 n) (int64 n)
  | double (d : Double) : Restored (double d) (double d)
  | integer {s : String} {n : Int} (h : SpellsInt64 s n) : Restored (string s) (int64 (.ofInt n))
  | text {s : String} (h : ∀ n, ¬ SpellsInt64 s n) : Restored (string s) (string s)
  | collection {items items' : List Value} (h : List.Forall₂ Restored items items') :
      Restored (collection items) (collection items')
  | resource {members members' : List (String × Value)}
      (hnames : members'.map Prod.fst = members.map Prod.fst)
      (hvalues : List.Forall₂ Restored (members.map Prod.snd) (members'.map Prod.snd)) :
      Restored (resource members) (resource members')

theorem forall₂_restored_iff {items items' : List Value}
    (h : ∀ v ∈ items, ∀ w, Restored v w ↔ v.restore = w) :
    List.Forall₂ Restored items items' ↔ items.map restore = items' := by
  rw [forall₂_congr_mem fun v hv w _ => h v hv w, ← List.forall₂_eq_eq_eq,
    List.forall₂_map_left_iff]

/-- Members are settled by their names and their values. -/
theorem map_restore_eq_iff {members members' : List (String × Value)} :
    members.map (fun m => (m.1, m.2.restore)) = members' ↔
      members'.map Prod.fst = members.map Prod.fst ∧
        (members.map Prod.snd).map restore = members'.map Prod.snd := by
  constructor
  · rintro rfl
    simp
  · rintro ⟨hnames, hvalues⟩
    rw [List.zip_of_prod hnames hvalues.symm, List.map_map, List.zip_map']
    rfl

theorem restored_string_iff : Restored (string s) w ↔ (string s).restore = w := by
  constructor
  · intro h
    cases h with
    | integer h => exact restore_string_of_spells h
    | text h => exact restore_string_of_not h
  · rintro rfl
    rcases restore_string_cases s with ⟨n, h, hrestore⟩ | ⟨h, hrestore⟩
    · rw [hrestore]
      exact .integer h
    · rw [hrestore]
      exact .text h

/-- Restoring does just this, and nothing else does. -/
theorem restored_iff : Restored v w ↔ v.restore = w := by
  induction v using ind generalizing w with
  | string s => exact restored_string_iff
  | collection items ih =>
      have hitems : ∀ v ∈ items, ∀ w, Restored v w ↔ v.restore = w := fun v hv w => ih v hv
      rw [restore_collection]
      constructor
      · intro h
        cases h with
        | collection h => rw [(forall₂_restored_iff hitems).1 h]
      · rintro rfl
        exact .collection ((forall₂_restored_iff hitems).2 rfl)
  | resource members ih =>
      have hvalues : ∀ v ∈ members.map Prod.snd, ∀ w, Restored v w ↔ v.restore = w :=
        List.forall_mem_map.2 fun m hm w => ih m hm
      rw [restore_resource]
      constructor
      · intro h
        cases h with
        | resource hnames h => rw [map_restore_eq_iff.2 ⟨hnames, (forall₂_restored_iff hvalues).1 h⟩]
      · rintro rfl
        generalize hmembers : members.map (fun m => (m.1, m.2.restore)) = members'
        obtain ⟨hnames, h⟩ := map_restore_eq_iff.1 hmembers
        exact .resource hnames ((forall₂_restored_iff hvalues).2 h)
  | _ =>
      constructor
      · intro h
        cases h
        rfl
      · rintro rfl
        constructor

/-! ## Values in which nothing is restored -/

/-- No string in the value stands for a 64-bit integer. -/
def WithoutInt64Texts (v : Value) : Prop :=
  v.Everywhere fun part => ∀ s, part = string s → ∀ n, ¬ SpellsInt64 s n

theorem withoutInt64Texts_string_iff : (string s).WithoutInt64Texts ↔ ∀ n, ¬ SpellsInt64 s n := by
  simp [WithoutInt64Texts, Everywhere]

theorem withoutInt64Texts_collection_iff {items : List Value} :
    (collection items).WithoutInt64Texts ↔ ∀ v ∈ items, v.WithoutInt64Texts := by
  simp [WithoutInt64Texts, everywhere_collection_iff]

theorem withoutInt64Texts_resource_iff {members : List (String × Value)} :
    (resource members).WithoutInt64Texts ↔ ∀ m ∈ members, m.2.WithoutInt64Texts := by
  simp [WithoutInt64Texts, everywhere_resource_iff]

theorem withoutInt64Texts_restore (v : Value) : v.restore.WithoutInt64Texts := by
  induction v using ind with
  | string s =>
      rcases restore_string_cases s with ⟨n, -, hrestore⟩ | ⟨h, hrestore⟩
      · rw [hrestore]
        exact nofun
      · rw [hrestore]
        exact withoutInt64Texts_string_iff.2 h
  | collection items ih =>
      rw [restore_collection, withoutInt64Texts_collection_iff, List.forall_mem_map]
      exact ih
  | resource members ih =>
      rw [restore_resource, withoutInt64Texts_resource_iff, List.forall_mem_map]
      exact ih
  | _ => exact nofun

theorem restore_eq_self (h : v.WithoutInt64Texts) : v.restore = v := by
  induction v using ind with
  | string s => exact restore_string_of_not (withoutInt64Texts_string_iff.1 h)
  | collection items ih =>
      rw [withoutInt64Texts_collection_iff] at h
      rw [restore_collection]
      exact congrArg collection (map_eq_self fun item hitem => ih item hitem (h item hitem))
  | resource members ih =>
      rw [withoutInt64Texts_resource_iff] at h
      rw [restore_resource]
      exact congrArg resource (map_eq_self fun m hm => Prod.ext rfl (ih m hm (h m hm)))
  | _ => rfl

theorem restore_eq_self_iff : v.restore = v ↔ v.WithoutInt64Texts :=
  ⟨fun h => h ▸ withoutInt64Texts_restore v, restore_eq_self⟩

/-- Whether integers were made strings before does not show when they are restored. -/
theorem restore_stringify (v : Value) : v.stringify.restore = v.restore := by
  induction v using ind with
  | int64 n =>
      show (string (Text.decimal n.toInt)).restore = int64 n
      rw [restore, canonicalInt64?_decimal]
  | collection items ih =>
      rw [stringify_collection, restore_collection, restore_collection, List.map_map]
      exact congrArg collection (List.map_congr_left ih)
  | resource members ih =>
      rw [stringify_resource, restore_resource, restore_resource, List.map_map]
      exact congrArg resource (List.map_congr_left fun m hm => Prod.ext rfl (ih m hm))
  | _ => rfl

/-- Restoring puts an integer in the place of each string that is the canonical text of one in 64 bits, at
every depth, and changes nothing else; a second time it changes nothing at all; and it gives a value back
whose integers were made strings exactly if no string of the value itself is such a text. -/
theorem restores_int64_texts_only (v : Value) :
    (∀ w, Restored v w ↔ v.restore = w) ∧ v.restore.restore = v.restore ∧
      (v.stringify.restore = v ↔ v.WithoutInt64Texts) := by
  refine ⟨fun w => restored_iff, restore_eq_self (withoutInt64Texts_restore v), ?_⟩
  rw [restore_stringify, restore_eq_self_iff]

/-- The least integer of the range, one more than the greatest, and texts that would be read as integers
but are not canonical.  A name stays a name. -/
example :
    (collection [string "-9223372036854775808", string "9223372036854775808", string "+5",
        string "05", string "-0", resource [("5", string "5")]]).restore =
      collection [int64 (-9223372036854775808), string "9223372036854775808", string "+5",
        string "05", string "-0", resource [("5", int64 5)]] :=
  rfl

end OData.Value
