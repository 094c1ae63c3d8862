/-
# `OData.Proofs.Value.RoundTrip` — values that are written and read again

Reading the JSON form of a value gives the value back but for two things: a double that is not
finite has become the string of its name (`Value.spelled`), and an integer takes the narrower width
if it fits, which does not show when values are compared.

A value is `Settled` if there is nothing left to change in it; such a value comes back as itself,
the widths of its integers included.
-/
import OData.Proofs.Value.Trees

namespace OData.Value

open Json

/-! ## Integers -/

theorem ofNumber_toInt (n : Int64) : ofNumber (.integer n.toInt) = integer n := by
  simp only [ofNumber, Text.int64OfInt?_toInt]

theorem ofNumber_toInt32 (n : Int32) : ofNumber (.integer n.toInt) = int32 n := by
  have hlow := n.le_toInt
  have hhigh := n.toInt_lt
  rw [← Int32.toInt_toInt64, ofNumber_toInt, integer, Int32.toInt_toInt64,
    if_pos ⟨by omega, by omega⟩, Int32.toInt32_toInt64]

theorem integer_eq {n : Int64} {v : Value} (h : v.asInt? = some n.toInt) :
    (integer n).eq v = true := by
  rw [integer]
  split
  · next hnarrow =>
      have hn : n.toInt32.toInt = n.toInt := by
        rw [Int64.toInt_toInt32, Int.bmod_eq_of_le] <;> omega
      rw [eq, hn, h, beq_self_eq_true]
  · rw [eq, h, beq_self_eq_true]

theorem canonicalInt64?_decimal (n : Int64) : canonicalInt64? (Text.decimal n.toInt) = some n := by
  simp [canonicalInt64?, Text.int64?_decimal]

/-! ## Equality of containers -/

theorem eqItems_map_iff {α : Type} {f g : α → Value} : ∀ {items : List α},
    eqItems (items.map f) (items.map g) = true ↔ ∀ a ∈ items, (f a).eq (g a) = true
  | [] => by simp [eqItems]
  | a :: items => by
      simp only [List.map_cons, eqItems, Bool.and_eq_true, List.forall_mem_cons]
      exact and_congr Iff.rfl eqItems_map_iff

theorem eqMembers_map_iff {α : Type} {name : α → String} {f g : α → Value} : ∀ {members : List α},
    eqMembers (members.map fun m => (name m, f m)) (members.map fun m => (name m, g m)) = true ↔
      ∀ m ∈ members, (f m).eq (g m) = true
  | [] => by simp [eqMembers]
  | m :: members => by
      simp only [List.map_cons, eqMembers, beq_self_eq_true, Bool.true_and, Bool.and_eq_true,
        List.forall_mem_cons]
      exact and_congr Iff.rfl eqMembers_map_iff

mutual

/-- The value with each double that is not finite as the string of its name. -/
def spelled : Value → Value
  | double d =>
    match nonFiniteLiteral? d with
    | some literal => string literal
    | none => double d
  | collection items => collection (spelledItems items)
  | resource members => resource (spelledMembers members)
  | v => v

@[inherit_doc spelled]
def spelledItems : List Value → List Value
  | [] => []
  | item :: items => item.spelled :: spelledItems items

@[inherit_doc spelled]
def spelledMembers : List (String × Value) → List (String × Value)
  | [] => []
  | (name, value) :: members => (name, value.spelled) :: spelledMembers members

end

theorem spelledItems_eq_map : ∀ items : List Value, spelledItems items = items.map spelled
  | [] => rfl
  | item :: items => by rw [spelledItems, spelledItems_eq_map items, List.map_cons]

theorem spelledMembers_eq_map : ∀ members : List (String × Value),
    spelledMembers members = members.map fun m => (m.1, m.2.spelled)
  | [] => rfl
  | (name, value) :: members => by
      rw [spelledMembers, spelledMembers_eq_map members, List.map_cons]

theorem spelled_collection (items : List Value) :
    (collection items).spelled = collection (items.map spelled) := by
  rw [spelled, spelledItems_eq_map]

theorem spelled_resource (members : List (String × Value)) :
    (resource members).spelled = resource (members.map fun m => (m.1, m.2.spelled)) := by
  rw [spelled, spelledMembers_eq_map]

/-- Every double in the value is a finite number. -/
def FiniteDoubles (v : Value) : Prop := v.Everywhere fun part => ∀ d, part = double d → d.IsFinite

theorem finiteDoubles_collection_iff {items : List Value} :
    (collection items).FiniteDoubles ↔ ∀ v ∈ items, v.FiniteDoubles := by
  simp [FiniteDoubles, everywhere_collection_iff]

theorem finiteDoubles_resource_iff {members : List (String × Value)} :
    (resource members).FiniteDoubles ↔ ∀ m ∈ members, m.2.FiniteDoubles := by
  simp [FiniteDoubles, everywhere_resource_iff]

theorem map_eq_self {α : Type} {f : α → α} {as : List α} (h : ∀ a ∈ as, f a = a) : as.map f = as :=
  (List.map_congr_left h).trans (List.map_id' as)

/-- Only a double that is not finite is spelled out. -/
theorem spelled_eq {v : Value} (h : v.FiniteDoubles) : v.spelled = v := by
  induction v using ind with
  | double d =>
      obtain ⟨negative, code, rfl⟩ := h d rfl
      rfl
  | collection items ih =>
      rw [finiteDoubles_collection_iff] at h
      rw [spelled_collection]
      exact congrArg collection (map_eq_self fun item hitem => ih item hitem (h item hitem))
  | resource members ih =>
      rw [finiteDoubles_resource_iff] at h
      rw [spelled_resource]
      exact congrArg resource (map_eq_self fun m hm => Prod.ext rfl (ih m hm (h m hm)))
  | _ => rfl

/-! ## Up to equality -/

/-- Reading the JSON form of a value gives the value, its doubles spelled out. -/
theorem ofTree_toTree_eq_spelled (v : Value) : (ofTree v.toTree).eq v.spelled = true := by
  induction v using ind with
  | null => rfl
  | boolean b => exact beq_self_eq_true b
  | int32 n =>
      rw [toTree, ofTree, ofNumber_toInt32]
      exact beq_self_eq_true (some n.toInt)
  | int64 n =>
      rw [toTree, ofTree, ofNumber_toInt]
      exact integer_eq rfl
  | double d =>
      rw [toTree, spelled]
      rcases doubleTree_cases d with ⟨literal, hliteral, htree⟩ | ⟨negative, code, rfl, -, htree⟩
      · rw [htree, hliteral]
        exact beq_self_eq_true literal
      · rw [htree]
        exact (Double.eq_self_iff (.finite negative code)).2 rfl
  | string s => exact beq_self_eq_true s
  | collection items ih =>
      rw [toTree_collection, ofTree_list, spelled_collection, List.map_map, eq, eqItems_map_iff]
      exact ih
  | resource members ih =>
      rw [toTree_resource, ofTree_object, spelled_resource, List.map_map, eq]
      exact eqMembers_map_iff.2 ih

/-- A value without parts, or a resource by its own members, that reading gives as it was written;
strings are only then in doubt when they stand for integers too. -/
def IsSettled (int64AsString : Bool) : Value → Prop
  | int64 n => int64AsString = false → ¬ (-(2 ^ 31) ≤ n.toInt ∧ n.toInt < 2 ^ 31)
  | double d => d.IsFinite
  | string s => int64AsString = true → canonicalInt64? s = none
  | resource members => (members.map Prod.fst).Nodup
  | _ => True

/-- The value has nothing in it that writing and reading would change. -/
def Settled (int64AsString : Bool) (v : Value) : Prop := v.Everywhere (IsSettled int64AsString)

variable {int64AsString : Bool} {v : Value}

theorem settled_collection_iff {items : List Value} :
    (collection items).Settled int64AsString ↔ ∀ v ∈ items, v.Settled int64AsString := by
  simp [Settled, everywhere_collection_iff, IsSettled]

theorem settled_resource_iff {members : List (String × Value)} :
    (resource members).Settled int64AsString ↔
      (members.map Prod.fst).Nodup ∧ ∀ m ∈ members, m.2.Settled int64AsString := by
  simp [Settled, everywhere_resource_iff, IsSettled]

theorem Settled.distinctNames (h : v.Settled int64AsString) : v.DistinctNames := by
  refine h.mono ?_
  intro part hpart
  cases part with
  | resource members => exact hpart
  | _ => exact List.nodup_nil

/-- Restoring integers leaves no string that stands for one. -/
theorem Settled.restore (h : v.Settled false) : v.restore.Settled true := by
  induction v using ind with
  | int64 n => exact nofun
  | double d => exact h
  | string s =>
      rw [Value.restore]
      split
      · exact nofun
      · next hnone => exact fun _ => hnone
  | collection items ih =>
      rw [settled_collection_iff] at h
      rw [restore_collection, settled_collection_iff, List.forall_mem_map]
      exact fun item hitem => ih item hitem (h item hitem)
  | resource members ih =>
      rw [settled_resource_iff] at h
      rw [restore_resource, settled_resource_iff, List.forall_mem_map, List.map_map]
      exact ⟨h.1, fun m hm => ih m hm (h.2 m hm)⟩
  | _ => exact trivial

theorem ofTree_toTree (h : v.Settled false) : ofTree v.toTree = v := by
  induction v using ind with
  | int32 n => rw [toTree, ofTree, ofNumber_toInt32]
  | int64 n =>
      have hwide : ¬ (-(2 ^ 31) ≤ n.toInt ∧ n.toInt < 2 ^ 31) := h rfl
      rw [toTree, ofTree, ofNumber_toInt, integer, if_neg hwide]
  | double d =>
      obtain ⟨negative, code, rfl⟩ : d.IsFinite := h
      rfl
  | collection items ih =>
      rw [settled_collection_iff] at h
      rw [toTree_collection, ofTree_list, List.map_map]
      exact congrArg collection (map_eq_self fun item hitem => ih item hitem (h item hitem))
  | resource members ih =>
      rw [settled_resource_iff] at h
      rw [toTree_resource, ofTree_object, List.map_map]
      exact congrArg resource (map_eq_self fun m hm => Prod.ext rfl (ih m hm (h.2 m hm)))
  | _ => rfl

theorem restore_ofTree_stringify (h : v.Settled true) :
    (ofTree v.stringify.toTree).restore = v := by
  induction v using ind with
  | int32 n =>
      show (ofNumber (.integer n.toInt)).restore = int32 n
      rw [ofNumber_toInt32]
      rfl
  | int64 n =>
      show (string (Text.decimal n.toInt)).restore = int64 n
      rw [restore, canonicalInt64?_decimal]
  | double d =>
      obtain ⟨negative, code, rfl⟩ : d.IsFinite := h
      rfl
  | string s =>
      have hnone : canonicalInt64? s = none := h rfl
      show (string s).restore = string s
      rw [restore, hnone]
  | collection items ih =>
      rw [settled_collection_iff] at h
      rw [stringify_collection, toTree_collection, ofTree_list, restore_collection, List.map_map,
        List.map_map, List.map_map]
      exact congrArg collection (map_eq_self fun item hitem => ih item hitem (h item hitem))
  | resource members ih =>
      rw [settled_resource_iff] at h
      rw [stringify_resource, toTree_resource, ofTree_object, restore_resource, List.map_map,
        List.map_map, List.map_map]
      exact congrArg resource (map_eq_self fun m hm => Prod.ext rfl (ih m hm (h.2 m hm)))
  | _ => rfl

end OData.Value
