/-
# `OData.Proofs.Value.Trees` — values and the trees they are written as

Induction on values, as there is on trees, and what the functions on values do to containers, said
with `map`.  Then what the JSON form of a value is like: it can always be written, objects in it
have the names that the value has, and its doubles are those of the value that are finite.

What is written of a value is the value itself or, if integers are written as strings, the value
with those strings in it (`Value.written`); neither names nor doubles are touched by that.
-/
import OData.Proofs.Json.Compact
import OData.Value.Int64Text

namespace OData.Value

open Json

/-- Induction on a value, the parts of a container taken together. -/
theorem ind {motive : Value → Prop} (null : motive null) (boolean : ∀ b, motive (boolean b))
    (int32 : ∀ n, motive (int32 n)) (int64 : ∀ n, motive (int64 n))
    (double : ∀ d, motive (double d)) (string : ∀ s, motive (string s))
    (collection : ∀ items, (∀ v ∈ items, motive v) → motive (collection items))
    (resource : ∀ members, (∀ m ∈ members, motive m.2) → motive (resource members)) (v : Value) :
    motive v :=
  @Value.rec motive (fun items => ∀ v ∈ items, motive v)
    (fun members => ∀ m ∈ members, motive m.2) (fun m => motive m.2)
    null boolean int32 int64 double string collection resource
    nofun (fun _ _ hhead htail => List.forall_mem_cons.2 ⟨hhead, htail⟩)
    nofun (fun _ _ hhead htail => List.forall_mem_cons.2 ⟨hhead, htail⟩)
    (fun _ _ h => h) v

/-! ## What holds everywhere in a value -/

mutual

/-- `p` holds of the value and of every value inside it. -/
def Everywhere (p : Value → Prop) : Value → Prop
  | collection items => p (collection items) ∧ EverywhereItems p items
  | resource members => p (resource members) ∧ EverywhereMembers p members
  | v => p v

@[inherit_doc Everywhere]
def EverywhereItems (p : Value → Prop) : List Value → Prop
  | [] => True
  | item :: items => item.Everywhere p ∧ EverywhereItems p items

@[inherit_doc Everywhere]
def EverywhereMembers (p : Value → Prop) : List (String × Value) → Prop
  | [] => True
  | (_, value) :: members => value.Everywhere p ∧ EverywhereMembers p members

end

variable {p q : Value → Prop}

theorem everywhereItems_iff :
    ∀ {items : List Value}, EverywhereItems p items ↔ ∀ v ∈ items, v.Everywhere p
  | [] => by simp [EverywhereItems]
  | item :: items => by
      simp only [EverywhereItems, List.forall_mem_cons]
      exact and_congr Iff.rfl everywhereItems_iff

theorem everywhereMembers_iff :
    ∀ {members : List (String × Value)},
      EverywhereMembers p members ↔ ∀ m ∈ members, m.2.Everywhere p
  | [] => by simp [EverywhereMembers]
  | (_, value) :: members => by
      simp only [EverywhereMembers, List.forall_mem_cons]
      exact and_congr Iff.rfl everywhereMembers_iff

theorem everywhere_collection_iff {items : List Value} :
    (collection items).Everywhere p ↔ p (collection items) ∧ ∀ v ∈ items, v.Everywhere p := by
  rw [Everywhere, everywhereItems_iff]

theorem everywhere_resource_iff {members : List (String × Value)} :
    (resource members).Everywhere p ↔ p (resource members) ∧ ∀ m ∈ members, m.2.Everywhere p := by
  rw [Everywhere, everywhereMembers_iff]

theorem Everywhere.mono {v : Value} (h : v.Everywhere p) (hpq : ∀ part, p part → q part) :
    v.Everywhere q := by
  induction v using ind with
  | collection items ih =>
      rw [everywhere_collection_iff] at h ⊢
      exact ⟨hpq _ h.1, fun item hitem => ih item hitem (h.2 item hitem)⟩
  | resource members ih =>
      rw [everywhere_resource_iff] at h ⊢
      exact ⟨hpq _ h.1, fun m hm => ih m hm (h.2 m hm)⟩
  | _ => exact hpq _ h

/-- The names of the members of a resource; other values have none. -/
def names : Value → List String
  | resource members => members.map Prod.fst
  | _ => []

/-- No resource in the value repeats a name. -/
def DistinctNames (v : Value) : Prop := v.Everywhere fun part => part.names.Nodup

theorem distinctNames_collection_iff {items : List Value} :
    (collection items).DistinctNames ↔ ∀ v ∈ items, v.DistinctNames := by
  simp [DistinctNames, everywhere_collection_iff, names]

theorem distinctNames_resource_iff {members : List (String × Value)} :
    (resource members).DistinctNames ↔
      (members.map Prod.fst).Nodup ∧ ∀ m ∈ members, m.2.DistinctNames := by
  simp [DistinctNames, everywhere_resource_iff, names]

/-! ## Functions on containers -/

theorem stringifyItems_eq_map : ∀ items : List Value, stringifyItems items = items.map stringify
  | [] => rfl
  | item :: items => by rw [stringifyItems, stringifyItems_eq_map items, List.map_cons]

theorem stringifyMembers_eq_map : ∀ members : List (String × Value),
    stringifyMembers members = members.map fun m => (m.1, m.2.stringify)
  | [] => rfl
  | (name, value) :: members => by
      rw [stringifyMembers, stringifyMembers_eq_map members, List.map_cons]

theorem restoreItems_eq_map : ∀ items : List Value, restoreItems items = items.map restore
  | [] => rfl
  | item :: items => by rw [restoreItems, restoreItems_eq_map items, List.map_cons]

theorem restoreMembers_eq_map : ∀ members : List (String × Value),
    restoreMembers members = members.map fun m => (m.1, m.2.restore)
  | [] => rfl
  | (name, value) :: members => by
      rw [restoreMembers, restoreMembers_eq_map members, List.map_cons]

theorem toTrees_eq_map : ∀ items : List Value, toTrees items = items.map toTree
  | [] => rfl
  | item :: items => by rw [toTrees, toTrees_eq_map items, List.map_cons]

theorem toMemberTrees_eq_map : ∀ members : List (String × Value),
    toMemberTrees members = members.map fun m => (m.1, m.2.toTree)
  | [] => rfl
  | (name, value) :: members => by
      rw [toMemberTrees, toMemberTrees_eq_map members, List.map_cons]

theorem stringify_collection (items : List Value) :
    (collection items).stringify = collection (items.map stringify) := by
  rw [stringify, stringifyItems_eq_map]

theorem stringify_resource (members : List (String × Value)) :
    (resource members).stringify = resource (members.map fun m => (m.1, m.2.stringify)) := by
  rw [stringify, stringifyMembers_eq_map]

theorem restore_collection (items : List Value) :
    (collection items).restore = collection (items.map restore) := by
  rw [restore, restoreItems_eq_map]

theorem restore_resource (members : List (String × Value)) :
    (resource members).restore = resource (members.map fun m => (m.1, m.2.restore)) := by
  rw [restore, restoreMembers_eq_map]

theorem toTree_collection (items : List Value) :
    (collection items).toTree = .list (items.map toTree) := by
  rw [toTree, toTrees_eq_map]

theorem toTree_resource (members : List (String × Value)) :
    (resource members).toTree = .object (members.map fun m => (m.1, m.2.toTree)) := by
  rw [toTree, toMemberTrees_eq_map]

theorem ofTree_list (items : List Tree) : ofTree (.list items) = collection (items.map ofTree) := by
  rw [ofTree, ofTrees_eq_map]

theorem ofTree_object (members : List (String × Tree)) :
    ofTree (.object members) = resource (members.map fun m => (m.1, ofTree m.2)) := by
  rw [ofTree, ofMemberTrees_eq_map]

/-! ## The JSON form of a value -/

theorem doubleTree_cases (d : Double) :
    (∃ literal, nonFiniteLiteral? d = some literal ∧ doubleTree d = .string literal) ∨
      ∃ negative code, d = .finite negative code ∧ nonFiniteLiteral? d = none ∧
        doubleTree d = .double d := by
  cases d with
  | nan => exact .inl ⟨_, rfl, rfl⟩
  | infinite negative => cases negative <;> exact .inl ⟨_, rfl, rfl⟩
  | finite negative code => exact .inr ⟨negative, code, rfl, rfl, rfl⟩

/-- The JSON form of a value can be written. -/
theorem printable_toTree (v : Value) : v.toTree.Everywhere Tree.IsPrintable := by
  induction v using ind with
  | int32 n =>
      have hlow := n.le_toInt
      have hhigh := n.toInt_lt
      exact ⟨by omega, by omega⟩
  | int64 n =>
      have hlow := n.le_toInt
      have hhigh := n.toInt_lt
      exact ⟨by omega, by omega⟩
  | double d =>
      rw [toTree]
      rcases doubleTree_cases d with ⟨literal, -, htree⟩ | ⟨negative, code, hd, -, htree⟩
      · rw [htree]
        exact trivial
      · rw [htree]
        exact ⟨negative, code, hd⟩
  | collection items ih =>
      rw [toTree_collection, Tree.everywhere_list_iff, List.forall_mem_map]
      exact ⟨trivial, ih⟩
  | resource members ih =>
      rw [toTree_resource, Tree.everywhere_object_iff, List.forall_mem_map]
      exact ⟨trivial, ih⟩
  | _ => exact trivial

theorem distinctNames_toTree_iff (v : Value) : v.toTree.DistinctNames ↔ v.DistinctNames := by
  induction v using ind with
  | double d =>
      rw [toTree]
      rcases doubleTree_cases d with ⟨literal, -, htree⟩ | ⟨-, -, -, -, htree⟩ <;>
        exact iff_of_true (by rw [htree]; exact List.nodup_nil) List.nodup_nil
  | collection items ih =>
      rw [toTree_collection, Tree.distinctNames_list_iff, List.forall_mem_map,
        distinctNames_collection_iff]
      exact forall₂_congr ih
  | resource members ih =>
      rw [toTree_resource, Tree.distinctNames_object_iff, List.forall_mem_map, List.map_map,
        distinctNames_resource_iff]
      exact and_congr Iff.rfl (forall₂_congr ih)
  | _ => exact Iff.rfl

/-- Every finite double in the value is read as itself when it has been written. -/
def DoublesReadBack (v : Value) : Prop :=
  v.Everywhere fun part =>
    ∀ negative code, part = double (.finite negative code) → (Double.finite negative code).ReadsBack

theorem doublesReadBack_collection_iff {items : List Value} :
    (collection items).DoublesReadBack ↔ ∀ v ∈ items, v.DoublesReadBack := by
  simp [DoublesReadBack, everywhere_collection_iff]

theorem doublesReadBack_resource_iff {members : List (String × Value)} :
    (resource members).DoublesReadBack ↔ ∀ m ∈ members, m.2.DoublesReadBack := by
  simp [DoublesReadBack, everywhere_resource_iff]

theorem doublesReadBack_null : null.DoublesReadBack := nofun

theorem doublesReadBack_int64 (n : Int64) : (int64 n).DoublesReadBack := nofun

theorem doublesReadBack_finite {negative : Bool} {code : Fin Double.codes}
    (h : (Double.finite negative code).ReadsBack) :
    (double (.finite negative code)).DoublesReadBack := by
  rintro negative code ⟨⟩
  exact h

theorem doublesReadBack_zero : (double .zero).DoublesReadBack :=
  doublesReadBack_finite (Double.readsBack_iff.2 (by decide +kernel))

theorem doublesReadBack_toTree {v : Value} (h : v.DoublesReadBack) : v.toTree.DoublesReadBack := by
  induction v using ind with
  | double d =>
      rw [toTree]
      rcases doubleTree_cases d with ⟨literal, -, htree⟩ | ⟨negative, code, hd, -, htree⟩
      · rw [htree]
        exact nofun
      · subst hd
        rw [htree]
        rintro d ⟨⟩
        exact h negative code rfl
  | collection items ih =>
      rw [doublesReadBack_collection_iff] at h
      rw [toTree_collection, Tree.doublesReadBack_list_iff, List.forall_mem_map]
      exact fun item hitem => ih item hitem (h item hitem)
  | resource members ih =>
      rw [doublesReadBack_resource_iff] at h
      rw [toTree_resource, Tree.doublesReadBack_object_iff, List.forall_mem_map]
      exact fun m hm => ih m hm (h m hm)
  | _ => exact nofun

/-! ## What is written of a value -/

/-- The value that is written for `v`. -/
def written (int64AsString : Bool) (v : Value) : Value := if int64AsString then v.stringify else v

variable {int64AsString : Bool}

theorem written_collection (items : List Value) :
    (collection items).written int64AsString = collection (items.map (written int64AsString)) := by
  cases int64AsString with
  | false => exact congrArg collection (List.map_id' items).symm
  | true => exact stringify_collection items

theorem written_resource (members : List (String × Value)) :
    (resource members).written int64AsString =
      resource (members.map fun m => (m.1, m.2.written int64AsString)) := by
  cases int64AsString with
  | false => exact congrArg resource (List.map_id' members).symm
  | true => exact stringify_resource members

/-- Integers apart, a value without parts is written as itself. -/
theorem written_of_stringify {v : Value} (h : v.stringify = v) : v.written int64AsString = v := by
  cases int64AsString with
  | false => rfl
  | true => exact h

theorem distinctNames_written_iff (v : Value) :
    (v.written int64AsString).DistinctNames ↔ v.DistinctNames := by
  induction v using ind with
  | int64 n => cases int64AsString <;> exact Iff.rfl
  | collection items ih =>
      rw [written_collection, distinctNames_collection_iff, List.forall_mem_map,
        distinctNames_collection_iff]
      exact forall₂_congr ih
  | resource members ih =>
      rw [written_resource, distinctNames_resource_iff, List.forall_mem_map, List.map_map,
        distinctNames_resource_iff]
      exact and_congr Iff.rfl (forall₂_congr ih)
  | _ => rw [written_of_stringify rfl]

theorem doublesReadBack_written {v : Value} (h : v.DoublesReadBack) :
    (v.written int64AsString).DoublesReadBack := by
  induction v using ind with
  | int64 n => cases int64AsString <;> exact nofun
  | collection items ih =>
      rw [doublesReadBack_collection_iff] at h
      rw [written_collection, doublesReadBack_collection_iff, List.forall_mem_map]
      exact fun item hitem => ih item hitem (h item hitem)
  | resource members ih =>
      rw [doublesReadBack_resource_iff] at h
      rw [written_resource, doublesReadBack_resource_iff, List.forall_mem_map]
      exact fun m hm => ih m hm (h m hm)
  | _ => rwa [written_of_stringify rfl]

end OData.Value
