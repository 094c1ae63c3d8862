/-
# `OData.Proofs.Value.Accepted` — what a value is like that has been read

Whatever the text, a value that was read is settled: its integers are as narrow as they can be, its
doubles are finite, no resource in it repeats a name; and containers nest in it no deeper than there
was room for.  Restoring integers or making strings of them leaves its depth as it is.
-/
import OData.Proofs.Json.Ensures
import OData.Proofs.Value.RoundTrip

namespace OData.Value

open Json Json.Scan

variable {ρ : Type} {int64AsString : Bool}

/-! ## Depth -/

theorem depth_toTree_ofNumber (n : Number) : (ofNumber n).toTree.depth = 0 := by
  have hdouble : ∀ d, (double d).toTree.depth = 0 := by
    intro d
    rw [toTree]
    rcases doubleTree_cases d with ⟨literal, -, htree⟩ | ⟨-, -, -, -, htree⟩ <;>
      rw [htree] <;> rfl
  cases n with
  | double d => exact hdouble d
  | integer n =>
      simp only [ofNumber]
      split
      · unfold integer
        split <;> rfl
      · exact hdouble _

theorem depth_toTree_restore (v : Value) : v.restore.toTree.depth = v.toTree.depth := by
  induction v using ind with
  | string s =>
      rw [restore]
      split <;> rfl
  | collection items ih =>
      rw [restore_collection, toTree_collection, toTree_collection, List.map_map]
      exact Tree.depth_list_congr ih
  | resource members ih =>
      rw [restore_resource, toTree_resource, toTree_resource, List.map_map]
      exact Tree.depth_object_congr ih
  | _ => rfl

theorem depth_toTree_written (v : Value) :
    (v.written int64AsString).toTree.depth = v.toTree.depth := by
  induction v using ind with
  | int64 n => cases int64AsString <;> rfl
  | collection items ih =>
      rw [written_collection, toTree_collection, toTree_collection, List.map_map]
      exact Tree.depth_list_congr ih
  | resource members ih =>
      rw [written_resource, toTree_resource, toTree_resource, List.map_map]
      exact Tree.depth_object_congr ih
  | _ => rw [written_of_stringify rfl]

/-! ## Values without parts -/

theorem settled_integer (n : Int64) : (integer n).Settled int64AsString := by
  unfold integer
  split
  · exact trivial
  · next hwide => exact fun _ => hwide

theorem settled_ofNumber {n : Number} (h : n.InRange) : (ofNumber n).Settled int64AsString := by
  cases n with
  | double d => exact h
  | integer n =>
      simp only [ofNumber]
      split
      · exact settled_integer _
      · have hsize : n.toNat ≤ Number.greatest := by
          have hlt : n < 2 ^ 64 := h.2
          rw [Number.greatest]
          omega
        exact Double.isFinite_ofNat (Nat.le_trans hsize (by decide +kernel))

/-- A value as it is read where there is room for so many containers. -/
structure Accepted (room : Nat) (v : Value) : Prop where
  settled : v.Settled false
  nests : v.toTree.depth ≤ room

theorem accepted_ofScalar {room : Nat} {s : Scalar} (h : ∀ n, s = .number n → n.InRange) :
    (ofScalar s).Accepted room := by
  cases s with
  | null => exact ⟨trivial, Nat.zero_le room⟩
  | bool b => exact ⟨trivial, Nat.zero_le room⟩
  | number n =>
      refine ⟨settled_ofNumber (h n rfl), ?_⟩
      rw [ofScalar, depth_toTree_ofNumber]
      exact Nat.zero_le room
  | string s => exact ⟨nofun, Nat.zero_le room⟩

/-! ## Values -/

variable {room : Nat}

theorem ensures_scanWith {list object : Scan ρ Value} (hlist : Ensures list (Accepted room))
    (hobject : Ensures object (Accepted room)) :
    Ensures (scanWith list object) (Accepted room) := by
  refine (ensures_start.bind ?_).located
  intro s hs
  split
  · next s =>
      refine Ensures.pure (accepted_ofScalar ?_)
      intro n hn
      exact hs n (by rw [hn])
  · exact hlist
  · exact hobject

theorem accepted_collection {items : List Value} (h : ∀ v ∈ items, v.Accepted room) :
    (collection items).Accepted (room + 1) := by
  refine ⟨?_, ?_⟩
  · rw [settled_collection_iff]
    intro v hv
    exact (h v hv).settled
  · rw [toTree_collection, Tree.depth_list_le_iff, List.forall_mem_map]
    intro v hv
    exact (h v hv).nests

theorem accepted_resource {members : List (String × Value)} (hnames : (members.map Prod.fst).Nodup)
    (h : ∀ m ∈ members, m.2.Accepted room) : (resource members).Accepted (room + 1) := by
  refine ⟨settled_resource_iff.2 ⟨hnames, ?_⟩, ?_⟩
  · intro m hm
    exact (h m hm).settled
  · rw [toTree_resource, Tree.depth_object_le_iff, List.forall_mem_map]
    intro m hm
    exact (h m hm).nests

theorem ensures_scanMembers {value : Scan ρ Value} (h : Ensures value (Accepted room)) :
    Ensures (scanMembers value) (Accepted (room + 1)) := by
  have hmembers : Ensures (members (scanMember value) []) fun ms : List (String × Value) =>
      (ms.map Prod.fst).Nodup ∧ ∀ m ∈ ms, m.2.Accepted room := by
    refine ensures_members ⟨List.nodup_nil, fun _ => nofun⟩ ?_
    intro ms name hms
    refine h.member.bind ?_
    intro v hv
    split
    · exact ensures_misfit
    · next hnew =>
        refine Ensures.pure ⟨?_, List.forall_mem_cons.2 ⟨hv, hms.2⟩⟩
        rw [List.map_cons, List.nodup_cons]
        refine ⟨?_, hms.1⟩
        intro hmem
        obtain ⟨m, hm, rfl⟩ := List.mem_map.1 hmem
        exact hnew (List.any_eq_true.2 ⟨m, hm, beq_self_eq_true _⟩)
  refine hmembers.bind ?_
  intro ms hms
  refine Ensures.pure (accepted_resource ?_ ?_)
  · rw [List.map_reverse]
    exact List.nodup_reverse.2 hms.1
  · intro m hm
    exact hms.2 m (List.mem_reverse.1 hm)

theorem ensures_scan : ∀ room : Nat, Ensures (scan room : Scan ρ Value) (Accepted room)
  | 0 => ensures_scanWith ensures_flawNext ensures_flawNext
  | room + 1 => by
      refine ensures_scanWith (Ensures.opening ?_) (Ensures.opening ?_)
      · rintro _ ⟨⟩
        refine (ensures_collect (ensures_scan room)).bind ?_
        intro vs hvs
        exact Ensures.pure (accepted_collection hvs)
      · rintro _ ⟨⟩
        exact ensures_scanMembers (ensures_scan room)

end OData.Value
