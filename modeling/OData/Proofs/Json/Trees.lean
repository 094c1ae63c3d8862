/-
# `OData.Proofs.Json.Trees` — induction on trees

The parts of a container are reached through lists, so the recursor of `Tree` speaks of three types
at once.  `Tree.ind` is the one induction that proofs use: a statement about a container may assume
itself of every part.

What holds of a tree and of everything inside it is `Everywhere`; how deep containers nest in it is
`depth`; `mapDoubles` changes its doubles and nothing else.
-/
import Mathlib
import OData.Json.Tree

namespace OData.Json.Tree

/-- Induction on a tree, the parts of a container taken together. -/
theorem ind {motive : Tree → Prop} (null : motive null) (bool : ∀ b, motive (bool b))
    (integer : ∀ n, motive (integer n)) (double : ∀ d, motive (double d))
    (string : ∀ s, motive (string s))
    (list : ∀ items, (∀ t ∈ items, motive t) → motive (list items))
    (object : ∀ members, (∀ m ∈ members, motive m.2) → motive (object members)) (t : Tree) :
    motive t :=
  @Tree.rec motive (fun items => ∀ t ∈ items, motive t)
    (fun members => ∀ m ∈ members, motive m.2) (fun m => motive m.2)
    null bool integer double string list object
    nofun (fun _ _ hhead htail => List.forall_mem_cons.2 ⟨hhead, htail⟩)
    nofun (fun _ _ hhead htail => List.forall_mem_cons.2 ⟨hhead, htail⟩)
    (fun _ _ h => h) t

/-! ## Depth -/

mutual

/-- How many containers nest in a value. -/
def depth : Tree → Nat
  | list items => depthItems items + 1
  | object members => depthMembers members + 1
  | _ => 0

@[inherit_doc depth]
def depthItems : List Tree → Nat
  | [] => 0
  | item :: items => max item.depth (depthItems items)

@[inherit_doc depth]
def depthMembers : List (String × Tree) → Nat
  | [] => 0
  | (_, value) :: members => max value.depth (depthMembers members)

end

theorem depthItems_le_iff {n : Nat} :
    ∀ {items : List Tree}, depthItems items ≤ n ↔ ∀ t ∈ items, t.depth ≤ n
  | [] => by simp [depthItems]
  | item :: items => by
      simp only [depthItems, Nat.max_le, List.forall_mem_cons]
      exact and_congr Iff.rfl depthItems_le_iff

theorem depthMembers_le_iff {n : Nat} :
    ∀ {members : List (String × Tree)}, depthMembers members ≤ n ↔ ∀ m ∈ members, m.2.depth ≤ n
  | [] => by simp [depthMembers]
  | (_, value) :: members => by
      simp only [depthMembers, Nat.max_le, List.forall_mem_cons]
      exact and_congr Iff.rfl depthMembers_le_iff

theorem depth_list_le_iff {n : Nat} {items : List Tree} :
    (list items).depth ≤ n + 1 ↔ ∀ t ∈ items, t.depth ≤ n := by
  simp only [depth, Nat.add_le_add_iff_right, depthItems_le_iff]

theorem depth_object_le_iff {n : Nat} {members : List (String × Tree)} :
    (object members).depth ≤ n + 1 ↔ ∀ m ∈ members, m.2.depth ≤ n := by
  simp only [depth, Nat.add_le_add_iff_right, depthMembers_le_iff]

/-- Where there is room for a list, there is room for one container. -/
theorem exists_room_of_list {room : Nat} {items : List Tree} (h : (list items).depth ≤ room) :
    ∃ less, room = less + 1 := by
  cases room with
  | zero => exact absurd h (Nat.not_succ_le_zero _)
  | succ less => exact ⟨less, rfl⟩

@[inherit_doc exists_room_of_list]
theorem exists_room_of_object {room : Nat} {members : List (String × Tree)}
    (h : (object members).depth ≤ room) : ∃ less, room = less + 1 := by
  cases room with
  | zero => exact absurd h (Nat.not_succ_le_zero _)
  | succ less => exact ⟨less, rfl⟩

section Congruence

variable {α : Type} {as : List α}

/-- The depth of a container is a matter of the depths of its parts. -/
theorem depth_list_congr {f g : α → Tree} (h : ∀ a ∈ as, (f a).depth = (g a).depth) :
    (list (as.map f)).depth = (list (as.map g)).depth := by
  refine eq_of_forall_ge_iff ?_
  intro n
  cases n with
  | zero => simp [depth]
  | succ n =>
      rw [depth_list_le_iff, depth_list_le_iff, List.forall_mem_map, List.forall_mem_map]
      exact forall₂_congr fun a ha => by rw [h a ha]

@[inherit_doc depth_list_congr]
theorem depth_object_congr {f g : α → String × Tree}
    (h : ∀ a ∈ as, (f a).2.depth = (g a).2.depth) :
    (object (as.map f)).depth = (object (as.map g)).depth := by
  refine eq_of_forall_ge_iff ?_
  intro n
  cases n with
  | zero => simp [depth]
  | succ n =>
      rw [depth_object_le_iff, depth_object_le_iff, List.forall_mem_map, List.forall_mem_map]
      exact forall₂_congr fun a ha => by rw [h a ha]

end Congruence

/-! ## What holds everywhere in a tree -/

mutual

/-- `p` holds of the tree and of every tree inside it. -/
def Everywhere (p : Tree → Prop) : Tree → Prop
  | list items => p (list items) ∧ EverywhereItems p items
  | object members => p (object members) ∧ EverywhereMembers p members
  | t => p t

@[inherit_doc Everywhere]
def EverywhereItems (p : Tree → Prop) : List Tree → Prop
  | [] => True
  | item :: items => item.Everywhere p ∧ EverywhereItems p items

@[inherit_doc Everywhere]
def EverywhereMembers (p : Tree → Prop) : List (String × Tree) → Prop
  | [] => True
  | (_, value) :: members => value.Everywhere p ∧ EverywhereMembers p members

end

variable {p : Tree → Prop}

theorem everywhereItems_iff :
    ∀ {items : List Tree}, EverywhereItems p items ↔ ∀ t ∈ items, t.Everywhere p
  | [] => by simp [EverywhereItems]
  | item :: items => by
      simp only [EverywhereItems, List.forall_mem_cons]
      exact and_congr Iff.rfl everywhereItems_iff

theorem everywhereMembers_iff :
    ∀ {members : List (String × Tree)},
      EverywhereMembers p members ↔ ∀ m ∈ members, m.2.Everywhere p
  | [] => by simp [EverywhereMembers]
  | (_, value) :: members => by
      simp only [EverywhereMembers, List.forall_mem_cons]
      exact and_congr Iff.rfl everywhereMembers_iff

theorem everywhere_list_iff {items : List Tree} :
    (list items).Everywhere p ↔ p (list items) ∧ ∀ t ∈ items, t.Everywhere p := by
  rw [Everywhere, everywhereItems_iff]

theorem everywhere_object_iff {members : List (String × Tree)} :
    (object members).Everywhere p ↔ p (object members) ∧ ∀ m ∈ members, m.2.Everywhere p := by
  rw [Everywhere, everywhereMembers_iff]

/-- The names of the members of an object; other values have none. -/
def names : Tree → List String
  | object members => members.map Prod.fst
  | _ => []

/-- No object in the tree repeats a name. -/
def DistinctNames (t : Tree) : Prop := t.Everywhere fun part => part.names.Nodup

theorem distinctNames_list_iff {items : List Tree} :
    (list items).DistinctNames ↔ ∀ t ∈ items, t.DistinctNames := by
  simp [DistinctNames, everywhere_list_iff, names]

theorem distinctNames_object_iff {members : List (String × Tree)} :
    (object members).DistinctNames ↔
      (members.map Prod.fst).Nodup ∧ ∀ m ∈ members, m.2.DistinctNames := by
  simp [DistinctNames, everywhere_object_iff, names]

/-! ## Changing doubles -/

mutual

/-- The tree with every double changed by `f`. -/
def mapDoubles (f : Double → Double) : Tree → Tree
  | double d => double (f d)
  | list items => list (mapItems f items)
  | object members => object (mapMembers f members)
  | t => t

@[inherit_doc mapDoubles]
def mapItems (f : Double → Double) : List Tree → List Tree
  | [] => []
  | item :: items => item.mapDoubles f :: mapItems f items

@[inherit_doc mapDoubles]
def mapMembers (f : Double → Double) : List (String × Tree) → List (String × Tree)
  | [] => []
  | (name, value) :: members => (name, value.mapDoubles f) :: mapMembers f members

end

variable {f : Double → Double}

theorem mapItems_eq_map : ∀ items : List Tree, mapItems f items = items.map (mapDoubles f)
  | [] => rfl
  | item :: items => by rw [mapItems, mapItems_eq_map items, List.map_cons]

theorem mapMembers_eq_map : ∀ members : List (String × Tree),
    mapMembers f members = members.map fun m => (m.1, m.2.mapDoubles f)
  | [] => rfl
  | (name, value) :: members => by rw [mapMembers, mapMembers_eq_map members, List.map_cons]

theorem mapDoubles_list (items : List Tree) :
    (list items).mapDoubles f = list (items.map (mapDoubles f)) := by
  rw [mapDoubles, mapItems_eq_map]

theorem mapDoubles_object (members : List (String × Tree)) :
    (object members).mapDoubles f = object (members.map fun m => (m.1, m.2.mapDoubles f)) := by
  rw [mapDoubles, mapMembers_eq_map]

end OData.Json.Tree
