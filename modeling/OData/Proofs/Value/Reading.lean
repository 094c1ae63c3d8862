/-
# `OData.Proofs.Value.Reading` — every JSON value is a protocol value

`Value.ofTree` says which one.  The reader yields it exactly if no object of the tree, at any
depth, repeats the name of a member (`Tree.DistinctNames`); there is no other way for a value to be
turned down.  How deep the reader may go is a matter of room: `Tree.depth` is what it needs.

Where the text of a value has a flaw, there is no tree; if the flaw is at its start, that is where the
reader stops (`stops_scan`).
-/
import OData.Proofs.Json.Stopping
import OData.Value.Scan

namespace OData

open Json Json.Scan

namespace Value

mutual

/-- The value that a tree is read as. -/
def ofTree : Tree → Value
  | .null => null
  | .bool b => boolean b
  | .integer n => ofNumber (.integer n)
  | .double d => double d
  | .string s => string s
  | .list items => collection (ofTrees items)
  | .object members => resource (ofMemberTrees members)

@[inherit_doc ofTree]
def ofTrees : List Tree → List Value
  | [] => []
  | item :: items => ofTree item :: ofTrees items

@[inherit_doc ofTree]
def ofMemberTrees : List (String × Tree) → List (String × Value)
  | [] => []
  | (name, value) :: members => (name, ofTree value) :: ofMemberTrees members

end

theorem ofTrees_eq_map : ∀ items : List Tree, ofTrees items = items.map ofTree
  | [] => rfl
  | item :: items => by rw [ofTrees, ofTrees_eq_map items, List.map_cons]

theorem ofMemberTrees_eq_map : ∀ members : List (String × Tree),
    ofMemberTrees members = members.map fun m => (m.1, ofTree m.2)
  | [] => rfl
  | (name, value) :: members => by
      rw [ofMemberTrees, ofMemberTrees_eq_map members, List.map_cons]

variable {ρ : Type} {i o : List UInt8}

/-- What a reader of `t` may do: yield its value if names are distinct in it, and fail if they are not. -/
abbrev Reads (scan : Scan ρ Value) (t : Tree) (i o : List UInt8) : Prop :=
  Yields scan i o (fun v => t.DistinctNames ∧ v = ofTree t) (¬ t.DistinctNames)

/-- Readers for the two kinds of containers are enough for every value. -/
theorem reads_scanWith {t : Tree} {list object : Scan ρ Value} (h : t.Ahead i o)
    (hlist : ∀ items m, t = .list items → t.Opened m o → Reads list t m o)
    (hobject : ∀ members m, t = .object members → t.Opened m o → Reads object t m o) :
    Reads (scanWith list object) t i o := by
  refine (Yields.of_start h ?_).located
  intro m hm
  cases t with
  | list items => exact hlist items m rfl hm
  | object members => exact hobject members m rfl hm
  | _ =>
      obtain rfl : m = o := hm
      exact yields_pure ⟨List.nodup_nil, rfl⟩

/-- A member whose name has not been read before goes in front of the others. -/
theorem yields_scanMember {value : Scan ρ Value} {t : Tree} {name : String}
    {before after whole : List (String × Tree)} {read : List (String × Value)}
    (hwhole : whole = before ++ (name, t) :: after)
    (hnames : (before.map Prod.fst).Nodup) (hdistinct : ∀ m ∈ before, m.2.DistinctNames)
    (hread : read.reverse = ofMemberTrees before) (hm : t.BehindName i o)
    (hvalue : ∀ m, t.Ahead m o → Reads value t m o) :
    Yields (scanMember value read name) i o
      (fun read => ((before ++ [(name, t)]).map Prod.fst).Nodup ∧
        (∀ m ∈ before ++ [(name, t)], m.2.DistinctNames) ∧
        read.reverse = ofMemberTrees (before ++ [(name, t)]))
      (¬ (Tree.object whole).DistinctNames) := by
  have hmem : (name, t) ∈ whole := by simp [hwhole]
  refine (Yields.member hm hvalue).bind ?_ ?_
  · rintro _ ⟨ht, rfl⟩
    -- The reader looks for the name among the values that it holds, which are in reverse.
    have hseen : (read.any fun m => m.1 == name) = true ↔ name ∈ before.map Prod.fst := by
      rw [← List.any_reverse, hread, ofMemberTrees_eq_map]
      simp
    split
    · next hdup =>
        refine yields_misfit ?_
        intro hall
        have hnodup := (Tree.distinctNames_object_iff.1 hall).1
        rw [hwhole, List.map_append, List.map_cons, List.nodup_append] at hnodup
        exact hnodup.2.2 _ (hseen.1 hdup) _ (List.mem_cons_self) rfl
    · next hnew =>
        rw [hseen] at hnew
        refine yields_pure ⟨?_, ?_, ?_⟩
        · rw [List.map_append, List.nodup_append_comm]
          exact List.nodup_cons.2 ⟨hnew, hnames⟩
        · exact List.forall_mem_append.2 ⟨hdistinct, List.forall_mem_singleton.2 ht⟩
        · simp [hread, ofMemberTrees_eq_map]
  · intro hbad hall
    exact hbad ((Tree.distinctNames_object_iff.1 hall).2 _ hmem)

/-- A list is read if its items are, with less room. -/
theorem reads_items {value : Scan ρ Value} {items : List Tree} (hi : Tree.ItemsAhead items i o)
    (hvalue : ∀ t ∈ items, ∀ {i o : List UInt8}, t.Ahead i o → Reads value t i o) :
    Reads (return collection (← collect value)) (.list items) i (Byte.closeBracket :: o) := by
  have hcollect : Yields (collect value) i (Byte.closeBracket :: o)
      (fun vs => (∀ t ∈ items, t.DistinctNames) ∧ vs = ofTrees items)
      (¬ (Tree.list items).DistinctNames) := by
    refine yields_collect (fun before vs => (∀ t ∈ before, t.DistinctNames) ∧
      vs = ofTrees before) hi ⟨nofun, rfl⟩ ?_
    rintro before t after vs m o hwhole ⟨hbefore, rfl⟩ hm
    have hmem : t ∈ items := by simp [hwhole]
    refine (hvalue t hmem hm).mono ?_ ?_
    · rintro _ ⟨ht, rfl⟩
      refine ⟨?_, by simp [ofTrees_eq_map]⟩
      simp only [List.forall_mem_append, List.forall_mem_singleton]
      exact ⟨hbefore, ht⟩
    · intro hbad hall
      exact hbad (Tree.distinctNames_list_iff.1 hall t hmem)
  refine hcollect.bind ?_ id
  intro vs hvs
  exact yields_pure ⟨Tree.distinctNames_list_iff.2 hvs.1, by rw [hvs.2, ofTree]⟩

/-- An object is read if its members are, with less room. -/
theorem reads_members {value : Scan ρ Value} {members : List (String × Tree)}
    (hi : Tree.MembersAhead members i o)
    (hvalue : ∀ m ∈ members, ∀ {i o : List UInt8}, m.2.Ahead i o → Reads value m.2 i o) :
    Reads (scanMembers value) (.object members) i (Byte.closeBrace :: o) := by
  have hmembers : Yields (Scan.members (scanMember value) []) i (Byte.closeBrace :: o)
      (fun read => (members.map Prod.fst).Nodup ∧ (∀ m ∈ members, m.2.DistinctNames) ∧
        read.reverse = ofMemberTrees members)
      (¬ (Tree.object members).DistinctNames) := by
    refine yields_members (fun before (read : List (String × Value)) =>
      (before.map Prod.fst).Nodup ∧ (∀ m ∈ before, m.2.DistinctNames) ∧
        read.reverse = ofMemberTrees before) hi ⟨List.nodup_nil, nofun, rfl⟩ ?_
    rintro before name t after read m o hwhole ⟨hnames, hdistinct, hread⟩ hm
    refine yields_scanMember hwhole hnames hdistinct hread hm ?_
    intro m hm
    have hmem : (name, t) ∈ members := by simp [hwhole]
    exact hvalue _ hmem hm
  refine hmembers.bind ?_ id
  intro read hread
  exact yields_pure ⟨Tree.distinctNames_object_iff.2 ⟨hread.1, hread.2.1⟩, by rw [hread.2.2, ofTree]⟩

/-- With enough room, a value is read exactly if no object in it repeats a name. -/
theorem reads_scan : ∀ {room : Nat} {t : Tree} {i o : List UInt8}, t.depth ≤ room → t.Ahead i o →
    Reads (ρ := ρ) (scan room) t i o
  | 0, t, i, o, hdepth, h => by
      refine reads_scanWith h ?_ ?_
      · rintro items m rfl _
        exact absurd hdepth (Nat.not_succ_le_zero _)
      · rintro members m rfl _
        exact absurd hdepth (Nat.not_succ_le_zero _)
  | room + 1, t, i, o, hdepth, h => by
      refine reads_scanWith h ?_ ?_
      · rintro items m rfl hm
        refine Yields.listOpening hm ?_
        intro i hi
        refine reads_items hi ?_
        intro t ht i o h
        exact reads_scan (Tree.depth_list_le_iff.1 hdepth t ht) h
      · rintro members m rfl hm
        refine Yields.objectOpening hm ?_
        intro i hi
        refine reads_members hi ?_
        intro m hm i o h
        exact reads_scan (Tree.depth_object_le_iff.1 hdepth m hm) h

/-- A flaw in a value without parts stops the reader of the value. -/
theorem stops_scan {flaw : Flaw} (h : Stops (ρ := ρ) flaw start i) :
    ∀ room, Stops (ρ := ρ) flaw (scan room) i
  | 0 => (h.bind _).located
  | _ + 1 => (h.bind _).located

end Value

end OData
