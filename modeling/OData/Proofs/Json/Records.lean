/-
# `OData.Proofs.Json.Records` — readers of values whose shape is known

A reader of a record need not judge: the value in front of it was written for it, and all there is
to say is what is read.  `ReadsAs scan t a` says so of a value, whatever text it has; `ReadsInside scan
ms a` of the members of an object, up to its closing brace.

Members are read one behind the other, each changing what was read before it.  `ReadsMembers step s
ms s'` keeps the states between them, one `ReadsMemberAs` for each member, so that what is shown of a
record is a chain of its fields; `ReadsMembers.run` is the loop over them.  A member that has been left out
leaves its field empty (`ReadsMembers.field_filter`).
-/
import OData.Json.Scan.Record
import OData.Proofs.Json.Compact
import OData.Proofs.Json.Containers

namespace OData.Json

open Scan

/-! ## Trees that their text says -/

namespace Tree

/-- The compact text says this tree: there is a text for every part of it, and each double is read
back from its own. -/
structure Faithful (t : Tree) : Prop where
  printable : t.Everywhere IsPrintable
  doubles : t.DoublesReadBack

variable {t : Tree} {items : List Tree} {members : List (String × Tree)}

theorem Faithful.jsonText (h : t.Faithful) : JsonText (Text.Utf8.encode t.compact) t := by
  have htext := jsonText_compact h.printable
  rwa [reread_eq h.doubles] at htext

theorem faithful_null : null.Faithful := ⟨trivial, nofun⟩

theorem faithful_bool (b : Bool) : (bool b).Faithful := ⟨trivial, nofun⟩

theorem faithful_string (s : String) : (string s).Faithful := ⟨trivial, nofun⟩

theorem faithful_integer {n : Int} (hlow : -(2 ^ 63) ≤ n) (hhigh : n < 2 ^ 64) :
    (integer n).Faithful :=
  ⟨⟨hlow, hhigh⟩, nofun⟩

theorem faithful_list_iff : (list items).Faithful ↔ ∀ t ∈ items, t.Faithful := by
  constructor
  · intro h t ht
    exact ⟨(everywhere_list_iff.1 h.printable).2 t ht, doublesReadBack_list_iff.1 h.doubles t ht⟩
  · intro h
    exact ⟨everywhere_list_iff.2 ⟨trivial, fun t ht => (h t ht).printable⟩,
      doublesReadBack_list_iff.2 fun t ht => (h t ht).doubles⟩

theorem faithful_object_iff : (object members).Faithful ↔ ∀ m ∈ members, m.2.Faithful := by
  constructor
  · intro h m hm
    exact ⟨(everywhere_object_iff.1 h.printable).2 m hm, doublesReadBack_object_iff.1 h.doubles m hm⟩
  · intro h
    exact ⟨everywhere_object_iff.2 ⟨trivial, fun m hm => (h m hm).printable⟩,
      doublesReadBack_object_iff.2 fun m hm => (h m hm).doubles⟩

end Tree

namespace Scan

variable {ρ : Type} {α β σ κ : Type} {t : Tree} {a : α} {b : β} {scan : Scan ρ α}

/-! ## Values -/

/-- Whatever text of `t` stands ahead, `scan` reads it as `a`. -/
def ReadsAs (scan : Scan ρ α) (t : Tree) (a : α) : Prop :=
  ∀ ⦃i o : List UInt8⦄, t.Ahead i o → Yields scan i o (· = a) False

/-- A text of `t`, blanks around it included, is read as `a`. -/
theorem ReadsAs.run {bytes : List UInt8} (h : ReadsAs scan t a) (ht : JsonText bytes t) :
    run scan bytes = .ok a := by
  obtain ⟨gap, hgap, hahead⟩ := jsonText_iff_ahead.1 ht
  have hgives := (h hahead).run hgap
  cases hrun : Scan.run scan bytes with
  | ok read =>
      rw [hrun] at hgives
      exact congrArg Except.ok hgives
  | error fault =>
      rw [hrun] at hgives
      exact hgives.1.elim

/-- What is done with the value that was read changes nothing ahead. -/
theorem ReadsAs.bind {k : α → Scan ρ β} (h : ReadsAs scan t a) (hk : k a = pure b) :
    ReadsAs (scan >>= k) t b := by
  intro i o hi
  refine (h hi).bind ?_ id
  rintro _ rfl
  rw [hk]
  exact yields_pure rfl

theorem ReadsAs.located (h : ReadsAs scan t a) : ReadsAs (located scan) t a :=
  fun _ _ hi => (h hi).located

theorem readsAs_string (expected s : String) :
    ReadsAs (ρ := ρ) (string expected) (.string s) s := by
  intro i o hi
  exact (yields_string hi).mono (fun _ h => (Option.some.inj h).symm) nofun

theorem readsAs_bool (b : Bool) : ReadsAs (ρ := ρ) Scan.bool (.bool b) b := by
  intro i o hi
  refine (Yields.of_start hi ?_).located
  rintro _ rfl
  exact yields_pure rfl

theorem readsAs_integer {least greatest n : Int} {expected : String} (hleast : least ≤ n)
    (hgreatest : n ≤ greatest) :
    ReadsAs (ρ := ρ) (Scan.integer least greatest expected) (.integer n) n := by
  intro i o hi
  refine (Yields.of_start hi ?_).located
  rintro _ rfl
  show Yields (if least ≤ n ∧ n ≤ greatest then _ else _) _ _ _ _
  rw [if_pos ⟨hleast, hgreatest⟩]
  exact yields_pure rfl

theorem readsAs_optional_null : ReadsAs (optional scan) .null none := by
  rintro i o ⟨gap, text, hgap, rfl, -, rfl⟩
  refine (passes_space_cons hgap rfl).bind_yields ?_
  exact ((passes_wordFrom (by decide) o).bind (Passes.pure none o)).yields rfl

theorem ReadsAs.optional (h : ReadsAs scan t a) (hnull : t ≠ .null) :
    ReadsAs (optional scan) t (some a) := by
  rintro i o ⟨gap, text, hgap, htext, ho, rfl⟩
  obtain ⟨b, more, rfl, hspace, -, hb⟩ := head_of_spelledBy htext
  refine (passes_space_cons hgap hspace).bind_yields ?_
  split
  · next heq => exact absurd (Option.some.inj heq) (hb hnull)
  · refine (h ⟨[], _, blank_nil, htext, ho, rfl⟩).bind ?_ id
    rintro _ rfl
    exact yields_pure rfl

/-! ## Lists -/

section Lists

variable {ι : Type} {xs : List ι} {tree : ι → Tree} {f : ι → α}

theorem collect_readsAs {i o : List UInt8} (h : ∀ x ∈ xs, ReadsAs scan (tree x) (f x))
    (hi : Tree.ItemsAhead (xs.map tree) i o) :
    Yields (collect scan) i (Byte.closeBracket :: o) (· = xs.map f) False := by
  -- What has been read is known by its number, since trees of different things may be the same.
  have hcollect : Yields (collect scan) i (Byte.closeBracket :: o)
      (fun as => as = (xs.take (xs.map tree).length).map f) False := by
    refine yields_collect (fun before as => as = (xs.take before.length).map f) hi rfl ?_
    rintro before t after _ m o' hwhole rfl hm
    obtain ⟨done, left, rfl, rfl, hleft⟩ := List.map_eq_append_iff.1 hwhole
    obtain ⟨x, left, rfl, rfl, -⟩ := List.map_eq_cons_iff.1 hleft
    have hx : x ∈ done ++ x :: left := List.mem_append_right done List.mem_cons_self
    refine (h x hx hm).mono ?_ id
    rintro _ rfl
    simp [List.take_append]
  rwa [List.length_map, List.take_length] at hcollect

/-- A list is read if there is room for its items. -/
theorem readsAs_listOf {item : Nat → Scan ρ α} {room : Nat}
    (hdepth : (Tree.list (xs.map tree)).depth ≤ room)
    (h : ∀ x ∈ xs, ∀ less, (tree x).depth ≤ less → ReadsAs (item less) (tree x) (f x)) :
    ReadsAs (listOf item room) (.list (xs.map tree)) (xs.map f) := by
  obtain ⟨less, rfl⟩ := Tree.exists_room_of_list hdepth
  rw [Tree.depth_list_le_iff, List.forall_mem_map] at hdepth
  intro i o hi
  refine (Yields.of_start hi ?_).located
  intro m hm
  refine Yields.listOpening hm ?_
  intro i hi
  exact collect_readsAs (fun x hx => h x hx less (hdepth x hx)) hi

/-- A list whose items are read as they were. -/
theorem readsAs_listOf_self {xs : List α} {tree : α → Tree} {item : Nat → Scan ρ α} {room : Nat}
    (hdepth : (Tree.list (xs.map tree)).depth ≤ room)
    (h : ∀ x ∈ xs, ∀ less, (tree x).depth ≤ less → ReadsAs (item less) (tree x) x) :
    ReadsAs (listOf item room) (.list (xs.map tree)) xs := by
  have hlist := readsAs_listOf hdepth h
  rwa [List.map_id'] at hlist

end Lists

/-! ## Members -/

section Members

variable {name : String} {s s' s'' : σ} {ms ms' : List (String × Tree)}
  {step : σ → String → Scan ρ σ}

/-- Behind its name, `scan` reads a member whose value is `t` as `a`. -/
def ReadsMemberAs (scan : Scan ρ α) (t : Tree) (a : α) : Prop :=
  ∀ ⦃i o : List UInt8⦄, t.BehindName i o → Yields scan i o (· = a) False

/-- A field that has not been read before is read, and what `put` makes of it is the next state. -/
theorem ReadsAs.field {put : Option α → σ} (h : ReadsAs scan t a) :
    ReadsMemberAs (do let value ← field name none scan; pure (put value)) t (put (some a)) := by
  intro i o hi
  have hvalue : Yields (Scan.field name none scan) i o (· = some a) False := by
    refine (Yields.member hi fun m hm => h hm).bind ?_ id
    rintro _ rfl
    exact yields_pure rfl
  refine hvalue.bind ?_ id
  rintro _ rfl
  exact yields_pure rfl

/-- The members `ms` lead a reader of members from one state to another. -/
inductive ReadsMembers (step : σ → String → Scan ρ σ) : σ → List (String × Tree) → σ → Prop
  | nil (s : σ) : ReadsMembers step s [] s
  | cons {s s' s'' : σ} {name : String} {t : Tree} {ms : List (String × Tree)} :
      ReadsMemberAs (step s name) t s' → ReadsMembers step s' ms s'' →
        ReadsMembers step s ((name, t) :: ms) s''

theorem ReadsMembers.append (h : ReadsMembers step s ms s') (h' : ReadsMembers step s' ms' s'') :
    ReadsMembers step s (ms ++ ms') s'' := by
  induction h with
  | nil s => exact h'
  | cons hmember _ ih => exact .cons hmember (ih h')

/-- A field that has not been read before is read unless it has been left out. -/
theorem ReadsMembers.field_filter {keep : String × Tree → Bool} (put : Option α → σ)
    (hstep : step s name = do
      let value ← Scan.field name none scan
      pure (put value))
    (hnone : put none = s) (h : keep (name, t) = true → ReadsAs scan t a)
    (hrest : ReadsMembers step (put (if keep (name, t) then some a else none)) (ms.filter keep) s') :
    ReadsMembers step s (((name, t) :: ms).filter keep) s' := by
  cases hkeep : keep (name, t) with
  | true =>
      rw [hkeep] at hrest
      rw [List.filter_cons_of_pos hkeep]
      refine .cons ?_ hrest
      rw [hstep]
      exact (h hkeep).field
  | false =>
      rw [hkeep] at hrest
      rw [List.filter_cons_of_neg (Bool.eq_false_iff.1 hkeep)]
      exact hnone ▸ hrest

/-- The members of an object lead through its loop as they do one behind the other. -/
theorem ReadsMembers.run {i o : List UInt8} (h : ReadsMembers step s ms s')
    (hi : Tree.MembersAhead ms i o) :
    Yields (members step s) i (Byte.closeBrace :: o) (· = s') False := by
  -- The invariant looks ahead: from the state reached so far, what is left leads to `s'`.
  have hloop : Yields (members step s) i (Byte.closeBrace :: o)
      (fun last => ∀ left, ms = ms ++ left → ReadsMembers step last left s') False := by
    refine yields_members (fun before current => ∀ left, ms = before ++ left →
      ReadsMembers step current left s') hi ?_ ?_
    · rintro left rfl
      exact h
    · intro before name t after current m o' hwhole hcurrent hm
      cases hcurrent _ hwhole with
      | cons hmember hrest =>
          refine (hmember hm).mono ?_ id
          rintro _ rfl left hleft
          rw [hwhole, List.append_assoc] at hleft
          obtain rfl : after = left := (List.cons.inj (List.append_cancel_left hleft)).2
          exact hrest
  refine hloop.mono ?_ id
  intro last hlast
  cases hlast [] (List.append_nil ms).symm
  rfl

/-- Up to the closing brace, `scan` reads the members of an object as `a`. -/
def ReadsInside (scan : Scan ρ α) (ms : List (String × Tree)) (a : α) : Prop :=
  ∀ ⦃i o : List UInt8⦄, Tree.MembersAhead ms i o →
    Yields scan i (Byte.closeBrace :: o) (· = a) False

/-- Members that lead to a state from which the record can be made. -/
theorem ReadsMembers.inside {finish : σ → Scan ρ α} (h : ReadsMembers step s ms s')
    (hfinish : finish s' = pure a) : ReadsInside (members step s >>= finish) ms a := by
  intro i o hi
  refine (h.run hi).bind ?_ id
  rintro _ rfl
  rw [hfinish]
  exact yields_pure rfl

/-- An object is read as a record if there is room for its members. -/
theorem readsAs_record {expected : String} {fields items : Nat → Scan ρ α} {room : Nat}
    (hdepth : (Tree.object ms).depth ≤ room)
    (h : ∀ less, (∀ m ∈ ms, m.2.depth ≤ less) → ReadsInside (fields less) ms a) :
    ReadsAs (record expected fields items room) (.object ms) a := by
  obtain ⟨less, rfl⟩ := Tree.exists_room_of_object hdepth
  rw [Tree.depth_object_le_iff] at hdepth
  intro i o hi
  refine (Yields.of_start hi ?_).located
  intro m hm
  refine Yields.objectOpening hm ?_
  intro i hi
  exact h less hdepth hi

end Members

/-! ## Variants -/

section Variants

variable {known : List (String × κ)} {bare content : κ → Scan ρ α} {name : String} {k : κ}

theorem readsAs_variantName (h : known.lookup name = some k) :
    ReadsAs (ρ := ρ) (variantName known) (.string name) k := by
  refine ((readsAs_string "a string" name).bind ?_).located
  rw [h]

/-- A variant that is a name. -/
theorem readsAs_variant_bare {room : Nat} (h : known.lookup name = some k) (hbare : bare k = pure a) :
    ReadsAs (variant known bare content room) (.string name) a := by
  rintro i o ⟨gap, text, hgap, htext, ho, rfl⟩
  obtain ⟨inside, hinside, rfl⟩ := htext
  refine (passes_space_cons hgap rfl).bind_yields ?_
  exact (readsAs_variantName h).bind hbare ⟨[], _, blank_nil, ⟨inside, hinside, rfl⟩, ho, rfl⟩

/-- A variant that is an object with a name for its only member. -/
theorem readsAs_variant_content {room : Nat} (h : known.lookup name = some k)
    (hcontent : ReadsAs (content k) t a) :
    ReadsAs (variant known bare content (room + 1)) (.object [(name, t)]) a := by
  rintro i o ⟨gap, text, hgap, htext, ho, rfl⟩
  obtain ⟨inside, ⟨lead, title, gap₁, gap₂, text, more, hlead, htitle, hgap₁, hgap₂, htext, hmore,
    rfl⟩, rfl⟩ := htext
  have hname : (Tree.string name).Ahead
      (title ++ (gap₁ ++ Byte.colon :: (gap₂ ++ (text ++ (more ++ Byte.closeBrace :: o)))))
      (gap₁ ++ Byte.colon :: (gap₂ ++ (text ++ (more ++ Byte.closeBrace :: o)))) :=
    ⟨[], title, blank_nil, htitle, halts_end rfl hgap₁, rfl⟩
  have hvalue : t.Ahead (gap₂ ++ (text ++ (more ++ Byte.closeBrace :: o)))
      (more ++ Byte.closeBrace :: o) :=
    ⟨gap₂, text, hgap₂, htext, halts_end rfl hmore, rfl⟩
  obtain ⟨inside, hinside, rfl⟩ := htitle
  simp only [List.cons_append, List.append_assoc, List.nil_append] at hname ⊢
  refine (passes_space_cons hgap rfl).bind_yields ((passes_advance _ _).bind_yields ?_)
  refine (passes_space_cons hlead rfl).bind_yields ((readsAs_variantName h hname).bind ?_ id)
  rintro _ rfl
  refine (passes_colon hgap₁).bind_yields ((hcontent hvalue).bind ?_ id)
  rintro _ rfl
  refine (passes_space_cons hmore rfl).bind_yields ((passes_advance _ _).bind_yields ?_)
  exact yields_pure rfl

end Variants

end Scan

end OData.Json
