/-
# `OData.Proofs.Value.Equality` — which values are equal

Equality of values is not identity, on two counts: integers compare by their number, so that a value has
as many equals as its integers have widths, and a double that is not a number equals nothing, itself
included.  What is left is a partial equivalence (`eq_symm`, `eq_trans`, `eq_self_iff`), and giving an
integer inside a value its other width (`Rewidened`) does not change what the value is equal to.

Leaving doubles aside, two values are equal exactly if they are written alike.  That equal values have
one text is plain, since an integer is written without its width.  The other half rests on the grammar:
a text is JSON for one tree at most, and the tree is all that comparing looks at
(`eq_iff_toTree_eq`).  Doubles are left out because both halves fail for them: two that are not numbers
share a text with each other and with a string, and the zeros have two texts.

Each proof is by induction on the first value; `eq_collection_iff` and its siblings say what can be equal
to it.
-/
import OData.Proofs.Json.Unambiguous
import OData.Proofs.Value.Trees

namespace OData.Value

open Json

variable {a b c v w : Value}

/-! ## Lists related item by item

What is assumed of the relation is assumed only at items of the lists, which is where an induction
hypothesis has it. -/

theorem forall₂_congr_mem {α β : Type} {R S : α → β → Prop} : ∀ {as : List α} {bs : List β},
    (∀ a ∈ as, ∀ b ∈ bs, (R a b ↔ S a b)) → (List.Forall₂ R as bs ↔ List.Forall₂ S as bs)
  | [], bs, _ => by rw [List.forall₂_nil_left_iff, List.forall₂_nil_left_iff]
  | a :: as, [], _ => by rw [List.forall₂_nil_right_iff, List.forall₂_nil_right_iff]
  | a :: as, b :: bs, h => by
      rw [List.forall₂_cons, List.forall₂_cons]
      exact and_congr (h a List.mem_cons_self b List.mem_cons_self)
        (forall₂_congr_mem fun a ha b hb =>
          h a (List.mem_cons_of_mem _ ha) b (List.mem_cons_of_mem _ hb))

theorem forall₂_swap_mem {α β : Type} {R : α → β → Prop} {S : β → α → Prop} {as : List α}
    {bs : List β} (hswap : ∀ a ∈ as, ∀ b, R a b → S b a) (h : List.Forall₂ R as bs) :
    List.Forall₂ S bs as := by
  induction h with
  | nil => exact .nil
  | cons hab _ ih =>
      rw [List.forall_mem_cons] at hswap
      exact .cons (hswap.1 _ hab) (ih hswap.2)

theorem forall₂_trans_mem {α β γ : Type} {R : α → β → Prop} {S : β → γ → Prop} {T : α → γ → Prop}
    {as : List α} {bs : List β} {cs : List γ} (htrans : ∀ a ∈ as, ∀ b c, R a b → S b c → T a c)
    (h : List.Forall₂ R as bs) (h' : List.Forall₂ S bs cs) : List.Forall₂ T as cs := by
  induction h generalizing cs with
  | nil =>
      cases h'
      exact .nil
  | cons hab _ ih =>
      obtain _ | ⟨hbc, hbcs⟩ := h'
      rw [List.forall_mem_cons] at htrans
      exact .cons (htrans.1 _ _ hab hbc) (ih htrans.2 hbcs)

/-! ## What is equal to a value of a kind -/

theorem eq_null_iff : null.eq b = true ↔ b = null := by
  cases b <;> simp [eq]

theorem eq_boolean_iff {x : Bool} : (boolean x).eq b = true ↔ b = boolean x := by
  cases b <;> simp [eq, @Eq.comm _ x]

theorem eq_double_iff {d : Double} : (double d).eq b = true ↔ ∃ e, b = double e ∧ d.eq e = true := by
  cases b <;> simp [eq]

theorem eq_string_iff {s : String} : (string s).eq b = true ↔ b = string s := by
  cases b <;> simp [eq, @Eq.comm _ s]

theorem eqItems_iff_forall₂ : ∀ {items items' : List Value},
    eqItems items items' = true ↔ List.Forall₂ (fun v w => v.eq w = true) items items'
  | [], [] => by simp [eqItems]
  | [], w :: items' => by simp [eqItems]
  | v :: items, [] => by simp [eqItems]
  | v :: items, w :: items' => by
      rw [eqItems, Bool.and_eq_true, eqItems_iff_forall₂, List.forall₂_cons]

theorem eqMembers_iff_forall₂ : ∀ {members members' : List (String × Value)},
    eqMembers members members' = true ↔
      List.Forall₂ (fun m n => m.1 = n.1 ∧ m.2.eq n.2 = true) members members'
  | [], [] => by simp [eqMembers]
  | [], n :: members' => by simp [eqMembers]
  | m :: members, [] => by simp [eqMembers]
  | m :: members, n :: members' => by
      rw [eqMembers, Bool.and_eq_true, Bool.and_eq_true, beq_iff_eq, eqMembers_iff_forall₂,
        List.forall₂_cons]

theorem eq_collection_iff {items : List Value} : (collection items).eq b = true ↔
    ∃ items', b = collection items' ∧ List.Forall₂ (fun v w => v.eq w = true) items items' := by
  cases b <;> simp [eq, eqItems_iff_forall₂]

theorem eq_resource_iff {members : List (String × Value)} : (resource members).eq b = true ↔
    ∃ members', b = resource members' ∧
      List.Forall₂ (fun m n => m.1 = n.1 ∧ m.2.eq n.2 = true) members members' := by
  cases b <;> simp [eq, eqMembers_iff_forall₂]

/-! ## Equality as a relation -/

theorem eq_symm (h : a.eq b = true) : b.eq a = true := by
  induction a using ind generalizing b with
  | null =>
      rw [eq_null_iff] at h
      rw [h, eq_null_iff]
  | boolean x =>
      rw [eq_boolean_iff] at h
      rw [h, eq_boolean_iff]
  | int32 n => exact (eq_integer_iff ((eq_integer_iff rfl).1 h)).2 rfl
  | int64 n => exact (eq_integer_iff ((eq_integer_iff rfl).1 h)).2 rfl
  | double d =>
      obtain ⟨e, rfl, hde⟩ := eq_double_iff.1 h
      exact eq_double_iff.2 ⟨d, rfl, (Double.eq_comm e d).trans hde⟩
  | string s =>
      rw [eq_string_iff] at h
      rw [h, eq_string_iff]
  | collection items ih =>
      obtain ⟨items', rfl, hitems⟩ := eq_collection_iff.1 h
      refine eq_collection_iff.2 ⟨items, rfl, forall₂_swap_mem ?_ hitems⟩
      exact fun v hv _ => ih v hv
  | resource members ih =>
      obtain ⟨members', rfl, hmembers⟩ := eq_resource_iff.1 h
      refine eq_resource_iff.2 ⟨members, rfl, forall₂_swap_mem ?_ hmembers⟩
      exact fun m hm _ hmn => ⟨hmn.1.symm, ih m hm hmn.2⟩

theorem eq_comm (a b : Value) : a.eq b = b.eq a :=
  Bool.eq_iff_iff.2 ⟨eq_symm, eq_symm⟩

theorem eq_trans (hab : a.eq b = true) (hbc : b.eq c = true) : a.eq c = true := by
  induction a using ind generalizing b c with
  | null =>
      rw [eq_null_iff] at hab
      rwa [hab] at hbc
  | boolean x =>
      rw [eq_boolean_iff] at hab
      rwa [hab] at hbc
  | int32 n => exact (eq_integer_iff rfl).2 ((eq_integer_iff ((eq_integer_iff rfl).1 hab)).1 hbc)
  | int64 n => exact (eq_integer_iff rfl).2 ((eq_integer_iff ((eq_integer_iff rfl).1 hab)).1 hbc)
  | double d =>
      obtain ⟨e, rfl, hde⟩ := eq_double_iff.1 hab
      obtain ⟨f, rfl, hef⟩ := eq_double_iff.1 hbc
      exact eq_double_iff.2 ⟨f, rfl, Double.eq_trans hde hef⟩
  | string s =>
      rw [eq_string_iff] at hab
      rwa [hab] at hbc
  | collection items ih =>
      obtain ⟨items', rfl, hitems⟩ := eq_collection_iff.1 hab
      obtain ⟨items'', rfl, hitems'⟩ := eq_collection_iff.1 hbc
      refine eq_collection_iff.2 ⟨items'', rfl, forall₂_trans_mem ?_ hitems hitems'⟩
      exact fun v hv _ _ => ih v hv
  | resource members ih =>
      obtain ⟨members', rfl, hmembers⟩ := eq_resource_iff.1 hab
      obtain ⟨members'', rfl, hmembers'⟩ := eq_resource_iff.1 hbc
      refine eq_resource_iff.2 ⟨members'', rfl, forall₂_trans_mem ?_ hmembers hmembers'⟩
      exact fun m hm _ _ hmn hno => ⟨hmn.1.trans hno.1, ih m hm hmn.2 hno.2⟩

/-- Every double in the value is a number or infinite. -/
def WithoutNaN (v : Value) : Prop := v.Everywhere fun part => ∀ d, part = double d → d.isNaN = false

theorem withoutNaN_collection_iff {items : List Value} :
    (collection items).WithoutNaN ↔ ∀ v ∈ items, v.WithoutNaN := by
  simp [WithoutNaN, everywhere_collection_iff]

theorem withoutNaN_resource_iff {members : List (String × Value)} :
    (resource members).WithoutNaN ↔ ∀ m ∈ members, m.2.WithoutNaN := by
  simp [WithoutNaN, everywhere_resource_iff]

theorem eq_self_iff : a.eq a = true ↔ a.WithoutNaN := by
  induction a using ind with
  | double d => simp [eq, WithoutNaN, Everywhere, Double.eq_self_iff]
  | collection items ih =>
      rw [eq, eqItems_iff_forall₂, List.forall₂_same, withoutNaN_collection_iff]
      exact forall₂_congr ih
  | resource members ih =>
      rw [eq, eqMembers_iff_forall₂, List.forall₂_same, withoutNaN_resource_iff]
      exact forall₂_congr fun m hm => (and_iff_right rfl).trans (ih m hm)
  | _ => simp [eq, asInt?, WithoutNaN, Everywhere]

/-- The second value is the first with one integer inside it, at any depth, in its other width. -/
inductive Rewidened : Value → Value → Prop
  | widen (n : Int32) : Rewidened (int32 n) (int64 n.toInt64)
  | narrow (n : Int32) : Rewidened (int64 n.toInt64) (int32 n)
  | item {v w : Value} (before after : List Value) (h : Rewidened v w) :
      Rewidened (collection (before ++ v :: after)) (collection (before ++ w :: after))
  | member {v w : Value} (before after : List (String × Value)) (name : String)
      (h : Rewidened v w) :
      Rewidened (resource (before ++ (name, v) :: after)) (resource (before ++ (name, w) :: after))

theorem eqItems_congr (h : ∀ c, v.eq c = w.eq c) {after : List Value} :
    ∀ before items, eqItems (before ++ v :: after) items = eqItems (before ++ w :: after) items
  | [], [] => rfl
  | [], c :: items => by rw [List.nil_append, List.nil_append, eqItems, eqItems, h c]
  | _ :: before, [] => rfl
  | u :: before, c :: items => by
      rw [List.cons_append, List.cons_append, eqItems, eqItems, eqItems_congr h before items]

theorem eqMembers_congr (h : ∀ c, v.eq c = w.eq c) {name : String} {after : List (String × Value)} :
    ∀ before members, eqMembers (before ++ (name, v) :: after) members =
      eqMembers (before ++ (name, w) :: after) members
  | [], [] => rfl
  | [], m :: members => by rw [List.nil_append, List.nil_append, eqMembers, eqMembers, h m.2]
  | _ :: before, [] => rfl
  | u :: before, m :: members => by
      rw [List.cons_append, List.cons_append, eqMembers, eqMembers, eqMembers_congr h before members]

/-- The value itself need not equal the one in its other width: it does not equal itself if there is
a double in it that is not a number.  So it is the comparisons with a third value that are compared. -/
theorem Rewidened.eq_congr (h : Rewidened v w) (c : Value) : v.eq c = w.eq c := by
  induction h generalizing c with
  | widen n => rw [eq, eq, Int32.toInt_toInt64]
  | narrow n => rw [eq, eq, Int32.toInt_toInt64]
  | item before after _ ih =>
      cases c with
      | collection items => exact eqItems_congr ih before items
      | _ => rfl
  | member before after name _ ih =>
      cases c with
      | resource members => exact eqMembers_congr ih before members
      | _ => rfl

theorem eq_congr_of_rewidened (h : Relation.ReflTransGen Rewidened v w) (c : Value) :
    v.eq c = w.eq c := by
  induction h with
  | refl => rfl
  | tail _ hstep ih => exact ih.trans (hstep.eq_congr c)

/-- Equality is symmetric and transitive; the values that equal themselves are those in which every
double is a number or infinite; and the widths of integers inside the values make no difference. -/
theorem eq_partial_equivalence :
    (∀ a b : Value, a.eq b = true → b.eq a = true) ∧
    (∀ a b c : Value, a.eq b = true → b.eq c = true → a.eq c = true) ∧
    (∀ a : Value, a.eq a = true ↔ a.WithoutNaN) ∧
    ∀ v w : Value, Relation.ReflTransGen Rewidened v w →
      ∀ c, v.eq c = w.eq c ∧ c.eq v = c.eq w := by
  refine ⟨fun a b => eq_symm, fun a b c => eq_trans, fun a => eq_self_iff, fun v w h c => ?_⟩
  refine ⟨eq_congr_of_rewidened h c, ?_⟩
  rw [eq_comm c v, eq_comm c w]
  exact eq_congr_of_rewidened h c

/-- Neither the width of an integer nor the sign of zero shows, at any depth; but a list that holds what
is not a number does not equal itself. -/
theorem eq_partial_equivalence_nested :
    (collection [int32 5, double .zero]).eq (collection [int64 5, double Double.zero.neg]) = true ∧
    (collection [int64 5, double Double.zero.neg]).eq (collection [int64 5, double .zero]) = true ∧
    (collection [resource [("n", double .nan)]]).eq (collection [resource [("n", double .nan)]]) ≠
      true ∧
    (collection [null, resource [("n", int64 5)]]).eq (collection [null, resource [("n", int32 5)]]) =
      (collection [null, resource [("n", int64 5)]]).eq
        (collection [null, resource [("n", int64 5)]]) := by
  obtain ⟨hsymm, htrans, hself, hwidth⟩ := eq_partial_equivalence
  refine ⟨hsymm _ _ (by decide), htrans _ (collection [int32 5, double .zero]) _ (by decide)
    (by decide), ?_, ?_⟩
  · rw [Ne, hself]
    simp [WithoutNaN, Everywhere, EverywhereItems, EverywhereMembers, Double.isNaN]
  · have hstep : Rewidened (collection [null, resource [("n", int32 5)]])
        (collection [null, resource [("n", int64 5)]]) :=
      .item [null] [] (.member [] [] "n" (.widen 5))
    exact (hwidth _ _ (.single hstep) _).2

/-! ## Equality and the text -/

/-- No double is in the value, at any depth. -/
def WithoutDoubles (v : Value) : Prop := v.Everywhere fun part => ∀ d, part ≠ double d

theorem withoutDoubles_collection_iff {items : List Value} :
    (collection items).WithoutDoubles ↔ ∀ v ∈ items, v.WithoutDoubles := by
  simp [WithoutDoubles, everywhere_collection_iff]

theorem withoutDoubles_resource_iff {members : List (String × Value)} :
    (resource members).WithoutDoubles ↔ ∀ m ∈ members, m.2.WithoutDoubles := by
  simp [WithoutDoubles, everywhere_resource_iff]

theorem not_withoutDoubles_double (d : Double) : ¬ (double d).WithoutDoubles := fun h => h d rfl

theorem WithoutDoubles.doublesReadBack (h : v.WithoutDoubles) : v.DoublesReadBack :=
  h.mono fun _ hpart _ _ hdouble => absurd hdouble (hpart _)

theorem asInt?_eq_some_iff_toTree (h : v.WithoutDoubles) {n : Int} :
    v.asInt? = some n ↔ v.toTree = .integer n := by
  cases v with
  | double d => exact absurd h (not_withoutDoubles_double d)
  | _ => simp [asInt?, toTree]

/-- Doubles aside, the JSON form of a value is all that comparing looks at. -/
theorem eq_iff_toTree_eq (ha : a.WithoutDoubles) (hb : b.WithoutDoubles) :
    a.eq b = true ↔ a.toTree = b.toTree := by
  induction a using ind generalizing b with
  | null => cases b <;> simp_all [eq, toTree, not_withoutDoubles_double]
  | boolean x => cases b <;> simp_all [eq, toTree, not_withoutDoubles_double]
  | int32 n => rw [eq_integer_iff rfl, asInt?_eq_some_iff_toTree hb, toTree, Eq.comm]
  | int64 n => rw [eq_integer_iff rfl, asInt?_eq_some_iff_toTree hb, toTree, Eq.comm]
  | double d => exact absurd ha (not_withoutDoubles_double d)
  | string s => cases b <;> simp_all [eq, toTree, not_withoutDoubles_double]
  | collection items ih =>
      cases b with
      | collection items' =>
          rw [withoutDoubles_collection_iff] at ha hb
          rw [eq, eqItems_iff_forall₂, toTree_collection, toTree_collection, Tree.list.injEq,
            ← List.forall₂_eq_eq_eq, List.forall₂_map_left_iff, List.forall₂_map_right_iff]
          exact forall₂_congr_mem fun v hv w hw => ih v hv (ha v hv) (hb w hw)
      | _ => simp_all [eq, toTree, not_withoutDoubles_double]
  | resource members ih =>
      cases b with
      | resource members' =>
          rw [withoutDoubles_resource_iff] at ha hb
          rw [eq, eqMembers_iff_forall₂, toTree_resource, toTree_resource, Tree.object.injEq,
            ← List.forall₂_eq_eq_eq, List.forall₂_map_left_iff, List.forall₂_map_right_iff]
          refine forall₂_congr_mem fun m hm n hn => ?_
          rw [ih m hm (ha m hm) (hb n hn), Prod.mk.injEq]
      | _ => simp_all [eq, toTree, not_withoutDoubles_double]

/-- Values without doubles are equal exactly if they are written as the same text. -/
theorem eq_iff_same_text (ha : a.WithoutDoubles) (hb : b.WithoutDoubles) :
    a.eq b = true ↔ a.toTree.compact = b.toTree.compact := by
  rw [eq_iff_toTree_eq ha hb]
  refine ⟨congrArg Tree.compact, fun htext => ?_⟩
  have hta := Tree.jsonText_compact (printable_toTree a)
  have htb := Tree.jsonText_compact (printable_toTree b)
  rw [Tree.reread_eq (doublesReadBack_toTree ha.doublesReadBack)] at hta
  rw [Tree.reread_eq (doublesReadBack_toTree hb.doublesReadBack), ← htext] at htb
  exact hta.unique htb

/-- The widths of integers inside a resource that repeats a name do not show, in a comparison or in the
text; whether an item is an integer or its digits in a string does. -/
theorem eq_iff_same_text_nested :
    ((resource [("n", int32 5), ("n", collection [int64 7, null])]).eq
        (resource [("n", int64 5), ("n", collection [int32 7, null])]) = true ∧
      (resource [("n", int32 5), ("n", collection [int64 7, null])]).toTree.compact =
        (resource [("n", int64 5), ("n", collection [int32 7, null])]).toTree.compact) ∧
    (collection [int32 5]).eq (collection [string "5"]) ≠ true ∧
      (collection [int32 5]).toTree.compact ≠ (collection [string "5"]).toTree.compact := by
  have hequal : (resource [("n", int32 5), ("n", collection [int64 7, null])]).eq
      (resource [("n", int64 5), ("n", collection [int32 7, null])]) = true := by decide
  have hunequal : (collection [int32 5]).eq (collection [string "5"]) ≠ true := by decide
  refine ⟨⟨hequal, (eq_iff_same_text ?_ ?_).1 hequal⟩,
    hunequal, mt (eq_iff_same_text ?_ ?_).2 hunequal⟩
  all_goals simp [WithoutDoubles, Everywhere, EverywhereItems, EverywhereMembers]

end OData.Value
