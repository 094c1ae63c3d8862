/-
# `OData.Proofs.Json.Compact` — the compact text of a tree is JSON for it

A tree that is written is read again as itself, with each double as its text is read
(`Tree.reread`).  Two things cannot be written: an integer beyond what is read exactly, and a double
that is not finite.
-/
import OData.Proofs.Json.Printed

namespace OData.Json

open Scan

namespace Tree

/-- A value without parts that is written as itself. -/
def IsPrintable : Tree → Prop
  | integer n => -(2 ^ 63) ≤ n ∧ n < 2 ^ 64
  | double d => d.IsFinite
  | _ => True

/-- The tree as it is read when it has been written. -/
def reread (t : Tree) : Tree := t.mapDoubles Double.reread

/-! ## Commas -/

/-- What `commas` writes behind the first part. -/
def commaBytes (parts : List String) : List UInt8 :=
  parts.flatMap fun part => Byte.comma :: Text.Utf8.encode part

theorem encode_commas_cons (part : String) : ∀ parts : List String,
    Text.Utf8.encode (commas (part :: parts)) = Text.Utf8.encode part ++ commaBytes parts
  | [] => by simp [commas, commaBytes]
  | next :: parts => by
      rw [commas, Text.Utf8.encode_append, Text.Utf8.encode_append, encode_commas_cons next parts]
      · simp [commaBytes, List.append_assoc]
        rfl
      · exact nofun

theorem itemsSpelledBy_commaBytes : ∀ {items : List Tree},
    (∀ t ∈ items, t.reread.SpelledBy (Text.Utf8.encode t.compact)) →
      ItemsSpelledBy false (items.map reread) (commaBytes (items.map compact))
  | [], _ => blank_nil
  | item :: items, h => by
      rw [List.forall_mem_cons] at h
      refine ⟨[Byte.comma], _, _, ⟨[], [], blank_nil, blank_nil, rfl⟩, h.1,
        itemsSpelledBy_commaBytes h.2, ?_⟩
      rfl

/-- A member as it is written. -/
def memberText (m : String × Tree) : String := quoted m.1 ++ ":" ++ m.2.compact

theorem membersSpelledBy_commaBytes : ∀ {members : List (String × Tree)},
    (∀ m ∈ members, m.2.reread.SpelledBy (Text.Utf8.encode m.2.compact)) →
      MembersSpelledBy false (members.map fun m => (m.1, m.2.reread))
        (commaBytes (members.map memberText))
  | [], _ => blank_nil
  | (name, value) :: members, h => by
      rw [List.forall_mem_cons] at h
      refine ⟨[Byte.comma], _, [], [], _, _, ⟨[], [], blank_nil, blank_nil, rfl⟩,
        stringText_quoted name, blank_nil, blank_nil, h.1, membersSpelledBy_commaBytes h.2, ?_⟩
      simp [commaBytes, memberText]
      rfl

theorem itemsSpelledBy_commas {items : List Tree}
    (h : ∀ t ∈ items, t.reread.SpelledBy (Text.Utf8.encode t.compact)) :
    ItemsSpelledBy true (items.map reread) (Text.Utf8.encode (commas (items.map compact))) := by
  cases items with
  | nil => exact blank_nil
  | cons item items =>
      rw [List.forall_mem_cons] at h
      exact ⟨[], _, _, blank_nil, h.1, itemsSpelledBy_commaBytes h.2,
        encode_commas_cons item.compact (items.map compact)⟩

theorem membersSpelledBy_commas {members : List (String × Tree)}
    (h : ∀ m ∈ members, m.2.reread.SpelledBy (Text.Utf8.encode m.2.compact)) :
    MembersSpelledBy true (members.map fun m => (m.1, m.2.reread))
      (Text.Utf8.encode (commas (members.map memberText))) := by
  cases members with
  | nil => exact blank_nil
  | cons m members =>
      rw [List.forall_mem_cons] at h
      refine ⟨[], _, [], [], _, _, blank_nil, stringText_quoted m.1, blank_nil, blank_nil, h.1,
        membersSpelledBy_commaBytes h.2, ?_⟩
      rw [List.map_cons, encode_commas_cons, memberText, Text.Utf8.encode_append,
        Text.Utf8.encode_append, List.append_assoc, List.append_assoc]
      rfl

/-! ## Trees -/

/-- What is written for a tree is a text of the tree as it is read again. -/
theorem spelledBy_compact {t : Tree} (h : t.Everywhere IsPrintable) :
    t.reread.SpelledBy (Text.Utf8.encode t.compact) := by
  induction t using ind with
  | null => exact rfl
  | bool b => cases b <;> exact rfl
  | integer n =>
      have hn : IsPrintable (integer n) := h
      exact numberText_decimal hn.1 hn.2
  | double d =>
      obtain ⟨negative, code, rfl⟩ : IsPrintable (double d) := h
      exact Double.numberText_doubleText negative code
  | string s => exact stringText_quoted s
  | list items ih =>
      have hitems := (everywhere_list_iff.1 h).2
      rw [reread, mapDoubles_list, compact, compactItems_eq_map]
      refine ⟨_, itemsSpelledBy_commas fun t ht => ih t ht (hitems t ht), ?_⟩
      rw [Text.Utf8.encode_append, Text.Utf8.encode_append]
      rfl
  | object members ih =>
      have hmembers := (everywhere_object_iff.1 h).2
      rw [reread, mapDoubles_object, compact, compactMembers_eq_map]
      refine ⟨_, membersSpelledBy_commas fun m hm => ih m hm (hmembers m hm), ?_⟩
      rw [Text.Utf8.encode_append, Text.Utf8.encode_append]
      rfl

theorem jsonText_compact {t : Tree} (h : t.Everywhere IsPrintable) :
    JsonText (Text.Utf8.encode t.compact) t.reread :=
  ⟨[], _, [], blank_nil, blank_nil, spelledBy_compact h, by simp⟩

/-! ## What reading again leaves as it is -/

theorem depth_reread (t : Tree) : t.reread.depth = t.depth := by
  induction t using ind with
  | list items ih =>
      rw [reread, mapDoubles_list]
      exact (depth_list_congr ih).trans (by rw [List.map_id'])
  | object members ih =>
      rw [reread, mapDoubles_object]
      exact (depth_object_congr ih).trans (by rw [List.map_id'])
  | _ => rfl

theorem distinctNames_reread_iff (t : Tree) : t.reread.DistinctNames ↔ t.DistinctNames := by
  induction t using ind with
  | list items ih =>
      rw [reread, mapDoubles_list, distinctNames_list_iff, distinctNames_list_iff, List.forall_mem_map]
      exact forall₂_congr fun t ht => ih t ht
  | object members ih =>
      rw [reread, mapDoubles_object, distinctNames_object_iff, distinctNames_object_iff,
        List.forall_mem_map, List.map_map]
      exact and_congr Iff.rfl (forall₂_congr fun m hm => ih m hm)
  | _ => exact Iff.rfl

/-- Every double in the tree is read as itself. -/
def DoublesReadBack (t : Tree) : Prop :=
  t.Everywhere fun part => ∀ d, part = double d → d.ReadsBack

theorem doublesReadBack_list_iff {items : List Tree} :
    (list items).DoublesReadBack ↔ ∀ t ∈ items, t.DoublesReadBack := by
  simp [DoublesReadBack, everywhere_list_iff]

theorem doublesReadBack_object_iff {members : List (String × Tree)} :
    (object members).DoublesReadBack ↔ ∀ m ∈ members, m.2.DoublesReadBack := by
  simp [DoublesReadBack, everywhere_object_iff]

theorem reread_eq {t : Tree} (h : t.DoublesReadBack) : t.reread = t := by
  induction t using ind with
  | double d => exact congrArg double (Double.reread_eq (h d rfl))
  | list items ih =>
      rw [doublesReadBack_list_iff] at h
      rw [reread, mapDoubles_list]
      calc list (items.map (mapDoubles Double.reread)) = list (items.map fun t => t) :=
            congrArg list (List.map_congr_left fun t ht => ih t ht (h t ht))
        _ = list items := congrArg list (List.map_id' items)
  | object members ih =>
      rw [doublesReadBack_object_iff] at h
      rw [reread, mapDoubles_object]
      calc object (members.map fun m => (m.1, m.2.mapDoubles Double.reread))
          = object (members.map fun m => m) :=
            congrArg object (List.map_congr_left fun m hm => Prod.ext rfl (ih m hm (h m hm)))
        _ = object members := congrArg object (List.map_id' members)
  | _ => rfl

end Tree

end OData.Json
