/-
# `OData.Proofs.Value.Writing` — the writer against the compact text

The writer is a machine: it keeps the containers that are open and puts commas by counting.  Its
two ways to write a part of a container come to the same thing, `Writer.add`, and a container with
parts added to it is one value (`Writer.endList_addAll`, `Writer.endObject_addAll`).  So the machine
writes a value in one piece, namely the compact text of its JSON form.
-/
import OData.Proofs.Value.Trees
import OData.Value.Writer

namespace OData.Json.Writer

/-! ## Parts of containers -/

/-- The innermost container that is open is of this kind. -/
def Within (bracket : Bracket) (w : Writer) : Prop :=
  ∃ parts outer, w.scopes = ⟨bracket, parts⟩ :: outer

/-- One more part of the innermost container. -/
def add (w : Writer) (text : String) : Writer := { w.part with text := w.part.text ++ text }

/-- More parts of the innermost container. -/
def addAll (w : Writer) (texts : List String) : Writer := texts.foldl add w

variable {w : Writer} {bracket : Bracket}

theorem Within.add (h : w.Within bracket) (text : String) : (w.add text).Within bracket := by
  obtain ⟨parts, outer, hscopes⟩ := h
  exact ⟨parts + 1, outer, by simp [Writer.add, part, hscopes]⟩

theorem Within.addAll (h : w.Within bracket) (texts : List String) :
    (w.addAll texts).Within bracket := by
  induction texts generalizing w with
  | nil => exact h
  | cons text texts ih => exact ih (h.add text)

theorem addAll_append (w : Writer) (texts texts' : List String) :
    w.addAll (texts ++ texts') = (w.addAll texts).addAll texts' :=
  List.foldl_append

theorem within_startList (w : Writer) : w.startList.Within .list := ⟨0, _, rfl⟩

theorem within_startObject (w : Writer) : w.startObject.Within .object := ⟨0, _, rfl⟩

/-- A value in a list is a part of it. -/
theorem raw_eq_add (h : w.Within .list) (text : String) : w.raw text = w.add text := by
  obtain ⟨parts, outer, hscopes⟩ := h
  simp only [raw, beforeValue, hscopes, add]

/-- A name and its value are a part of an object. -/
theorem name_raw (h : w.Within .object) (n text : String) :
    (w.name n).raw text = w.add (quoted n ++ ":" ++ text) := by
  obtain ⟨parts, outer, hscopes⟩ := h
  simp only [name, raw, beforeValue, part, hscopes, add, String.append_assoc]

/-- Behind a part, every other part has a comma in front. -/
theorem addAll_behind (outer : List Scope) : ∀ (texts : List String) (n : Nat) (before text : String),
    addAll ⟨before ++ text, ⟨bracket, n + 1⟩ :: outer⟩ texts =
      ⟨before ++ Tree.commas (text :: texts), ⟨bracket, n + 1 + texts.length⟩ :: outer⟩
  | [], _, _, _ => rfl
  | next :: texts, n, before, text => by
      have hadd : add ⟨before ++ text, ⟨bracket, n + 1⟩ :: outer⟩ next =
          ⟨before ++ text ++ "," ++ next, ⟨bracket, n + 1 + 1⟩ :: outer⟩ := by
        simp [add, part]
      have hlength : n + 1 + 1 + texts.length = n + 1 + (next :: texts).length := by
        rw [List.length_cons]
        omega
      have hcommas : Tree.commas (text :: next :: texts) =
          text ++ "," ++ Tree.commas (next :: texts) := rfl
      rw [addAll, List.foldl_cons, hadd]
      refine (addAll_behind outer texts (n + 1) (before ++ text ++ ",") next).trans ?_
      simp only [hlength, hcommas, String.append_assoc]

theorem addAll_opened (text : String) (outer : List Scope) : ∀ texts : List String,
    addAll ⟨text, ⟨bracket, 0⟩ :: outer⟩ texts =
      ⟨text ++ Tree.commas texts, ⟨bracket, texts.length⟩ :: outer⟩
  | [] => by simp [addAll, Tree.commas]
  | first :: texts => by
      have hlength : 0 + 1 + texts.length = (first :: texts).length := by
        rw [List.length_cons]
        omega
      rw [← hlength]
      exact addAll_behind outer texts 0 text first

/-- A list that is opened, filled and closed is one value. -/
theorem endList_addAll (w : Writer) (texts : List String) :
    (w.startList.addAll texts).endList = w.raw ("[" ++ Tree.commas texts ++ "]") := by
  rw [startList, addAll_opened, endList, raw]
  simp only [raw, List.tail_cons, String.append_assoc]

/-- An object that is opened, filled and closed is one value. -/
theorem endObject_addAll (w : Writer) (texts : List String) :
    (w.startObject.addAll texts).endObject = w.raw ("\x7b" ++ Tree.commas texts ++ "\x7d") := by
  rw [startObject, addAll_opened, endObject, raw]
  simp only [raw, List.tail_cons, String.append_assoc]

/-! ## Values -/

variable {int64AsString : Bool}

/-- The text of the JSON form of what is written for a value. -/
def textOf (int64AsString : Bool) (v : Value) : String := (v.written int64AsString).toTree.compact

theorem values_eq_addAll {items : List Value} (hw : w.Within .list)
    (h : ∀ v ∈ items, ∀ w : Writer, w.value int64AsString v = w.raw (textOf int64AsString v)) :
    w.values int64AsString items = w.addAll (items.map (textOf int64AsString)) := by
  induction items generalizing w with
  | nil => rfl
  | cons item items ih =>
      rw [List.forall_mem_cons] at h
      rw [values, h.1, raw_eq_add hw, ih (hw.add _) h.2]
      rfl

theorem memberValues_eq_addAll {members : List (String × Value)} (hw : w.Within .object)
    (h : ∀ m ∈ members, ∀ w : Writer, w.value int64AsString m.2 = w.raw (textOf int64AsString m.2)) :
    w.memberValues int64AsString members =
      w.addAll (members.map fun m => quoted m.1 ++ ":" ++ textOf int64AsString m.2) := by
  induction members generalizing w with
  | nil => rfl
  | cons m members ih =>
      rw [List.forall_mem_cons] at h
      rw [memberValues, h.1, name_raw hw, ih (hw.add _) h.2]
      rfl

/-- A value is written in one piece. -/
theorem value_eq_raw (w : Writer) (v : Value) :
    w.value int64AsString v = w.raw (v.written int64AsString).toTree.compact := by
  induction v using Value.ind generalizing w with
  | boolean b => cases b <;> cases int64AsString <;> rfl
  | int64 n => cases int64AsString <;> rfl
  | double d =>
      rw [Value.written_of_stringify rfl, value, double, Value.toTree, Value.doubleTree]
      cases Value.nonFiniteLiteral? d <;> rfl
  | collection items ih =>
      rw [value, values_eq_addAll w.within_startList ih, endList_addAll, Value.written_collection,
        Value.toTree_collection, Tree.compact, Tree.compactItems_eq_map, List.map_map, List.map_map]
      rfl
  | resource members ih =>
      rw [value, memberValues_eq_addAll w.within_startObject ih, endObject_addAll,
        Value.written_resource, Value.toTree_resource, Tree.compact, Tree.compactMembers_eq_map,
        List.map_map, List.map_map]
      rfl
  | _ => rw [Value.written_of_stringify rfl]; rfl

theorem empty_raw (text : String) : empty.raw text = ⟨text, []⟩ := by
  simp [raw, beforeValue, empty]

/-- The machine writes a value as the recursion on its JSON form does: the value itself where integers
are numbers, and the value with strings in place of its 64-bit integers where they are strings.  In the
middle of a container the same text is one part of it, and nothing that was open is closed. -/
theorem value_as_serialized (v : Value) :
    (empty.value false v = ⟨v.toTree.compact, []⟩ ∧
      empty.value true v = ⟨v.stringify.toTree.compact, []⟩) ∧
    ∀ w : Writer, w.value false v = w.raw v.toTree.compact ∧
      w.value true v = w.raw v.stringify.toTree.compact := by
  have hwritten : ∀ w : Writer, w.value false v = w.raw v.toTree.compact ∧
      w.value true v = w.raw v.stringify.toTree.compact :=
    fun w => ⟨value_eq_raw w v, value_eq_raw w v⟩
  obtain ⟨hnumbers, hstrings⟩ := hwritten empty
  rw [empty_raw] at hnumbers hstrings
  exact ⟨⟨hnumbers, hstrings⟩, hwritten⟩

end OData.Json.Writer
