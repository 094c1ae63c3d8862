/-
# `OData.Proofs.Json.Unambiguous` — a text is JSON for one value at most

The grammar of JSON texts says which texts a tree has, and leaves open whether two trees might share
one.  They do not: whichever tree a text is taken for, the same byte comes next, so two trees of one
text start alike, and behind each part of a container either both go on or both end
(`Tree.SpelledBy.unique`, `JsonText.unique`).

The steps of the reader serve as the eyes here, `start`, `nextItem` and `nextName`: a step in front of
given bytes has one outcome (`Passes.unique`).  Readers themselves have no part in it, so nothing is
said of how deep a value nests, or of names that come twice.
-/
import OData.Proofs.Json.Containers

namespace OData.Json

open Scan

variable {first : Bool} {inside i o o' : List UInt8} {t t' : Tree} {name : String}
  {items items' : List Tree} {members members' : List (String × Tree)}

/-! ## What comes next -/

theorem Scan.Passes.unique {ρ α : Type} {scan : Scan ρ α} {a a' : α} (h : Passes scan i a o)
    (h' : Passes scan i a' o') : a = a' ∧ o = o' := by
  obtain ⟨p, hp⟩ := h ⟨1, 0⟩
  obtain ⟨p', hp'⟩ := h' ⟨1, 0⟩
  cases hp.symm.trans hp'
  exact ⟨rfl, rfl⟩

namespace Tree

/-- In front of the first of some items. -/
theorem exists_ahead_of_items (h : ItemsSpelledBy first (t :: items) inside) (o : List UInt8) :
    ∃ m more, Passes (ρ := Empty) (nextItem first) (inside ++ Byte.closeBracket :: o) true m ∧
      t.Ahead m (more ++ Byte.closeBracket :: o) ∧ ItemsSpelledBy false items more := by
  obtain ⟨lead, text, more, hlead, htext, hmore, rfl⟩ := h
  obtain ⟨b, text', rfl, hb, hclose, -⟩ := head_of_spelledBy htext
  refine ⟨b :: text' ++ (more ++ Byte.closeBracket :: o), more, ?_, ?_, hmore⟩
  · rw [List.append_assoc, List.append_assoc]
    exact passes_nextItem hb hclose hlead
  · exact ⟨[], _, blank_nil, htext, halts_items hmore, rfl⟩

/-- In front of the first of some members. -/
theorem exists_ahead_of_members (h : MembersSpelledBy first ((name, t) :: members) inside)
    (o : List UInt8) :
    ∃ m m' more, Passes (ρ := Empty) (nextName first) (inside ++ Byte.closeBrace :: o) (some name) m ∧
      Passes (ρ := Empty) colon m () m' ∧ t.Ahead m' (more ++ Byte.closeBrace :: o) ∧
      MembersSpelledBy false members more := by
  obtain ⟨lead, title, gap, gap', text, more, hlead, htitle, hgap, hgap', htext, hmore, rfl⟩ := h
  refine ⟨_, gap' ++ (text ++ (more ++ Byte.closeBrace :: o)), more, ?_, passes_colon hgap,
    ⟨gap', text, hgap', htext, halts_members hmore, rfl⟩, hmore⟩
  simp only [List.append_assoc, List.cons_append]
  exact passes_nextName htitle hlead

/-! ## One tree for a text -/

/-- No other tree is ahead of a text that this tree is ahead of, and it ends where this one does. -/
def OnlyOne (t : Tree) : Prop :=
  ∀ {t' : Tree} {i o o' : List UInt8}, t.Ahead i o → t'.Ahead i o' → t = t' ∧ o = o'

theorem items_unique (hone : ∀ t ∈ items, t.OnlyOne) {i : List UInt8}
    (h : ∃ inside, ItemsSpelledBy first items inside ∧ i = inside ++ Byte.closeBracket :: o)
    (h' : ∃ inside, ItemsSpelledBy first items' inside ∧ i = inside ++ Byte.closeBracket :: o') :
    items = items' ∧ o = o' := by
  -- Both lists are read off one text: whether it goes on with an item or ends is the same for both.
  induction items generalizing items' first i with
  | nil =>
      obtain ⟨inside, hinside, rfl⟩ := h
      obtain ⟨inside', hinside', hi⟩ := h'
      have hend := passes_nextItem_end (ρ := Empty) (o := o) first hinside
      rw [hi] at hend
      cases items' with
      | nil =>
          obtain ⟨-, ho⟩ := hend.unique (passes_nextItem_end first hinside')
          exact ⟨rfl, (List.cons.inj ho).2⟩
      | cons t' items' =>
          obtain ⟨m, more, hnext, -, -⟩ := exists_ahead_of_items hinside' o'
          cases (hend.unique hnext).1
  | cons t items ih =>
      obtain ⟨inside, hinside, rfl⟩ := h
      obtain ⟨inside', hinside', hi⟩ := h'
      obtain ⟨m, more, hnext, ht, hmore⟩ := exists_ahead_of_items hinside o
      rw [hi] at hnext
      rw [List.forall_mem_cons] at hone
      cases items' with
      | nil => cases (hnext.unique (passes_nextItem_end first hinside')).1
      | cons t' items' =>
          obtain ⟨m', more', hnext', ht', hmore'⟩ := exists_ahead_of_items hinside' o'
          obtain ⟨-, rfl⟩ := hnext.unique hnext'
          obtain ⟨rfl, hrest⟩ := hone.1 ht ht'
          obtain ⟨rfl, ho⟩ := ih hone.2 ⟨more, hmore, rfl⟩ ⟨more', hmore', hrest⟩
          exact ⟨rfl, ho⟩

theorem members_unique (hone : ∀ m ∈ members, m.2.OnlyOne) {i : List UInt8}
    (h : ∃ inside, MembersSpelledBy first members inside ∧ i = inside ++ Byte.closeBrace :: o)
    (h' : ∃ inside, MembersSpelledBy first members' inside ∧ i = inside ++ Byte.closeBrace :: o') :
    members = members' ∧ o = o' := by
  -- As for items; the name and the colon are read off the shared text as well.
  induction members generalizing members' first i with
  | nil =>
      obtain ⟨inside, hinside, rfl⟩ := h
      obtain ⟨inside', hinside', hi⟩ := h'
      have hend := passes_nextName_end (ρ := Empty) (o := o) first hinside
      rw [hi] at hend
      cases members' with
      | nil =>
          obtain ⟨-, ho⟩ := hend.unique (passes_nextName_end first hinside')
          exact ⟨rfl, (List.cons.inj ho).2⟩
      | cons p' members' =>
          obtain ⟨m, m', more, hnext, -, -, -⟩ := exists_ahead_of_members hinside' o'
          cases (hend.unique hnext).1
  | cons p members ih =>
      obtain ⟨inside, hinside, rfl⟩ := h
      obtain ⟨inside', hinside', hi⟩ := h'
      obtain ⟨m, n, more, hnext, hcolon, ht, hmore⟩ := exists_ahead_of_members hinside o
      rw [hi] at hnext
      rw [List.forall_mem_cons] at hone
      cases members' with
      | nil => cases (hnext.unique (passes_nextName_end first hinside')).1
      | cons p' members' =>
          obtain ⟨m', n', more', hnext', hcolon', ht', hmore'⟩ :=
            exists_ahead_of_members hinside' o'
          obtain ⟨hname, rfl⟩ := hnext.unique hnext'
          obtain ⟨-, rfl⟩ := hcolon.unique hcolon'
          obtain ⟨hvalue, hrest⟩ := hone.1 ht ht'
          obtain ⟨rfl, ho⟩ := ih hone.2 ⟨more, hmore, rfl⟩ ⟨more', hmore', hrest⟩
          obtain rfl : p = p' := Prod.ext (Option.some.inj hname) hvalue
          exact ⟨rfl, ho⟩

/-- Two trees of one text start alike, and what is left of the text is left of both. -/
theorem Ahead.start_unique (h : t.Ahead i o) (h' : t'.Ahead i o') :
    t.start = t'.start ∧ ∃ m, t.Opened m o ∧ t'.Opened m o' := by
  obtain ⟨m, hstart, hopened⟩ := passes_start (ρ := Empty) h
  obtain ⟨m', hstart', hopened'⟩ := passes_start (ρ := Empty) h'
  obtain ⟨hkind, rfl⟩ := hstart.unique hstart'
  exact ⟨hkind, m, hopened, hopened'⟩

/-- A text goes on with one value at most. -/
theorem onlyOne (t : Tree) : t.OnlyOne := by
  induction t using ind with
  | list items ih =>
      intro t' i o o' h h'
      obtain ⟨hkind, m, ⟨i, hitems, rfl⟩, hopened'⟩ := h.start_unique h'
      cases t' <;> cases hkind
      obtain ⟨i', hitems', hi⟩ := hopened'
      obtain ⟨rfl, ho⟩ := items_unique ih hitems ((List.cons.inj hi).2 ▸ hitems')
      exact ⟨rfl, ho⟩
  | object members ih =>
      intro t' i o o' h h'
      obtain ⟨hkind, m, ⟨i, hmembers, rfl⟩, hopened'⟩ := h.start_unique h'
      cases t' <;> cases hkind
      obtain ⟨i', hmembers', hi⟩ := hopened'
      obtain ⟨rfl, ho⟩ := members_unique ih hmembers ((List.cons.inj hi).2 ▸ hmembers')
      exact ⟨rfl, ho⟩
  | _ =>
      -- What has no parts is all in its start.
      intro t' i o o' h h'
      obtain ⟨hkind, m, hopened, hopened'⟩ := h.start_unique h'
      cases t' <;> cases hkind
      exact ⟨rfl, Eq.trans (Eq.symm hopened) hopened'⟩

end Tree

/-- A text is JSON for one tree at most. -/
theorem JsonText.unique {bytes : List UInt8} (h : JsonText bytes t) (h' : JsonText bytes t') :
    t = t' := by
  obtain ⟨gap, -, hahead⟩ := jsonText_iff_ahead.1 h
  obtain ⟨gap', -, hahead'⟩ := jsonText_iff_ahead.1 h'
  exact (t.onlyOne hahead hahead').1

end OData.Json
