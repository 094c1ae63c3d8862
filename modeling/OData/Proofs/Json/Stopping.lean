/-
# `OData.Proofs.Json.Stopping` — a flaw in the middle of a text

A text with one value cut out of it: `MembersUpTo` and `ItemsUpTo` say what is in front of the gap, and
the grammar of members and items says what is behind it.  Whatever value fills the gap, the whole is its
text with that value in its place (`MemberGap.spelledBy`, `ItemGap.spelledBy`).

A reader that has nothing against the parts in front of the gap comes to it, and if the value there stops
it at a flaw, that flaw is what the reading ends with (`Stops`).  Loops over parts are followed up to
the gap by the invariants that also serve for reading them to the end.
-/
import OData.Proofs.Json.Containers

namespace OData.Json

open Scan

/-! ## A gap in a text -/

namespace Tree

/-- `front` writes the items in `before` and what stands in front of the next one. -/
def ItemsUpTo (first : Bool) : List Tree → List UInt8 → Prop
  | [], front => Lead first front
  | item :: before, front =>
    ∃ lead text more, Lead first lead ∧ item.SpelledBy text ∧ ItemsUpTo false before more ∧
      front = lead ++ (text ++ more)

/-- `front` writes the members in `before` and the name of the next one, up to its value. -/
def MembersUpTo (first : Bool) : List (String × Tree) → String → List UInt8 → Prop
  | [], name, front =>
    ∃ lead title gap gap', Lead first lead ∧ StringText name title ∧ Blank gap ∧ Blank gap' ∧
      front = lead ++ (title ++ (gap ++ Byte.colon :: gap'))
  | (other, value) :: before, name, front =>
    ∃ lead title gap gap' text more, Lead first lead ∧ StringText other title ∧ Blank gap ∧
      Blank gap' ∧ value.SpelledBy text ∧ MembersUpTo false before name more ∧
      front = lead ++ (title ++ (gap ++ Byte.colon :: (gap' ++ (text ++ more))))

variable {t : Tree} {text front back : List UInt8}

theorem itemsSpelledBy_of_upTo {after : List Tree} (ht : t.SpelledBy text)
    (hafter : ItemsSpelledBy false after back) :
    ∀ {before : List Tree} {first : Bool} {front : List UInt8}, ItemsUpTo first before front →
      ItemsSpelledBy first (before ++ t :: after) (front ++ (text ++ back))
  | [], _, _, hlead => ⟨_, _, _, hlead, ht, hafter, rfl⟩
  | _ :: _, _, _, h => by
      obtain ⟨lead, text', more, hlead, htext', hmore, rfl⟩ := h
      refine ⟨lead, text', _, hlead, htext', itemsSpelledBy_of_upTo ht hafter hmore, ?_⟩
      simp only [List.append_assoc]

theorem membersSpelledBy_of_upTo {after : List (String × Tree)} {name : String}
    (ht : t.SpelledBy text) (hafter : MembersSpelledBy false after back) :
    ∀ {before : List (String × Tree)} {first : Bool} {front : List UInt8},
      MembersUpTo first before name front →
      MembersSpelledBy first (before ++ (name, t) :: after) (front ++ (text ++ back))
  | [], _, _, h => by
      obtain ⟨lead, title, gap, gap', hlead, htitle, hgap, hgap', rfl⟩ := h
      refine ⟨lead, title, gap, gap', text, back, hlead, htitle, hgap, hgap', ht, hafter, ?_⟩
      simp only [List.append_assoc, List.cons_append]
  | (_, _) :: _, _, _, h => by
      obtain ⟨lead, title, gap, gap', text', more, hlead, htitle, hgap, hgap', htext', hmore, rfl⟩ := h
      refine ⟨lead, title, gap, gap', text', _, hlead, htitle, hgap, hgap', htext',
        membersSpelledBy_of_upTo ht hafter hmore, ?_⟩
      simp only [List.append_assoc, List.cons_append]

/-- An item is cut out of a list, between those in `before` and those in `after`. -/
def ItemGap (before after : List Tree) (front back : List UInt8) : Prop :=
  ∃ upTo behind, ItemsUpTo true before upTo ∧ ItemsSpelledBy false after behind ∧
    front = Byte.openBracket :: upTo ∧ back = behind ++ [Byte.closeBracket]

/-- The value of the member `name` is cut out of an object, between the members in `before` and those in
`after`. -/
def MemberGap (before : List (String × Tree)) (name : String) (after : List (String × Tree))
    (front back : List UInt8) : Prop :=
  ∃ upTo behind, MembersUpTo true before name upTo ∧ MembersSpelledBy false after behind ∧
    front = Byte.openBrace :: upTo ∧ back = behind ++ [Byte.closeBrace]

theorem ItemGap.spelledBy {before after : List Tree} (h : ItemGap before after front back)
    (ht : t.SpelledBy text) : (list (before ++ t :: after)).SpelledBy (front ++ (text ++ back)) := by
  obtain ⟨upTo, behind, hupTo, hbehind, rfl, rfl⟩ := h
  refine ⟨_, itemsSpelledBy_of_upTo ht hbehind hupTo, ?_⟩
  simp only [List.append_assoc, List.cons_append]

theorem MemberGap.spelledBy {before after : List (String × Tree)} {name : String}
    (h : MemberGap before name after front back) (ht : t.SpelledBy text) :
    (object (before ++ (name, t) :: after)).SpelledBy (front ++ (text ++ back)) := by
  obtain ⟨upTo, behind, hupTo, hbehind, rfl, rfl⟩ := h
  refine ⟨_, membersSpelledBy_of_upTo ht hbehind hupTo, ?_⟩
  simp only [List.append_assoc, List.cons_append]

/-- What follows a value in a gap does not extend it. -/
theorem MemberGap.halts {before after : List (String × Tree)} {name : String}
    (h : MemberGap before name after front back) (rest : List UInt8) :
    Halts extendsNumber (back ++ rest) := by
  obtain ⟨upTo, behind, -, hbehind, -, rfl⟩ := h
  rw [List.append_assoc]
  exact halts_members hbehind

theorem halts_itemsUpTo {before : List Tree} (h : ItemsUpTo false before front) (rest : List UInt8) :
    Halts extendsNumber (front ++ rest) := by
  cases before with
  | nil => exact halts_lead h
  | cons item before =>
      obtain ⟨lead, text, more, hlead, -, -, rfl⟩ := h
      rw [List.append_assoc]
      exact halts_lead hlead

theorem halts_membersUpTo {before : List (String × Tree)} {name : String}
    (h : MembersUpTo false before name front) (rest : List UInt8) :
    Halts extendsNumber (front ++ rest) := by
  cases before with
  | nil =>
      obtain ⟨lead, title, gap, gap', hlead, -, -, -, rfl⟩ := h
      rw [List.append_assoc]
      exact halts_lead hlead
  | cons m before =>
      obtain ⟨lead, title, gap, gap', text, more, hlead, -, -, -, -, -, rfl⟩ := h
      rw [List.append_assoc]
      exact halts_lead hlead

end Tree

namespace Scan

variable {ρ : Type} {α β σ : Type} {flaw : Flaw} {i m : List UInt8}

/-! ## Scans that stop -/

/-- In front of `input`, `scan` stops at the flaw. -/
def Stops (flaw : Flaw) (scan : Scan ρ α) (input : List UInt8) : Prop :=
  ∀ place, ∃ spot c, scan ⟨input, place⟩ = .error (.flaw flaw spot) c

theorem stops_flawHere (flaw : Flaw) (i : List UInt8) :
    Stops (ρ := ρ) (α := α) flaw (flawHere flaw) i :=
  fun place => ⟨place, ⟨i, place⟩, rfl⟩

namespace Stops

variable {scan scan' : Scan ρ α} {k : α → Scan ρ β}

theorem of_comesTo (hcomes : ComesTo scan i scan' m) (h : Stops flaw scan' m) : Stops flaw scan i := by
  intro place
  obtain ⟨p, hp⟩ := hcomes place
  rw [hp]
  exact h p

/-- Nothing is read behind the flaw. -/
theorem bind (h : Stops flaw scan i) (k : α → Scan ρ β) : Stops flaw (scan >>= k) i := by
  intro place
  obtain ⟨spot, c, hflaw⟩ := h place
  refine ⟨spot, c, ?_⟩
  show EStateM.bind scan k _ = _
  simp only [EStateM.bind, hflaw]

theorem after {a : α} (hpass : Passes scan i a m) (h : Stops flaw (k a) m) :
    Stops flaw (scan >>= k) i :=
  of_comesTo (hpass.comesTo (ComesTo.refl (k a) m)) h

/-- What is in front of the flaw is not turned down. -/
theorem behind {good : α → Prop} (hyields : Yields scan i m good False)
    (h : ∀ a, good a → Stops flaw (k a) m) : Stops flaw (scan >>= k) i := by
  intro place
  have hscan := hyields place
  show ∃ spot c, EStateM.bind scan k _ = _
  simp only [EStateM.bind]
  cases hresult : scan ⟨i, place⟩ with
  | ok a c =>
      rw [hresult] at hscan
      obtain ⟨ha, rfl⟩ := hscan
      exact h a ha c.place
  | error fault c =>
      rw [hresult] at hscan
      exact hscan.1.elim

theorem located (h : Stops flaw scan i) : Stops flaw (located scan) i := by
  intro place
  obtain ⟨spot, c, hflaw⟩ := h place
  exact ⟨spot, c, by simp only [Scan.located, hflaw, Fault.placed]⟩

theorem closing {close : Scan ρ Unit} (h : Stops flaw scan i) : Stops flaw (closing close scan) i := by
  intro place
  obtain ⟨spot, c, hflaw⟩ := h place
  simp only [Scan.closing, hflaw, Fault.placed]
  cases close c with
  | ok _ d => exact ⟨spot, d, rfl⟩
  | error _ d => exact ⟨spot, d, rfl⟩

theorem listOpening {room : Nat} {inside : Nat → Scan ρ α} (h : Stops flaw (inside room) i) :
    Stops flaw (listOpening (room + 1) inside) (Byte.openBracket :: i) :=
  after (passes_advance _ i) h.closing

theorem objectOpening {room : Nat} {inside : Nat → Scan ρ α} (h : Stops flaw (inside room) i) :
    Stops flaw (objectOpening (room + 1) inside) (Byte.openBrace :: i) :=
  after (passes_advance _ i) h.closing

theorem member {gap : List UInt8} (hgap : Blank gap) (h : Stops flaw scan i) :
    Stops flaw (member scan) (gap ++ Byte.colon :: i) :=
  after (passes_colon hgap) h

theorem run (h : Stops flaw scan i) : ∃ spot, run scan i = .error (.flaw flaw spot) := by
  obtain ⟨spot, c, hflaw⟩ := h ⟨1, 0⟩
  exact ⟨spot, run_of_error hflaw⟩

end Stops

/-! ## Loops up to a gap -/

theorem stops_itemsFrom {step : σ → Scan ρ σ} {before : List Tree} {Inv : List Tree → σ → Prop}
    (hstep : ∀ done t left s m o, before = done ++ t :: left → Inv done s → t.Ahead m o →
      Yields (step s) m o (Inv (done ++ [t])) False)
    (hlast : ∀ s, Inv before s → Stops flaw (step s) i) {b : UInt8} (hb : i.head? = some b)
    (hspace : Byte.isSpace b = false) (hclose : b ≠ Byte.closeBracket) :
    ∀ (left done : List Tree) (s : σ) (first : Bool) (fuel : Nat) (front : List UInt8),
      before = done ++ left → Inv done s → Tree.ItemsUpTo first left front → front.length < fuel →
      Stops flaw (itemsFrom step fuel first s) (front ++ i)
  | [], done, s, first, fuel + 1, front, hbefore, hs, hfront, _ => by
      rw [List.append_nil] at hbefore
      obtain ⟨i, rfl⟩ : ∃ more, i = b :: more := List.head?_eq_some_iff.1 hb
      refine .after (passes_nextItem hspace hclose hfront) ?_
      exact (hlast s (hbefore ▸ hs)).bind _
  | t :: left, done, s, first, fuel + 1, front, hbefore, hs, hfront, hfuel => by
      obtain ⟨lead, text, more, hlead, htext, hmore, rfl⟩ := hfront
      obtain ⟨c, text', rfl, hc, hclose', -⟩ := head_of_spelledBy htext
      rw [List.append_assoc, List.append_assoc]
      refine .after (passes_nextItem hc hclose' hlead) ?_
      have hahead : t.Ahead (c :: text' ++ (more ++ i)) (more ++ i) :=
        ⟨[], _, blank_nil, htext, Tree.halts_itemsUpTo hmore i, rfl⟩
      refine .behind (hstep done t left s _ _ hbefore hs hahead) fun s' hs' => ?_
      refine stops_itemsFrom hstep hlast hb hspace hclose left (done ++ [t]) s' false fuel more ?_ hs'
        hmore ?_
      · simpa using hbefore
      · simp only [List.length_append, List.length_cons] at hfuel
        omega

theorem stops_membersFrom {step : σ → String → Scan ρ σ} {before : List (String × Tree)} {name : String}
    {Inv : List (String × Tree) → σ → Prop}
    (hstep : ∀ done other t left s m o, before = done ++ (other, t) :: left → Inv done s →
      t.BehindName m o → Yields (step s other) m o (Inv (done ++ [(other, t)])) False)
    (hlast : ∀ s gap gap', Inv before s → Blank gap → Blank gap' →
      Stops flaw (step s name) (gap ++ Byte.colon :: (gap' ++ i))) :
    ∀ (left done : List (String × Tree)) (s : σ) (first : Bool) (fuel : Nat) (front : List UInt8),
      before = done ++ left → Inv done s → Tree.MembersUpTo first left name front →
      front.length ≤ fuel → Stops flaw (membersFrom step fuel first s) (front ++ i)
  | [], done, s, first, fuel, front, hbefore, hs, hfront, hfuel => by
      obtain ⟨lead, title, gap, gap', hlead, htitle, hgap, hgap', rfl⟩ := hfront
      obtain ⟨fuel, rfl⟩ : ∃ n, fuel = n + 1 := by
        simp only [List.length_append, List.length_cons] at hfuel
        exact ⟨fuel - 1, by omega⟩
      rw [List.append_nil] at hbefore
      simp only [List.append_assoc, List.cons_append]
      refine .after (passes_nextName htitle hlead) ?_
      exact (hlast s gap gap' (hbefore ▸ hs) hgap hgap').bind _
  | (other, t) :: left, done, s, first, fuel, front, hbefore, hs, hfront, hfuel => by
      obtain ⟨lead, title, gap, gap', text, more, hlead, htitle, hgap, hgap', htext, hmore, rfl⟩ :=
        hfront
      simp only [List.length_append, List.length_cons] at hfuel
      obtain ⟨fuel, rfl⟩ : ∃ n, fuel = n + 1 := ⟨fuel - 1, by omega⟩
      have hahead : t.Ahead (gap' ++ (text ++ (more ++ i))) (more ++ i) :=
        ⟨gap', text, hgap', htext, Tree.halts_membersUpTo hmore i, rfl⟩
      simp only [List.append_assoc, List.cons_append]
      refine .after (passes_nextName htitle hlead) ?_
      refine .behind (hstep done other t left s _ _ hbefore hs ⟨gap, _, hgap, hahead, rfl⟩)
        fun s' hs' => ?_
      refine stops_membersFrom hstep hlast left (done ++ [(other, t)]) s' false fuel more ?_ hs' hmore
        (by omega)
      simpa using hbefore

/-- The items of a list, up to one that stops its reader. -/
theorem stops_items {step : σ → Scan ρ σ} {before : List Tree} (Inv : List Tree → σ → Prop) {s : σ}
    {front : List UInt8} (hfront : Tree.ItemsUpTo true before front) (hs : Inv [] s)
    (hstep : ∀ done t left s m o, before = done ++ t :: left → Inv done s → t.Ahead m o →
      Yields (step s) m o (Inv (done ++ [t])) False)
    (hlast : ∀ s, Inv before s → Stops flaw (step s) i) {b : UInt8} (hb : i.head? = some b)
    (hspace : Byte.isSpace b = false) (hclose : b ≠ Byte.closeBracket) :
    Stops flaw (items step s) (front ++ i) := by
  have hfuel : front.length < (front ++ i).length := by
    obtain ⟨more, rfl⟩ := List.head?_eq_some_iff.1 hb
    simp
  intro place
  exact stops_itemsFrom hstep hlast hb hspace hclose before [] s true _ front rfl hs hfront hfuel place

/-- The members of an object, up to one whose value stops its reader. -/
theorem stops_members {step : σ → String → Scan ρ σ} {before : List (String × Tree)} {name : String}
    (Inv : List (String × Tree) → σ → Prop) {s : σ} {front : List UInt8}
    (hfront : Tree.MembersUpTo true before name front) (hs : Inv [] s)
    (hstep : ∀ done other t left s m o, before = done ++ (other, t) :: left → Inv done s →
      t.BehindName m o → Yields (step s other) m o (Inv (done ++ [(other, t)])) False)
    (hlast : ∀ s gap gap', Inv before s → Blank gap → Blank gap' →
      Stops flaw (step s name) (gap ++ Byte.colon :: (gap' ++ i))) :
    Stops flaw (members step s) (front ++ i) := by
  have hfuel : front.length ≤ (front ++ i).length := by simp
  intro place
  exact stops_membersFrom hstep hlast before [] s true _ front rfl hs hfront hfuel place

end Scan

end OData.Json
