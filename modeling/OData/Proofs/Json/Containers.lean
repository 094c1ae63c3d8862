/-
# `OData.Proofs.Json.Containers` — loops over the parts of a container

What a loop over parts preserves, from what one part does: if `Inv` of the parts read so far and of
the state is kept by every part, it holds of all parts in the end.  A part that fails ends the loop,
and `bad` is then what its failure means for the whole container; so the parts in front of it, of
which `Inv` still holds, can be used to show it.

A part takes at least one byte, which is why the length of the text is enough fuel.
-/
import OData.Proofs.Json.Starts

namespace OData.Json.Scan

variable {ρ : Type} {α σ : Type} {i o gap lead : List UInt8}

/-! ## Between the parts -/

theorem isSpace_comma : Byte.isSpace Byte.comma = false := rfl

theorem passes_closeList (hgap : Blank gap) :
    Passes (ρ := ρ) closeList (gap ++ Byte.closeBracket :: o) () o :=
  (passes_space_cons hgap rfl).bind (passes_advance _ o)

theorem passes_closeObject (hgap : Blank gap) :
    Passes (ρ := ρ) closeObject (gap ++ Byte.closeBrace :: o) () o :=
  (passes_space_cons hgap rfl).bind (passes_advance _ o)

theorem passes_nextItem_end (first : Bool) (hgap : Blank gap) :
    Passes (ρ := ρ) (nextItem first) (gap ++ Byte.closeBracket :: o) false
      (Byte.closeBracket :: o) :=
  (passes_space_cons hgap rfl).bind (Passes.pure false _)

theorem passes_nextName_end (first : Bool) (hgap : Blank gap) :
    Passes (ρ := ρ) (nextName first) (gap ++ Byte.closeBrace :: o) none (Byte.closeBrace :: o) :=
  (passes_space_cons hgap rfl).bind (Passes.pure none _)

theorem passes_nextItem {b : UInt8} (hb : Byte.isSpace b = false) (hclose : b ≠ Byte.closeBracket) :
    ∀ {first : Bool}, Lead first lead →
      Passes (ρ := ρ) (nextItem first) (lead ++ b :: i) true (b :: i)
  | true, hlead => by
      refine (passes_space_cons hlead hb).bind ?_
      split
      · next heq => cases heq
      · next heq => exact absurd (Option.some.inj heq) hclose
      · next heq => exact Passes.pure true _
  | false, hlead => by
      obtain ⟨gap, gap', hgap, hgap', rfl⟩ := hlead
      rw [List.append_assoc]
      refine (passes_space_cons hgap isSpace_comma).bind ((passes_advance _ _).bind ?_)
      refine (passes_space_cons hgap' hb).bind ?_
      split
      · next heq => cases heq
      · next heq => exact absurd (Option.some.inj heq) hclose
      · next heq => exact Passes.pure true _

theorem tries_nextName {inside : List UInt8} {name? : Option String}
    (hbody : Tries (ρ := ρ) stringBody (inside ++ Byte.quote :: i) name? i) {first : Bool}
    (hlead : Lead first lead) :
    Tries (ρ := ρ) (nextName first) (lead ++ (Byte.quote :: (inside ++ [Byte.quote]) ++ i))
      (name?.map some) i := by
  have hname : Tries (ρ := ρ) (do openName; return some (← stringBody))
      (Byte.quote :: (inside ++ [Byte.quote]) ++ i) (name?.map some) i := by
    have hopen : Passes (ρ := ρ) openName (Byte.quote :: (inside ++ Byte.quote :: i)) ()
        (inside ++ Byte.quote :: i) :=
      (passes_peek _).bind (passes_advance _ _)
    rw [List.cons_append, List.append_assoc]
    exact hopen.bind_tries (hbody.map some)
  cases first with
  | true => exact (passes_space_cons hlead rfl).bind_tries hname
  | false =>
      obtain ⟨gap, gap', hgap, hgap', rfl⟩ := hlead
      rw [List.append_assoc]
      exact (passes_space_cons hgap isSpace_comma).bind_tries ((passes_advance _ _).bind_tries
        ((passes_space_cons hgap' rfl).bind_tries hname))

theorem passes_nextName {name : String} {title : List UInt8} (h : StringText name title)
    {first : Bool} (hlead : Lead first lead) :
    Passes (ρ := ρ) (nextName first) (lead ++ (title ++ i)) (some name) i := by
  obtain ⟨inside, hinside, rfl⟩ := h
  have hbody : Tries (ρ := ρ) stringBody (inside ++ Byte.quote :: i) (some name) i :=
    passes_stringBody hinside i
  exact tries_nextName hbody hlead

/-- A text spells one string at most. -/
theorem StringText.unique {s s' : String} {text : List UInt8} (h : StringText s text)
    (h' : StringText s' text) : s = s' := by
  have hlead : Lead true [] := blank_nil
  obtain ⟨p, hp⟩ := passes_nextName (ρ := Unit) (i := []) h hlead ⟨1, 0⟩
  obtain ⟨p', hp'⟩ := passes_nextName (ρ := Unit) (i := []) h' hlead ⟨1, 0⟩
  cases hp.symm.trans hp'
  rfl

theorem passes_colon (hgap : Blank gap) : Passes (ρ := ρ) colon (gap ++ Byte.colon :: i) () i :=
  (passes_space_cons hgap rfl).bind (passes_advance _ i)

theorem Yields.member {scan : Scan ρ α} {t : Tree} {good : α → Prop} {bad : Prop}
    (h : t.BehindName i o) (hscan : ∀ m, t.Ahead m o → Yields scan m o good bad) :
    Yields (member scan) i o good bad := by
  obtain ⟨gap, m, hgap, hm, rfl⟩ := h
  exact (passes_colon hgap).bind_yields (hscan m hm)

theorem halts_lead (h : Lead false lead) : Halts extendsNumber (lead ++ i) := by
  obtain ⟨gap, gap', hgap, -, rfl⟩ := h
  cases gap with
  | nil => exact halts_cons rfl
  | cons b gap => exact halts_cons (halts_of_blank hgap).head

theorem halts_end {b : UInt8} (hb : extendsNumber b = false) (hgap : Blank gap) :
    Halts extendsNumber (gap ++ b :: o) := by
  cases gap with
  | nil => exact halts_cons hb
  | cons c gap => exact halts_cons (halts_of_blank hgap).head

theorem halts_items {items : List Tree} {more : List UInt8}
    (h : Tree.ItemsSpelledBy false items more) :
    Halts extendsNumber (more ++ Byte.closeBracket :: o) := by
  cases items with
  | nil => exact halts_end rfl h
  | cons item items =>
      obtain ⟨lead, text, more, hlead, -, -, rfl⟩ := h
      rw [List.append_assoc]
      exact halts_lead hlead

theorem halts_members {members : List (String × Tree)} {more : List UInt8}
    (h : Tree.MembersSpelledBy false members more) :
    Halts extendsNumber (more ++ Byte.closeBrace :: o) := by
  cases members with
  | nil => exact halts_end rfl h
  | cons m members =>
      obtain ⟨lead, title, gap, gap', text, more, hlead, -, -, -, -, -, rfl⟩ := h
      rw [List.append_assoc]
      exact halts_lead hlead

/-! ## Loops -/

section Loops

variable {bad : Prop}

theorem yields_itemsFrom {step : σ → Scan ρ σ} {whole : List Tree} {Inv : List Tree → σ → Prop}
    (hstep : ∀ before t after s m o, whole = before ++ t :: after → Inv before s → t.Ahead m o →
      Yields (step s) m o (Inv (before ++ [t])) bad) :
    ∀ (left before : List Tree) (s : σ) (first : Bool) (fuel : Nat) (inside : List UInt8),
      whole = before ++ left → Inv before s → Tree.ItemsSpelledBy first left inside →
      inside.length < fuel →
      Yields (itemsFrom step fuel first s) (inside ++ Byte.closeBracket :: o)
        (Byte.closeBracket :: o) (Inv whole) bad
  | [], before, s, first, fuel + 1, inside, hwhole, hs, hinside, _ => by
      refine (passes_nextItem_end first hinside).bind_yields ?_
      rw [List.append_nil] at hwhole
      exact yields_pure (hwhole ▸ hs)
  -- `Inv` is about the items read so far; the induction is on those that are left.
  | t :: left, before, s, first, fuel + 1, inside, hwhole, hs, hinside, hfuel => by
      obtain ⟨lead, text, more, hlead, htext, hmore, rfl⟩ := hinside
      obtain ⟨b, text', rfl, hb, hclose, -⟩ := head_of_spelledBy htext
      rw [List.append_assoc, List.append_assoc]
      refine (passes_nextItem hb hclose hlead).bind_yields ?_
      have hahead : t.Ahead (b :: text' ++ (more ++ Byte.closeBracket :: o))
          (more ++ Byte.closeBracket :: o) :=
        ⟨[], _, blank_nil, htext, halts_items hmore, rfl⟩
      refine (hstep before t left s _ _ hwhole hs hahead).bind ?_ id
      intro s' hs'
      refine yields_itemsFrom hstep left (before ++ [t]) s' false fuel more ?_ hs' hmore ?_
      · simpa using hwhole
      · simp only [List.length_append, List.length_cons] at hfuel
        omega

theorem yields_membersFrom {step : σ → String → Scan ρ σ} {whole : List (String × Tree)}
    {Inv : List (String × Tree) → σ → Prop}
    (hstep : ∀ before name t after s m o, whole = before ++ (name, t) :: after → Inv before s →
      t.BehindName m o → Yields (step s name) m o (Inv (before ++ [(name, t)])) bad) :
    ∀ (left before : List (String × Tree)) (s : σ) (first : Bool) (fuel : Nat)
      (inside : List UInt8),
      whole = before ++ left → Inv before s → Tree.MembersSpelledBy first left inside →
      inside.length < fuel →
      Yields (membersFrom step fuel first s) (inside ++ Byte.closeBrace :: o)
        (Byte.closeBrace :: o) (Inv whole) bad
  | [], before, s, first, fuel + 1, inside, hwhole, hs, hinside, _ => by
      refine (passes_nextName_end first hinside).bind_yields ?_
      rw [List.append_nil] at hwhole
      exact yields_pure (hwhole ▸ hs)
  | (name, t) :: left, before, s, first, fuel + 1, inside, hwhole, hs, hinside, hfuel => by
      obtain ⟨lead, title, gap, gap', text, more, hlead, htitle, hgap, hgap', htext, hmore, rfl⟩ :=
        hinside
      have hahead : t.Ahead (gap' ++ (text ++ (more ++ Byte.closeBrace :: o)))
          (more ++ Byte.closeBrace :: o) :=
        ⟨gap', text, hgap', htext, halts_members hmore, rfl⟩
      simp only [List.append_assoc, List.cons_append]
      refine (passes_nextName htitle hlead).bind_yields ?_
      refine (hstep before name t left s _ _ hwhole hs ⟨gap, _, hgap, hahead, rfl⟩).bind ?_ id
      intro s' hs'
      refine yields_membersFrom hstep left (before ++ [(name, t)]) s' false fuel more ?_ hs' hmore ?_
      · simpa using hwhole
      · simp only [List.length_append, List.length_cons] at hfuel
        omega

/-- The items of a list, each read by `step`. -/
theorem yields_items {step : σ → Scan ρ σ} {whole : List Tree} (Inv : List Tree → σ → Prop) {s : σ}
    (h : Tree.ItemsAhead whole i o) (hs : Inv [] s)
    (hstep : ∀ before t after s m o, whole = before ++ t :: after → Inv before s → t.Ahead m o →
      Yields (step s) m o (Inv (before ++ [t])) bad) :
    Yields (items step s) i (Byte.closeBracket :: o) (Inv whole) bad := by
  obtain ⟨inside, hinside, rfl⟩ := h
  intro place
  exact yields_itemsFrom hstep whole [] s true _ inside rfl hs hinside (by simp) place

/-- The members of an object, each read by `step`. -/
theorem yields_members {step : σ → String → Scan ρ σ} {whole : List (String × Tree)}
    (Inv : List (String × Tree) → σ → Prop) {s : σ} (h : Tree.MembersAhead whole i o)
    (hs : Inv [] s)
    (hstep : ∀ before name t after s m o, whole = before ++ (name, t) :: after → Inv before s →
      t.BehindName m o → Yields (step s name) m o (Inv (before ++ [(name, t)])) bad) :
    Yields (members step s) i (Byte.closeBrace :: o) (Inv whole) bad := by
  obtain ⟨inside, hinside, rfl⟩ := h
  intro place
  exact yields_membersFrom hstep whole [] s true _ inside rfl hs hinside (by simp) place

/-- The items of a list, collected. -/
theorem yields_collect {scan : Scan ρ α} {whole : List Tree} (Good : List Tree → List α → Prop)
    (h : Tree.ItemsAhead whole i o) (hnil : Good [] [])
    (hscan : ∀ before t after as m o, whole = before ++ t :: after → Good before as → t.Ahead m o →
      Yields scan m o (fun a => Good (before ++ [t]) (as ++ [a])) bad) :
    Yields (collect scan) i (Byte.closeBracket :: o) (Good whole) bad := by
  have hitems : Yields (items (fun acc => return (← scan) :: acc) []) i (Byte.closeBracket :: o)
      (fun reversed : List α => Good whole reversed.reverse) bad := by
    refine yields_items (fun before (acc : List α) => Good before acc.reverse) h hnil ?_
    intro before t after acc m o hwhole hacc hm
    refine (hscan before t after acc.reverse m o hwhole hacc hm).bind ?_ id
    intro a ha
    refine yields_pure ?_
    rwa [List.reverse_cons]
  exact hitems.bind (fun _ h => yields_pure h) id

end Loops

/-! ## Brackets -/

variable {good : α → Prop} {bad : Prop} {room : Nat} {inside : Nat → Scan ρ α}

theorem Yields.listOpening {items : List Tree} (h : (Tree.list items).Opened i o)
    (hinside : ∀ m, Tree.ItemsAhead items m o →
      Yields (inside room) m (Byte.closeBracket :: o) good bad) :
    Yields (listOpening (room + 1) inside) i o good bad := by
  obtain ⟨m, hm, rfl⟩ := h
  exact (passes_advance _ m).bind_yields ((hinside m hm).closing (passes_closeList blank_nil))

theorem Yields.objectOpening {members : List (String × Tree)}
    (h : (Tree.object members).Opened i o)
    (hinside : ∀ m, Tree.MembersAhead members m o →
      Yields (inside room) m (Byte.closeBrace :: o) good bad) :
    Yields (objectOpening (room + 1) inside) i o good bad := by
  obtain ⟨m, hm, rfl⟩ := h
  exact (passes_advance _ m).bind_yields ((hinside m hm).closing (passes_closeObject blank_nil))

end OData.Json.Scan
