/-
# `OData.Proofs.Json.Passing` — what is read as a value can be passed as one

A reader that asks for a value of some kind and gets one has gone over a JSON value, whatever it asked
for: a reader that does not care what it is passes the same bytes (`ReadsValue`).  The two go over
containers differently.  A reader calls itself for what is inside, and `skip` keeps the open brackets on a
list; so what is said of a value is said for every list of brackets around it (`Passed`), and what is
said of a loop ends in front of the closing bracket (`Inside`).

Lists and objects differ only in the closing bracket and in what stands in front of a value, nothing or a
name (`before`).
-/
import OData.Proofs.Json.Covering
import OData.Proofs.Json.Following
import OData.Value.Scan

namespace OData.Json

variable {ρ : Type} {α β σ : Type}

namespace Cursor

/-- The cursor behind the blanks that come next. -/
def trim (c : Cursor) : Cursor := (span Byte.isSpace c.rest c.place).2

theorem span_behind (p : UInt8 → Bool) : ∀ (bytes : List UInt8) (place : Position),
    (span p (span p bytes place).2.rest (span p bytes place).2.place).2 = (span p bytes place).2
  | [], _ => rfl
  | b :: bytes, place => by
      by_cases hb : p b = true
      · simp only [span, if_pos hb]
        exact span_behind p bytes (place.after b)
      · simp only [span, if_neg hb]

@[simp] theorem trim_trim (c : Cursor) : c.trim.trim = c.trim := span_behind ..

end Cursor

/-- What closes a container. -/
def Bracket.closing : Bracket → UInt8
  | list => Byte.closeBracket
  | object => Byte.closeBrace

namespace Scan

variable {scan : Scan ρ α} {c d e : Cursor}

theorem takes_space {b? : Option UInt8} (h : c.trim.rest.head? = b?) :
    Takes (ρ := ρ) space c b? c.trim := by
  rw [← h]
  rfl

theorem leaves_space {k : Option UInt8 → Scan ρ β} {post : β → Cursor → Prop}
    (h : ∀ b?, c.trim.rest.head? = b? → Leaves (k b?) c.trim post) : Leaves (space >>= k) c post :=
  fun b c' hb => h _ rfl b c' hb

theorem Leaves.located {post : α → Cursor → Prop} (h : Leaves scan c post) :
    Leaves (located scan) c post :=
  fun a d ha => h a d (of_located_ok ha)

theorem Leaves.closing {close : Scan ρ Unit} {mid post : α → Cursor → Prop} (h : Leaves scan c mid)
    (hclose : ∀ a d, mid a d → Leaves close d fun _ e => post a e) :
    Leaves (closing close scan) c post := by
  intro a e ha
  obtain ⟨d, hinside, hend⟩ := exists_of_closing_ok ha
  exact hclose a d (h a d hinside) () e hend

/-! ## Values -/

variable (ρ) in
/-- From `c` to `d` a value can be passed, whatever is open around it. -/
def Passed (c d : Cursor) : Prop :=
  ∀ outer, ∃ upcoming outer' e, Takes (ρ := ρ) (skipStart outer) c (upcoming, outer') e ∧
    Reaches (ρ := ρ) (skipFrom · upcoming outer') e (skipFrom · .afterValue outer) d

/-- What `scan` reads can be passed. -/
def ReadsValue (scan : Scan ρ α) : Prop := ∀ c, Leaves scan c fun _ d => Passed ρ c d

/-- What `scan` reads behind a name can be passed. -/
def ReadsMember (scan : Scan ρ α) : Prop :=
  ∀ c, Leaves scan c fun _ d => ∃ e, Takes (ρ := ρ) colon c () e ∧ Passed ρ e d

theorem reaches_start {outer outer' : List Bracket} {upcoming : Upcoming}
    (h : Takes (ρ := ρ) (skipStart outer) c (upcoming, outer') d) :
    Reaches (ρ := ρ) (skipFrom · .value outer) c (skipFrom · upcoming outer') d := by
  refine Reaches.step (advances_skipStart outer c _ d h) ?_
  intro fuel
  rw [skipFrom]
  exact h.bind_eq

theorem Passed.reaches (h : Passed ρ c d) (outer : List Bracket) :
    Reaches (ρ := ρ) (skipFrom · .value outer) c (skipFrom · .afterValue outer) d := by
  obtain ⟨upcoming, outer', e, hstart, hreaches⟩ := h outer
  exact (reaches_start hstart).trans hreaches

/-- Blanks are passed once. -/
theorem space_trim (c : Cursor) : space (ρ := ρ) c.trim = space c := by
  show EStateM.Result.ok c.trim.trim.rest.head? c.trim.trim = .ok c.trim.rest.head? c.trim
  rw [Cursor.trim_trim]

theorem skipStart_trim (outer : List Bracket) (c : Cursor) :
    skipStart (ρ := ρ) outer c.trim = skipStart outer c := by
  simp only [skipStart, Bind.bind, EStateM.bind, space_trim]

/-- Blanks in front of a value are passed with it. -/
theorem Passed.of_trim (h : Passed ρ c.trim d) : Passed ρ c d := by
  intro outer
  obtain ⟨upcoming, outer', e, hstart, hreaches⟩ := h outer
  refine ⟨upcoming, outer', e, ?_, hreaches⟩
  rwa [Takes, skipStart_trim] at hstart

theorem reaches_separator {bracket : Bracket} {outer outer' : List Bracket} {upcoming : Upcoming}
    (h : Takes (ρ := ρ) (skipSeparator bracket outer) c (upcoming, outer') d) :
    Reaches (ρ := ρ) (skipFrom · .afterValue (bracket :: outer)) c (skipFrom · upcoming outer') d := by
  refine Reaches.step (advances_skipSeparator bracket outer c _ d h) ?_
  intro fuel
  rw [skipFrom]
  exact h.bind_eq

/-! ## The insides of containers -/

/-- What stands in front of a value in a container: the name of a member. -/
def before : Bracket → Scan ρ Unit
  | .list => pure ()
  | .object => skipName

section Brackets

variable {bracket : Bracket} {outer : List Bracket}

theorem takes_skipSeparator_comma (hc : c.trim.rest.head? = some Byte.comma)
    (h : Takes (ρ := ρ) (before bracket) c.trim.next () d) :
    Takes (ρ := ρ) (skipSeparator bracket outer) c (.value, bracket :: outer) d := by
  cases bracket with
  | list =>
      cases h
      exact (takes_space hc).bind ((takes_advance _).bind (takes_pure _ _))
  | object => exact (takes_space hc).bind ((takes_advance _).bind (h.bind (takes_pure _ _)))

theorem takes_skipSeparator_closing (hc : c.trim.rest.head? = some bracket.closing) :
    Takes (ρ := ρ) (skipSeparator bracket outer) c (.afterValue, outer) c.trim.next := by
  cases bracket with
  | list => exact (takes_space hc).bind ((takes_advance _).bind (takes_pure _ _))
  | object => exact (takes_space hc).bind ((takes_advance _).bind (takes_pure _ _))

theorem takes_skipOpening_closing (hc : c.next.trim.rest.head? = some bracket.closing) :
    Takes (ρ := ρ) (skipOpening bracket outer) c (.afterValue, outer) c.next.trim.next := by
  cases bracket with
  | list =>
      exact (takes_advance c).bind
        ((takes_space hc).bind ((takes_advance _).bind (takes_pure _ _)))
  | object =>
      exact (takes_advance c).bind
        ((takes_space hc).bind ((takes_advance _).bind (takes_pure _ _)))

theorem takes_skipOpening_before {b : UInt8} (hc : c.next.trim.rest.head? = some b)
    (hb : b ≠ bracket.closing) (h : Takes (ρ := ρ) (before bracket) c.next.trim () d) :
    Takes (ρ := ρ) (skipOpening bracket outer) c (.value, bracket :: outer) d := by
  cases bracket with
  | list =>
      cases h
      refine (takes_advance c).bind ((takes_space hc).bind ?_)
      split
      · next heq => cases heq
      · next heq => exact absurd (Option.some.inj heq) hb
      · exact takes_pure _ _
  | object =>
      refine (takes_advance c).bind ((takes_space hc).bind ?_)
      split
      · next heq => cases heq
      · next heq => exact absurd (Option.some.inj heq) hb
      · exact h.bind (takes_pure _ _)

end Brackets

variable (ρ) in
/-- From `c` to `d` the inside of a container can be passed, `d` being in front of the closing bracket. -/
inductive Inside (bracket : Bracket) (c d : Cursor) : Prop where
  | empty (hclosing : c.trim.rest.head? = some bracket.closing) (hd : d = c.trim)
  | parts {b : UInt8} {f e : Cursor} (hb : c.trim.rest.head? = some b) (hne : b ≠ bracket.closing)
      (hbefore : Takes (ρ := ρ) (before bracket) c.trim () f)
      (hparts : ∀ outer, Reaches (ρ := ρ) (skipFrom · .value (bracket :: outer)) f
        (skipFrom · .afterValue (bracket :: outer)) e)
      (hd : d = e.trim)

variable (ρ) in
/-- From `c`, behind a value in a container, to `d`, in front of the closing bracket, the rest of the
container can be passed. -/
def Rest (bracket : Bracket) (c d : Cursor) : Prop :=
  ∃ e, d = e.trim ∧ ∀ outer, Reaches (ρ := ρ) (skipFrom · .afterValue (bracket :: outer)) c
    (skipFrom · .afterValue (bracket :: outer)) e

variable {bracket : Bracket}

theorem Rest.here (hd : d = c.trim) : Rest ρ bracket c d :=
  ⟨c, hd, fun _ => Reaches.refl _ c⟩

/-- A comma, a further value, and the rest. -/
theorem Rest.more {f : Cursor} (hcomma : c.trim.rest.head? = some Byte.comma)
    (hbefore : Takes (ρ := ρ) (before bracket) c.trim.next () f) (hvalue : Passed ρ f e)
    (hrest : Rest ρ bracket e d) : Rest ρ bracket c d := by
  obtain ⟨g, hd, hreaches⟩ := hrest
  refine ⟨g, hd, ?_⟩
  intro outer
  exact (reaches_separator (takes_skipSeparator_comma hcomma hbefore)).trans
    ((hvalue.reaches _).trans (hreaches outer))

theorem Inside.of_rest {b : UInt8} {f : Cursor} (hb : c.trim.rest.head? = some b)
    (hne : b ≠ bracket.closing) (hbefore : Takes (ρ := ρ) (before bracket) c.trim () f)
    (hvalue : Passed ρ f e) (hrest : Rest ρ bracket e d) : Inside ρ bracket c d := by
  obtain ⟨g, hd, hreaches⟩ := hrest
  exact .parts hb hne hbefore (fun outer => (hvalue.reaches _).trans (hreaches outer)) hd

/-- What is inside of a container, between its brackets. -/
theorem Inside.closed (h : Inside ρ bracket c.next d) (hd : d.trim.rest.head? = some bracket.closing)
    (outer : List Bracket) :
    ∃ upcoming outer' e, Takes (ρ := ρ) (skipOpening bracket outer) c (upcoming, outer') e ∧
      Reaches (ρ := ρ) (skipFrom · upcoming outer') e (skipFrom · .afterValue outer) d.trim.next := by
  cases h with
  | empty hclosing hend =>
      subst hend
      rw [Cursor.trim_trim]
      exact ⟨_, _, _, takes_skipOpening_closing hclosing, Reaches.refl _ _⟩
  | @parts b f e hb hne hbefore hparts hend =>
      subst hend
      rw [Cursor.trim_trim] at hd ⊢
      refine ⟨_, _, _, takes_skipOpening_before hb hne hbefore, (hparts outer).trans ?_⟩
      exact reaches_separator (takes_skipSeparator_closing hd)

/-- What `scan` reads is the inside of a container. -/
def Fills (bracket : Bracket) (scan : Scan ρ α) : Prop :=
  ∀ c, Leaves scan c fun _ d => Inside ρ bracket c d

end Scan

end OData.Json
