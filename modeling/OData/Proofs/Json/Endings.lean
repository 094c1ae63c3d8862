/-
# `OData.Proofs.Json.Endings` — which values the end of a text cuts short

A number ends where no digit follows, a string at its closing mark.  So if a text ends behind a number
the number may be longer in a longer text, and a string may not.  Here this is said of every scan, in
the terms of `Keeps`: numbers, words and passed values are steady, strings, names and the insides of
containers firm.

A loop over items or members is firm whatever its steps are: where the text ends, there is no further
item, and no end of the container either.
-/
import OData.Proofs.Json.Numbers
import OData.Proofs.Json.Persisting
import OData.Proofs.Json.Strings
import OData.Value.Scan

namespace OData.Json.Scan

variable {ρ : Type} {α σ : Type} {scan : Scan ρ α} {cut : α → Prop}

/-! ## Numbers -/

theorem steady_digits : Steady (ρ := ρ) digits :=
  (steady_takeWhile _).after_steady fun _ => keeps_pure trivial

theorem steady_scaledHere (negative : Bool) (n : Nat) (e : Int) :
    Steady (ρ := ρ) (scaledHere negative n e) := by
  unfold scaledHere
  split
  · exact keeps_pure trivial
  · exact keeps_flawHere _

theorem steady_exponentSign : Steady (ρ := ρ) exponentSign := by
  refine keeps_peek.after_steady ?_
  intro b?
  split
  · exact steady_advance.after_steady fun _ => keeps_pure trivial
  · exact steady_advance.after_steady fun _ => keeps_pure trivial
  · exact keeps_pure trivial

/-- The fuel is the number of bytes that are left, so that it does not run out before they do. -/
theorem lasts_exponentDigits (more : List UInt8) : ∀ {fuel fuel' : Nat} (n : Nat) (c : Cursor),
    c.rest.length ≤ fuel → fuel ≤ fuel' →
      Lasts (fun _ => True) more (exponentDigits (ρ := ρ) fuel n c)
        (exponentDigits fuel' n (c.append more))
  | fuel, fuel', n, ⟨[], place⟩, _, _ => by
      rw [exponentDigits_nil]
      exact .inr ⟨trivial, rfl⟩
  | fuel + 1, fuel' + 1, n, ⟨b :: rest, place⟩, hrest, hfuel => by
      have hlonger : Cursor.append ⟨b :: rest, place⟩ more = ⟨b :: (rest ++ more), place⟩ := rfl
      rw [hlonger, exponentDigits_cons, exponentDigits_cons]
      cases Byte.digit? b with
      | none => exact .inl rfl
      | some d =>
          dsimp only
          split
          · exact lasts_exponentDigits more _ ⟨rest, place.after b⟩ (Nat.le_of_succ_le_succ hrest)
              (Nat.le_of_succ_le_succ hfuel)
          · exact .inl rfl

theorem steady_exponentDigits (n : Nat) :
    Steady (ρ := ρ) fun c => exponentDigits c.rest.length n c where
  persists := fun c more => lasts_exponentDigits more n c (Nat.le_refl _) (length_append c more)
  atEnd := by
    rintro ⟨rest, place⟩ rfl
    exact ⟨trivial, rfl⟩

theorem steady_exponent (negative : Bool) (n : Nat) (place : Int) :
    Steady (ρ := ρ) (exponent negative n place) := by
  refine steady_advance.after_steady ?_
  intro _
  refine steady_exponentSign.after_steady ?_
  intro down
  refine keeps_next.after_steady ?_
  intro b?
  split
  · exact keeps_flawHere _
  split
  · exact keeps_flawHere _
  refine (steady_exponentDigits _).after_steady ?_
  intro digits?
  split
  · exact steady_scaledHere ..
  split
  · exact keeps_flawHere _
  · exact steady_digits.after_steady fun _ => keeps_pure trivial

theorem steady_exponent? (negative : Bool) (n : Nat) (place : Int) :
    Steady (ρ := ρ) (exponent? negative n place) := by
  refine keeps_peek.after_steady ?_
  intro b?
  split
  · exact steady_exponent ..
  · exact steady_exponent ..
  · exact steady_scaledHere ..

theorem steady_fraction (negative : Bool) (n place : Nat) :
    Steady (ρ := ρ) (fraction negative n place) := by
  refine steady_advance.after_steady ?_
  intro _
  refine steady_digits.after_steady ?_
  intro ds
  split
  · refine keeps_peek.after_steady ?_
    intro b?
    split
    · exact keeps_flawNext _
    · exact keeps_flawNext _
  · exact steady_exponent? ..

theorem steady_numberRest (negative : Bool) (ds : List Nat) :
    Steady (ρ := ρ) (numberRest negative ds) := by
  refine keeps_peek.after_steady ?_
  intro b?
  split
  · exact steady_fraction ..
  · exact steady_exponent ..
  · exact steady_exponent ..
  · split
    · exact keeps_pure trivial
    · exact steady_scaledHere ..

theorem steady_number (negative : Bool) : Steady (ρ := ρ) (number negative) := by
  refine keeps_next.after_steady ?_
  intro b?
  split
  · exact keeps_flawHere _
  split
  · exact keeps_flawHere _
  · refine keeps_peek.after_steady ?_
    intro next?
    split
    · exact keeps_flawNext _
    · exact steady_numberRest ..
  · exact steady_digits.after_steady fun _ => steady_numberRest ..

/-! ## Strings -/

theorem steady_hexEscape : Steady (ρ := ρ) hexEscape where
  persists := by
    rintro ⟨rest, place⟩ more
    unfold hexEscape
    split
    · next a b d e rest hrest =>
        subst hrest
        simp only [Cursor.append, List.cons_append]
        split
        · exact .inl rfl
        · rintro _ ⟨⟩
    · rintro _ ⟨⟩
  atEnd := by
    rintro ⟨rest, place⟩ rfl
    rintro _ ⟨⟩

theorem steady_pairByte (b : UInt8) : Steady (ρ := ρ) (pairByte b) := by
  refine keeps_peek.after_steady ?_
  intro a?
  split
  · exact keeps_flawHere _
  · refine steady_advance.after_steady ?_
    intro _
    split
    · exact keeps_pure trivial
    · exact keeps_flawHere _

theorem steady_codeEscape : Steady (ρ := ρ) codeEscape := by
  refine steady_hexEscape.after_steady ?_
  intro n
  split
  · exact keeps_flawHere _
  split
  · refine (steady_pairByte _).after_steady fun _ => (steady_pairByte _).after_steady fun _ => ?_
    refine steady_hexEscape.after_steady ?_
    intro m
    split
    · exact keeps_pure trivial
    · exact keeps_flawHere _
  · exact keeps_pure trivial

theorem steady_escape : Steady (ρ := ρ) escape := by
  refine keeps_next.after_steady ?_
  intro b?
  split
  · exact keeps_flawHere _
  · exact steady_codeEscape.after_steady fun _ => keeps_pure trivial
  · split
    · exact keeps_pure trivial
    · exact keeps_flawHere _

/-- Only the closing mark ends a string, whatever comes in front of it. -/
theorem keeps_stringPiece : Keeps (ρ := ρ) (fun piece? => ∃ piece, piece? = some piece) stringPiece := by
  refine keeps_next.look ?_ (keeps_flawHere _).atEnd
  intro b?
  split
  · exact (keeps_flawHere _).persists
  · exact persists_pure none
  · exact (steady_escape.bind (fun _ => persists_pure _) fun piece _ =>
      (keeps_pure ⟨piece, rfl⟩).atEnd).persists
  · split
    · exact (keeps_flawHere _).persists
    · exact persists_pure _

theorem atEnd_stringBytes (fuel : Nat) (acc : List UInt8) :
    AtEnd (ρ := ρ) (fun _ => False) (stringBytes fuel acc) := by
  cases fuel with
  | zero => exact (keeps_flawHere _).atEnd
  | succ fuel =>
      have hpiece : AtEnd (ρ := ρ) (fun _ => False) stringPiece :=
        keeps_next.atEnd.bind fun _ hb => hb ▸ (keeps_flawHere _).atEnd
      exact hpiece.bind fun _ => False.elim

theorem persistsTo_stringBytes : ∀ {fuel fuel' : Nat}, fuel ≤ fuel' → ∀ acc,
    PersistsTo (ρ := ρ) (fun _ => False) (stringBytes fuel acc) (stringBytes fuel' acc)
  | 0, _, _, _ => fun _ _ _ => nofun
  | fuel + 1, fuel' + 1, hfuel, acc => by
      refine PersistsTo.bind keeps_stringPiece.persists ?_ ?_
      · intro piece?
        cases piece? with
        | none => exact persists_pure _
        | some piece => exact persistsTo_stringBytes (Nat.le_of_succ_le_succ hfuel) _
      · rintro _ ⟨piece, rfl⟩
        exact atEnd_stringBytes fuel _

theorem firm_stringBody : Firm (ρ := ρ) stringBody := by
  have hbytes : Firm (ρ := ρ) fun c => stringBytes c.rest.length [] c :=
    ⟨fun c more => persistsTo_stringBytes (length_append c more) [] c more,
      fun c => atEnd_stringBytes c.rest.length [] c⟩
  refine hbytes.after ?_
  intro bytes
  unfold decodeText
  split
  · exact persists_pure _
  · exact fun _ _ _ => nofun

theorem steady_skipEscape : Steady (ρ := ρ) skipEscape := by
  refine keeps_next.after_steady ?_
  intro b?
  split
  · exact keeps_flawHere _
  · exact steady_hexEscape.after_steady fun _ => keeps_pure trivial
  · split
    · exact keeps_pure trivial
    · exact keeps_flawHere _

theorem steady_skipPiece : Steady (ρ := ρ) skipPiece := by
  refine keeps_peek.after_steady ?_
  intro b?
  split
  · exact keeps_flawHere _
  · exact steady_advance.after_steady fun _ => keeps_pure trivial
  · exact steady_advance.after_steady fun _ => steady_skipEscape.after_steady fun _ =>
      keeps_pure trivial
  · split
    · exact keeps_flawHere _
    · exact steady_advance.after_steady fun _ => keeps_pure trivial

theorem atEnd_skipString : ∀ fuel : Nat, AtEnd (ρ := ρ) (fun _ => True) (skipString fuel)
  | 0 => (keeps_flawHere _).atEnd
  | fuel + 1 => by
      rw [skipString_succ]
      refine steady_skipPiece.atEnd.bind ?_
      intro more _
      split
      · exact atEnd_skipString fuel
      · exact (keeps_pure trivial).atEnd

theorem persistsTo_skipString : ∀ {fuel fuel' : Nat}, fuel ≤ fuel' →
    PersistsTo (ρ := ρ) (fun _ => True) (skipString fuel) (skipString fuel')
  | 0, _, _ => fun _ _ _ => nofun
  | fuel + 1, fuel' + 1, hfuel => by
      rw [skipString_succ, skipString_succ]
      refine PersistsTo.bind steady_skipPiece.persists ?_ ?_
      · intro more
        cases more with
        | false => exact persists_pure ()
        | true => exact persistsTo_skipString (Nat.le_of_succ_le_succ hfuel)
      · intro more _
        split
        · exact atEnd_skipString fuel
        · exact (keeps_pure trivial).atEnd

theorem steady_skipStringBody : Steady (ρ := ρ) skipStringBody :=
  ⟨fun c more => persistsTo_skipString (length_append c more) c more,
    fun c => atEnd_skipString c.rest.length c⟩

/-! ## How a value starts -/

theorem steady_word : ∀ ws : List UInt8, Steady (ρ := ρ) (word ws)
  | [] => keeps_pure trivial
  | w :: ws => by
      refine keeps_next.after_steady ?_
      intro b?
      split
      · exact keeps_flawHere _
      · split
        · exact steady_word ws
        · exact keeps_flawHere _

theorem steady_wordFrom (text : String) : Steady (ρ := ρ) (wordFrom text) :=
  steady_advance.after_steady fun _ => steady_word _

/-- A value without a mark at its end. -/
def Start.Open (s : Start) : Prop := ∃ x, s = .scalar x ∧ ∀ text, x ≠ .string text

theorem keeps_start : Keeps (ρ := ρ) Start.Open start := by
  have hword : ∀ text x, (∀ text, x ≠ Scalar.string text) →
      Persists (ρ := ρ) Start.Open (wordFrom text >>= fun _ => pure (.scalar x)) := by
    intro text x hx
    exact (steady_wordFrom text).persists.bind (fun _ => persists_pure _) fun _ _ =>
      (keeps_pure ⟨x, rfl, hx⟩).atEnd
  have hnumber : ∀ negative, Keeps (ρ := ρ) Start.Open
      (number negative >>= fun n => pure (.scalar (.number n))) := by
    intro negative
    exact (steady_number negative).bind (fun _ => persists_pure _) fun n _ =>
      (keeps_pure ⟨.number n, rfl, nofun⟩).atEnd
  refine keeps_space.look ?_ (keeps_flawNext _).atEnd
  intro b?
  split
  · exact (keeps_flawNext _).persists
  · exact hword _ _ nofun
  · exact hword _ _ nofun
  · exact hword _ _ nofun
  · exact steady_advance.persists.bind (fun _ => (hnumber true).persists) fun _ _ =>
      (hnumber true).atEnd
  · have hstring : Keeps (ρ := ρ) Start.Open (stringBody >>= fun s => pure (.scalar (.string s))) :=
      firm_stringBody.after fun _ => persists_pure _
    exact steady_advance.persists.bind (fun _ => hstring.persists) fun _ _ => hstring.atEnd
  · exact persists_pure _
  · exact persists_pure _
  · split
    · exact (hnumber false).persists
    · exact (keeps_flawNext _).persists

/-- What is made of the start of a value that may be of any kind. -/
theorem steady_start_bind {k : Start → Scan ρ α} (hk : ∀ s, Persists (fun _ => True) (k s))
    (hscalar : ∀ x, AtEnd (fun _ => True) (k (.scalar x))) : Steady (start >>= k) := by
  refine keeps_start.bind hk ?_
  rintro _ ⟨x, rfl, -⟩
  exact hscalar x

theorem keeps_mismatch (s : Start) (expected : String) :
    Keeps cut (mismatch s expected : Scan ρ α) :=
  keeps_misfit _

theorem firm_anyString : Firm (ρ := ρ) anyString := by
  refine Keeps.located (keeps_start.bind ?_ ?_)
  · intro s
    split
    · exact persists_pure _
    · exact (keeps_mismatch _ _).persists
  · rintro _ ⟨x, rfl, hx⟩
    split
    · next text heq => exact absurd (Start.scalar.inj heq) (hx text)
    · exact (keeps_mismatch _ _).atEnd

/-! ## The insides of containers -/

theorem firm_nextItem (first : Bool) : Firm (ρ := ρ) (nextItem first) := by
  refine keeps_space.look ?_ (keeps_flawNext _).atEnd
  intro b?
  split
  · exact (keeps_flawNext _).persists
  · exact persists_pure _
  · split
    · exact persists_pure _
    split
    · refine (steady_advance.after_firm fun _ => ?_).persists
      refine keeps_space.look ?_ (keeps_flawNext _).atEnd
      intro b?
      split
      · exact (keeps_flawNext _).persists
      · exact (keeps_flawNext _).persists
      · exact persists_pure _
    · exact (keeps_flawNext _).persists

theorem steady_openName : Steady (ρ := ρ) openName := by
  refine keeps_peek.after_steady ?_
  intro b?
  split
  · exact steady_advance
  · exact keeps_flawNext _

theorem firm_nextName (first : Bool) : Firm (ρ := ρ) (nextName first) := by
  have hname : Firm (ρ := ρ) (do openName; return some (← stringBody)) :=
    steady_openName.after_firm fun _ => firm_stringBody.after fun _ => persists_pure _
  refine keeps_space.look ?_ (keeps_flawNext _).atEnd
  intro b?
  split
  · exact (keeps_flawNext _).persists
  · exact persists_pure _
  · split
    · exact hname.persists
    split
    · refine (steady_advance.after_firm fun _ => ?_).persists
      refine keeps_space.look ?_ (keeps_flawNext _).atEnd
      intro b?
      split
      · exact (keeps_flawNext _).persists
      · exact (keeps_flawNext _).persists
      · exact hname.persists
    · exact (keeps_flawNext _).persists

theorem Keeps.member (h : Keeps cut scan) : Keeps cut (member scan) := by
  have hcolon : Steady (ρ := ρ) colon := by
    refine keeps_space.after_steady ?_
    intro b?
    split
    · exact steady_advance
    · exact keeps_flawNext _
    · exact keeps_flawNext _
  exact hcolon.bind (fun _ => h.persists) fun _ _ => h.atEnd

theorem atEnd_itemsFrom {step : σ → Scan ρ σ} (fuel : Nat) (first : Bool) (s : σ) :
    AtEnd (fun _ => False) (itemsFrom step fuel first s) := by
  cases fuel with
  | zero => exact (keeps_flawNext _).atEnd
  | succ fuel => exact (firm_nextItem first).atEnd.bind fun _ => False.elim

/-- An item may be cut short, but then there is no end of the list. -/
theorem firm_items {step : σ → Scan ρ σ} (hstep : ∀ s, Persists (fun _ => True) (step s)) (s : σ) :
    Firm (items step s) := by
  have hloop : ∀ {fuel fuel' : Nat}, fuel ≤ fuel' → ∀ (first : Bool) (s : σ),
      PersistsTo (fun _ => False) (itemsFrom step fuel first s) (itemsFrom step fuel' first s) := by
    intro fuel
    induction fuel with
    | zero => exact fun _ _ _ _ _ _ => nofun
    | succ fuel ih =>
        intro fuel' hfuel first s
        obtain ⟨fuel', rfl⟩ := Nat.exists_eq_add_of_lt hfuel
        refine PersistsTo.bind (firm_nextItem first).persists ?_ fun _ => False.elim
        intro more
        cases more with
        | false => exact persists_pure s
        | true =>
            exact PersistsTo.bind (hstep s) (fun s => ih (by omega) false s) fun s _ =>
              atEnd_itemsFrom fuel false s
  exact ⟨fun c more => hloop (length_append c more) true s c more,
    fun c => atEnd_itemsFrom c.rest.length true s c⟩

theorem atEnd_membersFrom {step : σ → String → Scan ρ σ} (fuel : Nat) (first : Bool) (s : σ) :
    AtEnd (fun _ => False) (membersFrom step fuel first s) := by
  cases fuel with
  | zero => exact (keeps_flawNext _).atEnd
  | succ fuel => exact (firm_nextName first).atEnd.bind fun _ => False.elim

/-- A member may be cut short, but then there is no end of the object. -/
theorem firm_members {step : σ → String → Scan ρ σ}
    (hstep : ∀ s name, Persists (fun _ => True) (step s name)) (s : σ) : Firm (members step s) := by
  have hloop : ∀ {fuel fuel' : Nat}, fuel ≤ fuel' → ∀ (first : Bool) (s : σ),
      PersistsTo (fun _ => False) (membersFrom step fuel first s)
        (membersFrom step fuel' first s) := by
    intro fuel
    induction fuel with
    | zero => exact fun _ _ _ _ _ _ => nofun
    | succ fuel ih =>
        intro fuel' hfuel first s
        obtain ⟨fuel', rfl⟩ := Nat.exists_eq_add_of_lt hfuel
        refine PersistsTo.bind (firm_nextName first).persists ?_ fun _ => False.elim
        intro name?
        cases name? with
        | none => exact persists_pure s
        | some name =>
            exact PersistsTo.bind (hstep s name) (fun s => ih (by omega) false s) fun s _ =>
              atEnd_membersFrom fuel false s
  exact ⟨fun c more => hloop (length_append c more) true s c more,
    fun c => atEnd_membersFrom c.rest.length true s c⟩

theorem firm_collect (h : Steady scan) : Firm (collect scan) := by
  have hitems : Firm (items (fun acc => return (← scan) :: acc) []) :=
    firm_items (fun acc => (h.after_steady fun _ => keeps_pure trivial).persists) []
  exact hitems.after fun _ => persists_pure _

/-! ## Passed values -/

theorem steady_skipName : Steady (ρ := ρ) skipName := by
  refine keeps_space.after_steady ?_
  intro b?
  split
  · exact keeps_flawNext _
  · refine steady_advance.after_steady fun _ => steady_skipStringBody.after_steady fun _ => ?_
    refine keeps_space.after_steady ?_
    intro b?
    split
    · exact keeps_flawNext _
    · exact steady_advance
    · exact keeps_flawNext _
  · exact keeps_flawNext _

theorem steady_skipOpening (bracket : Bracket) (outer : List Bracket) :
    Steady (ρ := ρ) (skipOpening bracket outer) := by
  cases bracket with
  | list =>
      refine steady_advance.after_steady fun _ => keeps_space.after_steady ?_
      intro b?
      split
      · exact keeps_flawNext _
      · exact steady_advance.after_steady fun _ => keeps_pure trivial
      · exact keeps_pure trivial
  | object =>
      refine steady_advance.after_steady fun _ => keeps_space.after_steady ?_
      intro b?
      split
      · exact keeps_flawNext _
      · exact steady_advance.after_steady fun _ => keeps_pure trivial
      · exact steady_skipName.after_steady fun _ => keeps_pure trivial

theorem steady_skipExponent : Steady (ρ := ρ) skipExponent := by
  refine steady_advance.after_steady fun _ => steady_exponentSign.after_steady fun _ => ?_
  refine keeps_next.after_steady ?_
  intro b?
  split
  · exact keeps_flawHere _
  · exact steady_digits.after_steady fun _ => keeps_pure trivial

theorem steady_skipExponent? : Steady (ρ := ρ) skipExponent? := by
  refine keeps_peek.after_steady ?_
  intro b?
  split
  · exact steady_skipExponent
  · exact steady_skipExponent
  · exact keeps_pure trivial

theorem steady_skipNumberRest : Steady (ρ := ρ) skipNumberRest := by
  refine keeps_peek.after_steady ?_
  intro b?
  split
  · refine steady_advance.after_steady fun _ => steady_digits.after_steady ?_
    intro ds
    split
    · exact keeps_flawNext _
    · exact steady_skipExponent?
  · exact steady_skipExponent?

theorem steady_skipNumber : Steady (ρ := ρ) skipNumber := by
  refine keeps_next.after_steady ?_
  intro b?
  split
  · exact keeps_flawHere _
  · refine keeps_peek.after_steady ?_
    intro next?
    split
    · exact keeps_flawNext _
    · exact steady_skipNumberRest
  · exact steady_digits.after_steady fun _ => steady_skipNumberRest

theorem steady_skipStart (outer : List Bracket) : Steady (ρ := ρ) (skipStart outer) := by
  refine keeps_space.after_steady ?_
  intro b?
  split
  · exact keeps_flawNext _
  · exact (steady_wordFrom _).after_steady fun _ => keeps_pure trivial
  · exact (steady_wordFrom _).after_steady fun _ => keeps_pure trivial
  · exact (steady_wordFrom _).after_steady fun _ => keeps_pure trivial
  · exact steady_advance.after_steady fun _ => steady_skipNumber.after_steady fun _ =>
      keeps_pure trivial
  · exact steady_advance.after_steady fun _ => steady_skipStringBody.after_steady fun _ =>
      keeps_pure trivial
  · exact steady_skipOpening ..
  · exact steady_skipOpening ..
  · split
    · exact steady_skipNumber.after_steady fun _ => keeps_pure trivial
    · exact keeps_flawNext _

theorem steady_skipSeparator (bracket : Bracket) (outer : List Bracket) :
    Steady (ρ := ρ) (skipSeparator bracket outer) := by
  cases bracket with
  | list =>
      refine keeps_space.after_steady ?_
      intro b?
      split
      · exact keeps_flawNext _
      · exact steady_advance.after_steady fun _ => keeps_pure trivial
      · exact steady_advance.after_steady fun _ => keeps_pure trivial
      · exact keeps_flawNext _
  | object =>
      refine keeps_space.after_steady ?_
      intro b?
      split
      · exact keeps_flawNext _
      · exact steady_advance.after_steady fun _ => steady_skipName.after_steady fun _ =>
          keeps_pure trivial
      · exact steady_advance.after_steady fun _ => keeps_pure trivial
      · exact keeps_flawNext _

theorem atEnd_skipFrom : ∀ (fuel : Nat) (upcoming : Upcoming) (outer : List Bracket),
    AtEnd (ρ := ρ) (fun _ => True) (skipFrom fuel upcoming outer)
  | fuel, .afterValue, [] => by
      rw [skipFrom]
      exact (keeps_pure trivial).atEnd
  | 0, .value, _ => (keeps_flawNext _).atEnd
  | 0, .afterValue, _ :: _ => (keeps_flawNext _).atEnd
  | fuel + 1, .value, outer =>
      (steady_skipStart outer).atEnd.bind fun (upcoming, outer) _ => atEnd_skipFrom fuel upcoming outer
  | fuel + 1, .afterValue, bracket :: outer =>
      (steady_skipSeparator bracket outer).atEnd.bind fun (upcoming, outer) _ =>
        atEnd_skipFrom fuel upcoming outer

theorem persistsTo_skipFrom : ∀ {fuel fuel' : Nat}, fuel ≤ fuel' →
    ∀ (upcoming : Upcoming) (outer : List Bracket),
      PersistsTo (ρ := ρ) (fun _ => True) (skipFrom fuel upcoming outer) (skipFrom fuel' upcoming outer)
  | fuel, fuel', _, .afterValue, [] => by
      rw [skipFrom, skipFrom]
      exact persists_pure ()
  | 0, _, _, .value, _ => fun _ _ _ => nofun
  | 0, _, _, .afterValue, _ :: _ => fun _ _ _ => nofun
  | fuel + 1, fuel' + 1, hfuel, .value, outer =>
      PersistsTo.bind (steady_skipStart outer).persists
        (fun (upcoming, outer) => persistsTo_skipFrom (Nat.le_of_succ_le_succ hfuel) upcoming outer)
        fun (upcoming, outer) _ => atEnd_skipFrom fuel upcoming outer
  | fuel + 1, fuel' + 1, hfuel, .afterValue, bracket :: outer =>
      PersistsTo.bind (steady_skipSeparator bracket outer).persists
        (fun (upcoming, outer) => persistsTo_skipFrom (Nat.le_of_succ_le_succ hfuel) upcoming outer)
        fun (upcoming, outer) _ => atEnd_skipFrom fuel upcoming outer

theorem steady_skip : Steady (ρ := ρ) skip :=
  ⟨fun c more => persistsTo_skipFrom (Nat.succ_le_succ (length_append c more)) .value [] c more,
    fun c => atEnd_skipFrom (c.rest.length + 1) .value [] c⟩

/-! ## Protocol values -/

open Value

theorem steady_scanMember {value : Scan ρ Value} (h : Steady value) (members : List (String × Value))
    (name : String) : Steady (scanMember value members name) := by
  refine h.member.after_steady ?_
  intro v
  split
  · exact keeps_misfit _
  · exact keeps_pure trivial

theorem steady_scanWith {list object : Scan ρ Value} (hlist : Steady list) (hobject : Steady object) :
    Steady (scanWith list object) := by
  refine Keeps.located (steady_start_bind ?_ ?_)
  · intro s
    cases s with
    | scalar x => exact persists_pure _
    | list => exact hlist.persists
    | object => exact hobject.persists
  · intro x
    exact (keeps_pure trivial).atEnd

/-- A protocol value is read without refusals. -/
theorem steady_scan : ∀ room, Steady (ρ := ρ) (Value.scan room)
  | 0 => steady_scanWith (keeps_flawNext _) (keeps_flawNext _)
  | room + 1 => by
      have hmembers : Firm (members (scanMember (Value.scan (ρ := ρ) room)) []) :=
        firm_members (fun ms name => (steady_scanMember (steady_scan room) ms name).persists) []
      refine steady_scanWith ?_ ?_
      · exact Keeps.listOpening fun _ =>
          (firm_collect (steady_scan room)).after_steady fun _ => keeps_pure trivial
      · exact Keeps.objectOpening fun _ => hmembers.after_steady fun _ => keeps_pure trivial

end OData.Json.Scan
