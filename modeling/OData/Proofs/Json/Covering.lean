/-
# `OData.Proofs.Json.Covering` — what is read can be passed

Reading a value asks for more than passing it: strings must be text, numbers must be doubles.  So where
reading succeeds, passing does, and goes as far.  `Covers scan' scan` says so of any two scans, the first of
which yields nothing; the rules follow the way scans are put together.
-/
import OData.Proofs.Json.Numbers
import OData.Proofs.Json.Progress

namespace OData.Json

variable {ρ : Type} {α β : Type}

/-- The cursor behind the digits that come next. -/
def Cursor.behindDigits (c : Cursor) : Cursor := (span Byte.isDigit c.rest c.place).2

namespace Scan

/-- At `c`, `scan` yields `a` and leaves `c'`. -/
def Takes (scan : Scan ρ α) (c : Cursor) (a : α) (c' : Cursor) : Prop := scan c = .ok a c'

/-- Where `scan` succeeds, `scan'` does, and goes as far. -/
def Covers (scan' : Scan ρ Unit) (scan : Scan ρ α) : Prop :=
  ∀ c a c', scan c = .ok a c' → scan' c = .ok () c'

/-- Where `scan` succeeds with `b?` in front of it, `scan'` does, and goes as far. -/
def CoversAt (b? : Option UInt8) (scan' : Scan ρ Unit) (scan : Scan ρ α) : Prop :=
  ∀ c a c', c.rest.head? = b? → scan c = .ok a c' → scan' c = .ok () c'

/-- Where `scan` succeeds, it stays. -/
def Still (scan : Scan ρ α) : Prop := ∀ c a c', scan c = .ok a c' → c' = c

variable {scan : Scan ρ α} {scan' : Scan ρ Unit} {k : α → Scan ρ β}

theorem bind_peek {k : Option UInt8 → Scan ρ β} (c : Cursor) : (peek >>= k) c = k c.rest.head? c := rfl

theorem still_pure (a : α) : Still (ρ := ρ) (pure a) := by
  rintro c _ _ ⟨⟩
  rfl

theorem still_flawHere (flaw : Flaw) : Still (flawHere flaw : Scan ρ α) := fun _ _ _ => nofun

theorem still_misfit (m : Misfit) : Still (misfit m : Scan ρ α) := fun _ _ _ => nofun

theorem still_refuse (reason : ρ) : Still (refuse reason : Scan ρ α) := fun _ _ _ => nofun

namespace Covers

theorem flawHere (scan' : Scan ρ Unit) (flaw : Flaw) : Covers scan' (flawHere flaw : Scan ρ α) :=
  fun _ _ _ => nofun

theorem flawNext (scan' : Scan ρ Unit) (flaw : Flaw) : Covers scan' (flawNext flaw : Scan ρ α) :=
  fun _ _ _ => nofun

/-- What stays where it is need not be passed. -/
theorem still (h : Still scan) : Covers (pure ()) scan := by
  intro c a c' hscan
  rw [h c a c' hscan]
  rfl

/-- A step that both scans begin with. -/
theorem after {k' : α → Scan ρ Unit} (hk : ∀ a, Covers (k' a) (k a)) :
    Covers (scan >>= k') (scan >>= k) := by
  intro c b c' h
  obtain ⟨a, d, ha, hb⟩ := exists_of_bind_ok h
  simp only [Bind.bind, EStateM.bind, ha]
  exact hk a d b c' hb

theorem coversAt (h : Covers scan' scan) (b? : Option UInt8) : CoversAt b? scan' scan :=
  fun c a c' _ hscan => h c a c' hscan

/-- A look that both scans begin with. -/
theorem look {k' : Option UInt8 → Scan ρ Unit} {k : Option UInt8 → Scan ρ β}
    (hk : ∀ b?, CoversAt b? (k' b?) (k b?)) : Covers (peek >>= k') (peek >>= k) :=
  fun c b c' h => hk c.rest.head? c b c' rfl h

/-- A step and what stays where it is. -/
theorem then_still (h : Covers scan' scan) (hk : ∀ a, Still (k a)) : Covers scan' (scan >>= k) := by
  intro c b c' hb
  obtain ⟨a, d, ha, hb⟩ := exists_of_bind_ok hb
  rw [hk a d b c' hb]
  exact h c a d ha

end Covers

/-! ## Numbers -/

theorem still_scaledHere (negative : Bool) (n : Nat) (e : Int) :
    Still (ρ := ρ) (scaledHere negative n e) := by
  unfold scaledHere
  split
  · exact still_pure _
  · exact still_flawHere _

theorem behindDigits_cons (b : UInt8) (rest : List UInt8) (place : Position) :
    Cursor.behindDigits ⟨b :: rest, place⟩ =
      if Byte.isDigit b then Cursor.behindDigits ⟨rest, place.after b⟩ else ⟨b :: rest, place⟩ := by
  rw [Cursor.behindDigits, Cursor.span]
  split
  · rfl
  · rfl

/-- The digits of an exponent are all passed, unless it gets too large; then those that are left are the
next ones. -/
theorem behindDigits_of_exponentDigits : ∀ {fuel n : Nat} {c c' : Cursor} {r : Option Nat},
    c.rest.length ≤ fuel → exponentDigits (ρ := ρ) fuel n c = .ok r c' →
      c'.behindDigits = c.behindDigits ∧ (r.isSome → c' = c.behindDigits)
  | fuel, n, ⟨[], place⟩, c', r, _, h => by
      rw [exponentDigits_nil] at h
      cases h
      exact ⟨rfl, fun _ => rfl⟩
  | fuel + 1, n, ⟨b :: rest, place⟩, c', r, hfuel, h => by
      rw [exponentDigits_cons] at h
      rw [behindDigits_cons, Byte.isDigit]
      cases hd : Byte.digit? b with
      | none =>
          rw [hd] at h
          cases h
          rw [behindDigits_cons, Byte.isDigit, hd]
          exact ⟨rfl, fun _ => rfl⟩
      | some d =>
          rw [hd] at h
          dsimp only at h
          rw [Option.isSome_some, if_pos rfl]
          split at h
          · exact behindDigits_of_exponentDigits (Nat.le_of_succ_le_succ hfuel) h
          · cases h
            exact ⟨rfl, fun hsome => by cases hsome⟩

section Numbers

variable (negative : Bool) (n : Nat)

theorem covers_exponent (place : Int) : Covers (ρ := ρ) skipExponent (exponent negative n place) := by
  refine Covers.after fun _ => Covers.after fun down => Covers.after ?_
  intro b?
  cases b? with
  | none => exact Covers.flawHere _ _
  | some b =>
      simp only [Option.bind_eq_bind, Option.bind_some]
      cases Byte.digit? b with
      | none => exact Covers.flawHere _ _
      | some d =>
          -- Too large an exponent is no longer counted, and what is left of its digits is
          -- taken at the end.
          intro c a c' h
          obtain ⟨r, e, hdigits, hrest⟩ := exists_of_bind_ok h
          obtain ⟨hleft, hall⟩ := behindDigits_of_exponentDigits (Nat.le_refl _) hdigits
          have hend : c' = c.behindDigits := by
            cases r with
            | some n => rw [still_scaledHere _ _ _ e a c' hrest, hall rfl]
            | none =>
                dsimp only at hrest
                split at hrest
                · cases hrest
                · cases hrest
                  exact hleft
          rw [hend]
          rfl

theorem covers_exponent? (place : Int) :
    Covers (ρ := ρ) skipExponent? (exponent? negative n place) := by
  refine Covers.after ?_
  intro b?
  split
  · exact covers_exponent negative n place
  · exact covers_exponent negative n place
  · exact Covers.still (still_scaledHere negative n place)

theorem covers_fraction (place : Nat) :
    Covers (ρ := ρ)
      (do advance; if (← digits).isEmpty then Scan.flawNext .badNumber else skipExponent?)
      (fraction negative n place) := by
  refine Covers.after fun _ => Covers.after ?_
  intro ds
  split
  · refine fun c a c' h => ?_
    obtain ⟨b?, d, -, hflaw⟩ := exists_of_bind_ok h
    cases b? <;> cases hflaw
  · exact covers_exponent? negative _ _

theorem coversAt_skipExponent? {scan : Scan ρ α} {b : UInt8} (hb : b = Byte.smallE ∨ b = Byte.bigE)
    (h : Covers skipExponent scan) : CoversAt (some b) skipExponent? scan := by
  intro c a c' hhead hscan
  rw [skipExponent?, bind_peek, hhead]
  rcases hb with rfl | rfl
  · exact h c a c' hscan
  · exact h c a c' hscan

/-- Without an exponent there is nothing to pass. -/
theorem coversAt_skipExponent?_of_ne {scan : Scan ρ α} {b? : Option UInt8}
    (hsmall : b? ≠ some Byte.smallE) (hbig : b? ≠ some Byte.bigE) (h : Still scan) :
    CoversAt b? skipExponent? scan := by
  intro c a c' hhead hscan
  rw [skipExponent?, bind_peek, hhead, h c a c' hscan]
  split
  · next heq => exact absurd rfl hsmall
  · next heq => exact absurd rfl hbig
  · rfl

theorem covers_numberRest (ds : List Nat) :
    Covers (ρ := ρ) skipNumberRest (numberRest negative ds) := by
  refine Covers.look ?_
  intro b?
  split
  · exact (covers_fraction negative _ _).coversAt _
  · next hpoint =>
      split
      · exact absurd rfl hpoint
      · exact coversAt_skipExponent? (.inl rfl) (covers_exponent negative _ _)
      · exact coversAt_skipExponent? (.inr rfl) (covers_exponent negative _ _)
      · next hsmall hbig =>
          refine coversAt_skipExponent?_of_ne hsmall hbig ?_
          split
          · exact still_pure _
          · exact still_scaledHere _ _ _

theorem covers_number : Covers (ρ := ρ) skipNumber (number negative) := by
  refine Covers.after ?_
  intro b?
  cases b? with
  | none => exact Covers.flawHere _ _
  | some b =>
      simp only [Option.bind_eq_bind, Option.bind_some]
      cases Byte.digit? b with
      | none => exact Covers.flawHere _ _
      | some d =>
          cases d with
          | zero =>
              refine Covers.after ?_
              intro next?
              split
              · exact Covers.flawNext _ _
              · exact covers_numberRest negative _
          | succ d => exact Covers.after fun ds => covers_numberRest negative _

end Numbers

/-! ## What a scan leaves -/

/-- If `scan` yields a value at `c`, `post` holds of it and of the cursor that is left. -/
def Leaves (scan : Scan ρ α) (c : Cursor) (post : α → Cursor → Prop) : Prop :=
  ∀ a c', scan c = .ok a c' → post a c'

section Leaves

variable {c : Cursor} {mid : α → Cursor → Prop} {post : β → Cursor → Prop}

theorem Leaves.bind (h : Leaves scan c mid) (hk : ∀ a d, mid a d → Leaves (k a) d post) :
    Leaves (scan >>= k) c post := by
  intro b c' hb
  obtain ⟨a, d, ha, hb⟩ := exists_of_bind_ok hb
  exact hk a d (h a d ha) b c' hb

/-- What stays where it is makes no difference to what is left. -/
theorem Leaves.then_still {left : Cursor → Prop} (h : Leaves scan c fun _ d => left d)
    (hk : ∀ a, Still (k a)) : Leaves (scan >>= k) c fun _ d => left d := by
  refine h.bind ?_
  intro a d hleft b e hb
  rwa [hk a d b e hb]

theorem leaves_takes (scan : Scan ρ β) (c : Cursor) : Leaves scan c (Takes scan c) := fun _ _ h => h

theorem leaves_pure {b : β} (h : post b c) : Leaves (ρ := ρ) (pure b) c post := by
  rintro _ _ ⟨⟩
  exact h

theorem leaves_flawHere (flaw : Flaw) : Leaves (flawHere flaw : Scan ρ β) c post := fun _ _ => nofun

theorem leaves_flawNext (flaw : Flaw) : Leaves (flawNext flaw : Scan ρ β) c post := fun _ _ => nofun

theorem leaves_peek {k : Option UInt8 → Scan ρ β}
    (h : ∀ b?, c.rest.head? = b? → Leaves (k b?) c post) : Leaves (peek >>= k) c post :=
  fun b c' hb => h _ rfl b c' hb

theorem leaves_next {k : Option UInt8 → Scan ρ β}
    (h : ∀ b?, c.rest.head? = b? → Leaves (k b?) c.next post) : Leaves (next >>= k) c post :=
  fun b c' hb => h _ rfl b c' hb

theorem leaves_advance {k : Unit → Scan ρ β} (h : Leaves (k ()) c.next post) :
    Leaves (advance >>= k) c post :=
  fun b c' hb => h b c' hb

end Leaves

section Takes

variable {c d e : Cursor} {a : α} {b : β}

theorem Takes.bind_eq (h : Takes scan c a d) : (scan >>= k) c = k a d := by
  rw [Takes] at h
  simp only [Bind.bind, EStateM.bind, h]

theorem Takes.bind (h : Takes scan c a d) (hk : Takes (k a) d b e) : Takes (scan >>= k) c b e :=
  h.bind_eq.trans hk

theorem takes_pure (a : α) (c : Cursor) : Takes (ρ := ρ) (pure a) c a c := rfl

theorem takes_peek {b? : Option UInt8} (h : c.rest.head? = b?) : Takes (ρ := ρ) peek c b? c := by
  rw [← h]
  rfl

theorem takes_next {b? : Option UInt8} (h : c.rest.head? = b?) : Takes (ρ := ρ) next c b? c.next := by
  rw [← h]
  rfl

theorem takes_advance (c : Cursor) : Takes (ρ := ρ) advance c () c.next := rfl

end Takes

/-! ## Loops with fuel -/

/-- From `c` on, `loop` comes to where `loop'` goes on from `c'`.  It uses up no more fuel than it takes
bytes. -/
def Reaches (loop : Nat → Scan ρ β) (c : Cursor) (loop' : Nat → Scan ρ β) (c' : Cursor) : Prop :=
  ∃ n, c'.rest.length + n ≤ c.rest.length ∧ ∀ fuel, loop (fuel + n) c = loop' fuel c'

namespace Reaches

variable {loop loop' loop'' : Nat → Scan ρ β} {c d e : Cursor}

theorem refl (loop : Nat → Scan ρ β) (c : Cursor) : Reaches loop c loop c :=
  ⟨0, Nat.le_refl _, fun _ => rfl⟩

theorem step (hlength : d.rest.length < c.rest.length) (h : ∀ fuel, loop (fuel + 1) c = loop' fuel d) :
    Reaches loop c loop' d :=
  ⟨1, hlength, h⟩

theorem trans (h : Reaches loop c loop' d) (h' : Reaches loop' d loop'' e) :
    Reaches loop c loop'' e := by
  obtain ⟨n, hn, hloop⟩ := h
  obtain ⟨m, hm, hloop'⟩ := h'
  refine ⟨m + n, by omega, ?_⟩
  intro fuel
  rw [← Nat.add_assoc, hloop, hloop']

/-- The length of the text suffices as fuel. -/
theorem exists_fuel (h : Reaches loop c loop' d) {fuel : Nat} (hfuel : c.rest.length ≤ fuel) :
    ∃ fuel', d.rest.length ≤ fuel' ∧ loop fuel c = loop' fuel' d := by
  obtain ⟨n, hn, hloop⟩ := h
  obtain ⟨fuel', rfl⟩ := Nat.exists_eq_add_of_le' (Nat.le_trans (Nat.le_of_add_left_le hn) hfuel)
  exact ⟨fuel', by omega, hloop fuel'⟩

end Reaches

/-! ## Strings -/

section Strings

variable {c d : Cursor}

theorem Reaches.piece (h : Takes (ρ := ρ) skipPiece c true d) :
    Reaches (ρ := ρ) skipString c skipString d := by
  refine Reaches.step (advances_skipPiece c true d h) ?_
  intro fuel
  rw [skipString_succ]
  exact h.bind_eq

theorem takes_skipPiece_escape (hc : c.rest.head? = some Byte.backslash)
    (h : Takes (ρ := ρ) skipEscape c.next () d) : Takes (ρ := ρ) skipPiece c true d :=
  (takes_peek hc).bind ((takes_advance c).bind (h.bind (takes_pure true d)))

theorem takes_skipPiece_ordinary {b : UInt8} (hc : c.rest.head? = some b) (hb : ordinary b = true) :
    Takes (ρ := ρ) skipPiece c true c.next := by
  obtain ⟨hquote, hslash, hlow⟩ := ordinary_iff.1 hb
  refine (takes_peek hc).bind ?_
  split
  · next heq => cases heq
  · next heq => exact absurd (Option.some.inj heq) hquote
  · next heq => exact absurd (Option.some.inj heq) hslash
  · next heq =>
      cases heq
      rw [if_neg hlow]
      exact (takes_advance c).bind (takes_pure true c.next)

theorem leaves_pairByte (b : UInt8) :
    Leaves (ρ := ρ) (pairByte b) c fun _ d => c.rest.head? = some b ∧ d = c.next := by
  refine leaves_peek ?_
  intro b? hb
  split
  · exact leaves_flawHere _
  · refine leaves_advance ?_
    split
    · next heq => exact leaves_pure ⟨by rw [hb, heq], rfl⟩
    · exact leaves_flawHere _

/-- An escape by code is one escape, or two. -/
theorem leaves_codeEscape :
    Leaves (ρ := ρ) codeEscape c fun _ d => (∃ n, Takes (ρ := ρ) hexEscape c n d) ∨
      ∃ n e m, Takes (ρ := ρ) hexEscape c n e ∧ e.rest.head? = some Byte.backslash ∧
        e.next.rest.head? = some Byte.smallU ∧ Takes (ρ := ρ) hexEscape e.next.next m d := by
  refine (leaves_takes hexEscape c).bind ?_
  intro n e hn
  split
  · exact leaves_flawHere _
  split
  · refine (leaves_pairByte _).bind ?_
    rintro _ _ ⟨hslash, rfl⟩
    refine (leaves_pairByte _).bind ?_
    rintro _ _ ⟨hletter, rfl⟩
    refine (leaves_takes hexEscape e.next.next).bind ?_
    intro m d hm
    split
    · exact leaves_pure (.inr ⟨n, e, m, hn, hslash, hletter, hm⟩)
    · exact leaves_flawHere _
  · exact leaves_pure (.inl ⟨n, hn⟩)

theorem takes_skipEscape_code {n : Nat} (hc : c.rest.head? = some Byte.smallU)
    (h : Takes (ρ := ρ) hexEscape c.next n d) : Takes (ρ := ρ) skipEscape c () d :=
  (takes_next hc).bind (h.bind (takes_pure () d))

/-- What is read as one escape is passed as one, or as two. -/
theorem leaves_escape :
    Leaves (ρ := ρ) escape c fun _ d => Takes (ρ := ρ) skipEscape c () d ∨
      ∃ e, Takes (ρ := ρ) skipEscape c () e ∧ e.rest.head? = some Byte.backslash ∧
        Takes (ρ := ρ) skipEscape e.next () d := by
  refine leaves_next ?_
  intro b? hc
  split
  · exact leaves_flawHere _
  · refine leaves_codeEscape.bind ?_
    rintro _ d (⟨n, hn⟩ | ⟨n, e, m, hn, hslash, hletter, hm⟩)
    · exact leaves_pure (.inl (takes_skipEscape_code hc hn))
    · exact leaves_pure
        (.inr ⟨e, takes_skipEscape_code hc hn, hslash, takes_skipEscape_code hletter hm⟩)
  · next b hcode =>
      cases hescaped : escapedByte? b with
      | none => exact leaves_flawHere _
      | some e =>
          refine leaves_pure (.inl ((takes_next hc).bind ?_))
          split
          · next heq => cases heq
          · next heq => exact absurd (Option.some.inj heq) hcode
          · next heq =>
              cases heq
              rw [hescaped]
              exact takes_pure () c.next

/-- A piece of a string is read where it can be passed, the two halves of a surrogate pair being one
piece for a reader. -/
theorem leaves_stringPiece :
    Leaves (ρ := ρ) stringPiece c fun piece? d =>
      match piece? with
      | none => Takes (ρ := ρ) skipPiece c false d
      | some _ => Reaches (ρ := ρ) skipString c skipString d := by
  refine leaves_next ?_
  intro b? hc
  split
  · exact leaves_flawHere _
  · exact leaves_pure ((takes_peek hc).bind ((takes_advance c).bind (takes_pure false c.next)))
  · refine leaves_escape.bind ?_
    rintro piece d (hone | ⟨e, hfirst, hslash, hsecond⟩)
    · exact leaves_pure (Reaches.piece (takes_skipPiece_escape hc hone))
    · have hpair : Reaches (ρ := ρ) skipString c skipString d :=
        (Reaches.piece (takes_skipPiece_escape hc hfirst)).trans
          (Reaches.piece (takes_skipPiece_escape hslash hsecond))
      exact leaves_pure hpair
  · next b hquote hslash =>
      split
      · exact leaves_flawHere _
      · next hlow =>
          have hb : ordinary b = true := ordinary_iff.2 ⟨hquote, hslash, hlow⟩
          exact leaves_pure (Reaches.piece (takes_skipPiece_ordinary hc hb))

theorem leaves_stringBytes : ∀ (fuel : Nat) (acc : List UInt8) (c : Cursor),
    Leaves (ρ := ρ) (stringBytes fuel acc) c fun _ d =>
      Reaches (ρ := ρ) skipString c (fun _ => pure ()) d
  | 0, _, _ => leaves_flawHere _
  | fuel + 1, acc, c => by
      refine leaves_stringPiece.bind ?_
      intro piece? e hpiece
      cases piece? with
      | none =>
          refine leaves_pure (Reaches.step (advances_skipPiece c false e hpiece) ?_)
          intro fuel
          rw [skipString_succ]
          exact hpiece.bind_eq
      | some piece =>
          intro bytes d hbytes
          exact hpiece.trans (leaves_stringBytes fuel _ e bytes d hbytes)

theorem still_decodeText (bytes : List UInt8) : Still (ρ := ρ) (decodeText bytes) := by
  unfold decodeText
  split
  · exact still_pure _
  · exact fun _ _ _ => nofun

theorem covers_stringBody : Covers (ρ := ρ) skipStringBody stringBody := by
  refine Covers.then_still ?_ still_decodeText
  intro c bytes d h
  obtain ⟨fuel, -, hskip⟩ :=
    (leaves_stringBytes _ _ c bytes d h).exists_fuel (Nat.le_refl c.rest.length)
  exact hskip

end Strings

end Scan

end OData.Json
