/-
# `OData.Proofs.Json.Progress` — passing a value takes bytes

Loops over a text have the length of the text for fuel, so that much depends on how many bytes a step
takes.  Three ways to say it of a scan that succeeds, the second for the pieces of a value and the third
for what a loop repeats:

| | |
| :-- | :-- |
| `Forward scan` | it does not give bytes back |
| `Proceeds scan` | it takes a byte if there is one |
| `Advances scan` | it takes a byte |

They are shown here of the scans that pass a value, and of what these are made of.
-/
import OData.Json.Scan.Skip
import OData.Proofs.Json.Strings

namespace OData.Json

variable {ρ : Type} {α β : Type}

theorem Cursor.length_next (c : Cursor) : c.next.rest.length = c.rest.length - 1 := by
  obtain ⟨_ | ⟨b, rest⟩, place⟩ := c <;> rfl

theorem Cursor.length_span (p : UInt8 → Bool) : ∀ (bytes : List UInt8) (place : Position),
    (span p bytes place).2.rest.length ≤ bytes.length
  | [], _ => Nat.le_refl _
  | b :: bytes, place => by
      rw [span]
      split
      · exact (length_span p bytes (place.after b)).trans (Nat.le_succ _)
      · exact Nat.le_refl _

namespace Scan

/-- The scan does not give bytes back. -/
def Forward (scan : Scan ρ α) : Prop :=
  ∀ c a c', scan c = .ok a c' → c'.rest.length ≤ c.rest.length

/-- The scan takes a byte if there is one. -/
def Proceeds (scan : Scan ρ α) : Prop :=
  ∀ c a c', scan c = .ok a c' → c'.rest.length ≤ c.rest.length - 1

/-- The scan takes a byte. -/
def Advances (scan : Scan ρ α) : Prop :=
  ∀ c a c', scan c = .ok a c' → c'.rest.length < c.rest.length

variable {scan : Scan ρ α} {k : α → Scan ρ β}

theorem Proceeds.forward (h : Proceeds scan) : Forward scan :=
  fun c a c' hscan => (h c a c' hscan).trans (Nat.sub_le _ _)

theorem Advances.forward (h : Advances scan) : Forward scan :=
  fun c a c' hscan => Nat.le_of_lt (h c a c' hscan)

theorem Forward.bind (h : Forward scan) (hk : ∀ a, Forward (k a)) : Forward (scan >>= k) := by
  intro c b c' hb
  obtain ⟨a, d, ha, hb⟩ := exists_of_bind_ok hb
  exact (hk a d b c' hb).trans (h c a d ha)

theorem Proceeds.bind (h : Proceeds scan) (hk : ∀ a, Forward (k a)) : Proceeds (scan >>= k) := by
  intro c b c' hb
  obtain ⟨a, d, ha, hb⟩ := exists_of_bind_ok hb
  exact (hk a d b c' hb).trans (h c a d ha)

/-! ## Single steps -/

theorem forward_pure (a : α) : Forward (ρ := ρ) (pure a) := by
  rintro c _ _ ⟨⟩
  exact Nat.le_refl _

theorem proceeds_flawHere (flaw : Flaw) : Proceeds (flawHere flaw : Scan ρ α) := fun _ _ _ => nofun

theorem proceeds_flawNext (flaw : Flaw) : Proceeds (flawNext flaw : Scan ρ α) := fun _ _ _ => nofun

theorem forward_peek : Forward (ρ := ρ) peek := by
  rintro c _ _ ⟨⟩
  exact Nat.le_refl _

theorem proceeds_next : Proceeds (ρ := ρ) next := by
  rintro c _ _ ⟨⟩
  exact c.length_next.le

theorem proceeds_advance : Proceeds (ρ := ρ) advance := by
  rintro c _ _ ⟨⟩
  exact c.length_next.le

theorem forward_takeWhile (p : UInt8 → Bool) : Forward (ρ := ρ) (takeWhile p) := by
  rintro c _ _ ⟨⟩
  exact Cursor.length_span p c.rest c.place

theorem forward_space : Forward (ρ := ρ) space :=
  (forward_takeWhile _).bind fun _ => forward_peek

/-- A look, and behind it something that proceeds, if there is a byte. -/
theorem advances_peek {k : Option UInt8 → Scan ρ β} (hnone : ∀ c b c', k none c ≠ .ok b c')
    (hk : ∀ b, Proceeds (k (some b))) : Advances (peek >>= k) := by
  rintro ⟨_ | ⟨b, rest⟩, place⟩ a c' h
  · exact absurd h (hnone _ a c')
  · exact Nat.lt_succ_of_le (hk b _ a c' h)

/-- Blanks, and behind them something that proceeds, if there is a byte. -/
theorem advances_space {k : Option UInt8 → Scan ρ β} (hnone : ∀ c b c', k none c ≠ .ok b c')
    (hk : ∀ b, Proceeds (k (some b))) : Advances (space >>= k) := by
  intro c a c' h
  have hspace : space >>= k = takeWhile Byte.isSpace >>= fun _ => peek >>= k := bind_assoc ..
  rw [hspace] at h
  obtain ⟨run, d, hgap, ha⟩ := exists_of_bind_ok h
  exact (advances_peek hnone hk d a c' ha).trans_le (forward_takeWhile _ c run d hgap)

/-! ## Numbers -/

theorem forward_digits : Forward (ρ := ρ) digits :=
  (forward_takeWhile _).bind fun _ => forward_pure _

theorem forward_exponentSign : Forward (ρ := ρ) exponentSign := by
  refine forward_peek.bind ?_
  intro b?
  split
  · exact proceeds_advance.forward.bind fun _ => forward_pure _
  · exact proceeds_advance.forward.bind fun _ => forward_pure _
  · exact forward_pure _

theorem proceeds_skipExponent : Proceeds (ρ := ρ) skipExponent := by
  refine proceeds_advance.bind fun _ => forward_exponentSign.bind fun _ =>
    proceeds_next.forward.bind ?_
  intro b?
  split
  · exact (proceeds_flawHere _).forward
  · exact forward_digits.bind fun _ => forward_pure _

theorem forward_skipExponent? : Forward (ρ := ρ) skipExponent? := by
  refine forward_peek.bind ?_
  intro b?
  split
  · exact proceeds_skipExponent.forward
  · exact proceeds_skipExponent.forward
  · exact forward_pure _

theorem forward_skipNumberRest : Forward (ρ := ρ) skipNumberRest := by
  refine forward_peek.bind ?_
  intro b?
  split
  · refine proceeds_advance.forward.bind fun _ => forward_digits.bind ?_
    intro ds
    split
    · exact (proceeds_flawNext _).forward
    · exact forward_skipExponent?
  · exact forward_skipExponent?

theorem proceeds_skipNumber : Proceeds (ρ := ρ) skipNumber := by
  refine proceeds_next.bind ?_
  intro b?
  split
  · exact (proceeds_flawHere _).forward
  · refine forward_peek.bind ?_
    intro next?
    split
    · exact (proceeds_flawNext _).forward
    · exact forward_skipNumberRest
  · exact forward_digits.bind fun _ => forward_skipNumberRest

/-! ## Strings and words -/

theorem forward_hexEscape : Forward (ρ := ρ) hexEscape := by
  rintro ⟨rest, place⟩ n c' h
  unfold hexEscape at h
  split at h
  · next a b d e rest hrest =>
      dsimp only at hrest h
      subst hrest
      split at h
      · cases h
        simp only [Cursor.next, List.length_cons]
        omega
      · cases h
  · cases h

theorem forward_skipEscape : Forward (ρ := ρ) skipEscape := by
  refine proceeds_next.forward.bind ?_
  intro b?
  split
  · exact (proceeds_flawHere _).forward
  · exact forward_hexEscape.bind fun _ => forward_pure _
  · split
    · exact forward_pure _
    · exact (proceeds_flawHere _).forward

theorem advances_skipPiece : Advances (ρ := ρ) skipPiece := by
  refine advances_peek (fun _ _ _ => nofun) ?_
  intro b
  split
  · next h => cases h
  · exact proceeds_advance.bind fun _ => forward_pure _
  · exact proceeds_advance.bind fun _ => forward_skipEscape.bind fun _ => forward_pure _
  · split
    · exact proceeds_flawHere _
    · exact proceeds_advance.bind fun _ => forward_pure _

theorem forward_skipString : ∀ fuel : Nat, Forward (ρ := ρ) (skipString fuel)
  | 0 => (proceeds_flawHere _).forward
  | fuel + 1 => by
      rw [skipString_succ]
      refine advances_skipPiece.forward.bind ?_
      intro more
      split
      · exact forward_skipString fuel
      · exact forward_pure _

theorem forward_skipStringBody : Forward (ρ := ρ) skipStringBody :=
  fun c => forward_skipString c.rest.length c

theorem forward_word : ∀ ws : List UInt8, Forward (ρ := ρ) (word ws)
  | [] => forward_pure _
  | w :: ws => by
      refine proceeds_next.forward.bind ?_
      intro b?
      split
      · exact (proceeds_flawHere _).forward
      · split
        · exact forward_word ws
        · exact (proceeds_flawHere _).forward

theorem proceeds_wordFrom (text : String) : Proceeds (ρ := ρ) (wordFrom text) :=
  proceeds_advance.bind fun _ => forward_word _

/-! ## Values and what stands between them -/

theorem forward_skipName : Forward (ρ := ρ) skipName := by
  refine forward_space.bind ?_
  intro b?
  split
  · exact (proceeds_flawNext _).forward
  · refine proceeds_advance.forward.bind fun _ => forward_skipStringBody.bind fun _ =>
      forward_space.bind ?_
    intro b?
    split
    · exact (proceeds_flawNext _).forward
    · exact proceeds_advance.forward
    · exact (proceeds_flawNext _).forward
  · exact (proceeds_flawNext _).forward

theorem proceeds_skipOpening (bracket : Bracket) (outer : List Bracket) :
    Proceeds (ρ := ρ) (skipOpening bracket outer) := by
  cases bracket with
  | list =>
      refine proceeds_advance.bind fun _ => forward_space.bind ?_
      intro b?
      split
      · exact (proceeds_flawNext _).forward
      · exact proceeds_advance.forward.bind fun _ => forward_pure _
      · exact forward_pure _
  | object =>
      refine proceeds_advance.bind fun _ => forward_space.bind ?_
      intro b?
      split
      · exact (proceeds_flawNext _).forward
      · exact proceeds_advance.forward.bind fun _ => forward_pure _
      · exact forward_skipName.bind fun _ => forward_pure _

theorem advances_skipStart (outer : List Bracket) : Advances (ρ := ρ) (skipStart outer) := by
  refine advances_space (fun _ _ _ => nofun) ?_
  intro b
  split
  · next h => cases h
  · exact (proceeds_wordFrom _).bind fun _ => forward_pure _
  · exact (proceeds_wordFrom _).bind fun _ => forward_pure _
  · exact (proceeds_wordFrom _).bind fun _ => forward_pure _
  · exact proceeds_advance.bind fun _ => proceeds_skipNumber.forward.bind fun _ => forward_pure _
  · exact proceeds_advance.bind fun _ => forward_skipStringBody.bind fun _ => forward_pure _
  · exact proceeds_skipOpening .list outer
  · exact proceeds_skipOpening .object outer
  · split
    · exact proceeds_skipNumber.bind fun _ => forward_pure _
    · exact proceeds_flawNext _

theorem advances_skipSeparator (bracket : Bracket) (outer : List Bracket) :
    Advances (ρ := ρ) (skipSeparator bracket outer) := by
  cases bracket with
  | list =>
      refine advances_space (fun _ _ _ => nofun) ?_
      intro b
      split
      · next h => cases h
      · exact proceeds_advance.bind fun _ => forward_pure _
      · exact proceeds_advance.bind fun _ => forward_pure _
      · exact proceeds_flawNext _
  | object =>
      refine advances_space (fun _ _ _ => nofun) ?_
      intro b
      split
      · next h => cases h
      · exact proceeds_advance.bind fun _ => forward_skipName.bind fun _ => forward_pure _
      · exact proceeds_advance.bind fun _ => forward_pure _
      · exact proceeds_flawNext _

end Scan

end OData.Json
