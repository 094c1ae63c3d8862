/-
# `OData.Proofs.Json.Strings` — reading and passing strings

A string is read as the characters that its text writes, and passed without a look at them when
nobody asks for it.  The reader goes byte by byte while the grammar goes character by character, so
a character that stands for itself is a run of *ordinary* bytes, each read on its own; an escape is
one step.  What the steps collect is the encoding of the characters, and decoding that gives the
characters back.
-/
import OData.Proofs.Json.Spelling
import OData.Proofs.Text.Utf8

namespace OData.Json.Scan

variable {ρ : Type}

/-! ## Ordinary bytes -/

/-- A byte that stands for itself in a string. -/
def ordinary (b : UInt8) : Bool := b != Byte.quote && b != Byte.backslash && !decide (b < 0x20)

theorem ordinary_of_le {n : Nat} (h : 0x80 ≤ n) (hn : n < 256) : ordinary (UInt8.ofNat n) = true := by
  have hnat : (UInt8.ofNat n).toNat = n := Text.Utf8.toNat_ofNat_lt hn
  simp only [ordinary, Bool.and_eq_true, bne_iff_ne, ne_eq, Bool.not_eq_true',
    decide_eq_false_iff_not, ← UInt8.toNat_inj, UInt8.lt_iff_toNat_lt, hnat, Byte.quote,
    Byte.backslash, UInt8.reduceToNat]
  omega

theorem ordinary_of_ascii {c : Char} (hlow : 0x20 ≤ c.toNat) (hquote : c ≠ '"') (hslash : c ≠ '\\')
    (h : c.toNat < 0x80) : ordinary (UInt8.ofNat c.toNat) = true := by
  have hnat : (UInt8.ofNat c.toNat).toNat = c.toNat := Text.Utf8.toNat_ofNat_lt (by omega)
  have hq : c.toNat ≠ 0x22 := fun h => hquote (Char.toNat_inj.1 h)
  have hs : c.toNat ≠ 0x5c := fun h => hslash (Char.toNat_inj.1 h)
  simp only [ordinary, Bool.and_eq_true, bne_iff_ne, ne_eq, Bool.not_eq_true',
    decide_eq_false_iff_not, ← UInt8.toNat_inj, UInt8.lt_iff_toNat_lt, hnat, Byte.quote,
    Byte.backslash, UInt8.reduceToNat]
  omega

/-- A character that needs no escape is written with ordinary bytes. -/
theorem all_ordinary {c : Char} (hlow : 0x20 ≤ c.toNat) (hquote : c ≠ '"') (hslash : c ≠ '\\') :
    (String.utf8EncodeChar c).all ordinary = true := by
  have hlt := Text.Utf8.toNat_lt c
  have hv : c.val.toNat = c.toNat := rfl
  simp only [String.utf8EncodeChar, hv]
  split
  · simp only [List.all_cons, List.all_nil, Bool.and_true]
    exact ordinary_of_ascii hlow hquote hslash (by omega)
  · split
    · simp only [List.all_cons, List.all_nil, Bool.and_true, Bool.and_eq_true]
      exact ⟨ordinary_of_le (by omega) (by omega), ordinary_of_le (by omega) (by omega)⟩
    · split
      · simp only [List.all_cons, List.all_nil, Bool.and_true, Bool.and_eq_true]
        exact ⟨ordinary_of_le (by omega) (by omega), ordinary_of_le (by omega) (by omega),
          ordinary_of_le (by omega) (by omega)⟩
      · simp only [List.all_cons, List.all_nil, Bool.and_true, Bool.and_eq_true]
        exact ⟨ordinary_of_le (by omega) (by omega), ordinary_of_le (by omega) (by omega),
          ordinary_of_le (by omega) (by omega), ordinary_of_le (by omega) (by omega)⟩

theorem ordinary_iff {b : UInt8} :
    ordinary b = true ↔ b ≠ Byte.quote ∧ b ≠ Byte.backslash ∧ ¬ b < 0x20 := by
  simp [ordinary, and_assoc]

/-! ## Escapes -/

theorem passes_hexEscape {a b d e : UInt8} {n : Nat} (h : hexCode? a b d e = some n)
    (i : List UInt8) : Passes (ρ := ρ) hexEscape (a :: b :: d :: e :: i) n i := by
  intro place
  unfold hexCode? at h
  simp only [hexEscape, h]
  exact ⟨_, rfl⟩

theorem passes_pairByte (b : UInt8) (i : List UInt8) :
    Passes (ρ := ρ) (pairByte b) (b :: i) () i := by
  refine (passes_peek _).bind ((passes_advance b i).bind ?_)
  rw [if_pos rfl]
  exact Passes.pure () i

/-- The character of an escape by code that is no surrogate. -/
theorem passes_codeEscape {a b d e : UInt8} {n : Nat} (h : hexCode? a b d e = some n)
    (hlead : isLeadingSurrogate n = false) (htrail : isTrailingSurrogate n = false)
    (i : List UInt8) :
    Passes (ρ := ρ) codeEscape (a :: b :: d :: e :: i) (Char.ofNat n) i := by
  refine (passes_hexEscape h i).bind ?_
  simp only [hlead, htrail, Bool.false_eq_true, if_false]
  exact Passes.pure _ i

theorem not_trailing_of_leading {n : Nat} (h : isLeadingSurrogate n = true) :
    isTrailingSurrogate n = false := by
  simp only [isLeadingSurrogate, isTrailingSurrogate, Bool.and_eq_true, decide_eq_true_eq,
    Bool.and_eq_false_iff, decide_eq_false_iff_not] at h ⊢
  omega

/-- The character of a surrogate pair. -/
theorem passes_codeEscape_pair {a b d e a' b' d' e' : UInt8} {n m : Nat}
    (h : hexCode? a b d e = some n) (h' : hexCode? a' b' d' e' = some m)
    (hlead : isLeadingSurrogate n = true) (htrail : isTrailingSurrogate m = true)
    (i : List UInt8) :
    Passes (ρ := ρ) codeEscape (a :: b :: d :: e :: (codeText a' b' d' e' ++ i)) (pairChar n m) i := by
  have hn : isTrailingSurrogate n = false := not_trailing_of_leading hlead
  refine (passes_hexEscape h _).bind ?_
  simp only [hlead, hn, Bool.false_eq_true, if_false, if_true]
  refine (passes_pairByte _ _).bind ((passes_pairByte _ _).bind ((passes_hexEscape h' i).bind ?_))
  simp only [htrail, if_true]
  exact Passes.pure _ i

theorem encodeChar_escapedByte {b e : UInt8} (h : escapedByte? b = some e) :
    String.utf8EncodeChar (Char.ofNat e.toNat) = [e] := by
  unfold escapedByte? at h
  split at h <;> first | (cases h; decide) | cases h

theorem escapedByte?_smallU : escapedByte? Byte.smallU = none := by decide

theorem passes_escape_letter {b e : UInt8} (h : escapedByte? b = some e) (i : List UInt8) :
    Passes (ρ := ρ) escape (b :: i) [e] i := by
  refine (passes_next b i).bind ?_
  have hu : b ≠ Byte.smallU := by
    rintro rfl
    rw [escapedByte?_smallU] at h
    cases h
  split
  · next hb => cases hb
  · next hb => exact absurd (Option.some.inj hb) hu
  · next b' _ hb =>
      cases hb
      rw [h]
      exact Passes.pure [e] i

/-! ## Reading a string -/

theorem passes_stringPiece_ordinary {b : UInt8} (hb : ordinary b = true) (i : List UInt8) :
    Passes (ρ := ρ) stringPiece (b :: i) (some [b]) i := by
  obtain ⟨hquote, hslash, hlow⟩ := ordinary_iff.1 hb
  refine (passes_next b i).bind ?_
  split
  · next h => cases h
  · next h => exact absurd (Option.some.inj h) hquote
  · next h => exact absurd (Option.some.inj h) hslash
  · next h =>
      cases h
      rw [if_neg hlow]
      exact Passes.pure _ i

theorem passes_stringPiece_escape {bytes i o : List UInt8}
    (h : Passes (ρ := ρ) escape i bytes o) :
    Passes (ρ := ρ) stringPiece (Byte.backslash :: i) (some bytes) o :=
  (passes_next _ i).bind (h.bind (Passes.pure _ o))

theorem length_pos_of_piece {c : Char} {piece : List UInt8} (h : Piece c piece) :
    0 < piece.length := by
  cases h with
  | plain => exact List.length_pos_iff.2 (Text.Utf8.encodeChar_ne_nil c)
  | _ => simp [codeText]

/-- Every spelling of a character but itself is read in one step. -/
theorem passes_stringPiece {c : Char} {piece : List UInt8} (h : Piece c piece) (i : List UInt8) :
    piece.all ordinary = true ∧ piece = String.utf8EncodeChar c ∨
      Passes (ρ := ρ) stringPiece (piece ++ i) (some (String.utf8EncodeChar c)) i := by
  cases h with
  | plain hlow hquote hslash => exact .inl ⟨all_ordinary hlow hquote hslash, rfl⟩
  | letter h =>
      rw [encodeChar_escapedByte h]
      exact .inr (passes_stringPiece_escape (passes_escape_letter h i))
  | code h hlead htrail =>
      exact .inr (passes_stringPiece_escape ((passes_next _ _).bind
        ((passes_codeEscape h hlead htrail i).bind (Passes.pure _ i))))
  | pair h h' hlead htrail =>
      exact .inr (passes_stringPiece_escape ((passes_next _ _).bind
        ((passes_codeEscape_pair h h' hlead htrail i).bind (Passes.pure _ i))))

theorem passes_stringBytes_ordinary {i o bytes : List UInt8} :
    ∀ {run : List UInt8} {fuel : Nat} {acc : List UInt8}, run.all ordinary = true →
      Passes (ρ := ρ) (stringBytes fuel (run.reverse ++ acc)) i bytes o →
      Passes (ρ := ρ) (stringBytes (fuel + run.length) acc) (run ++ i) bytes o
  | [], _, _, _, h => h
  | b :: run, fuel, acc, hrun, h => by
      simp only [List.all_cons, Bool.and_eq_true] at hrun
      refine (passes_stringPiece_ordinary hrun.1 (run ++ i)).bind ?_
      refine passes_stringBytes_ordinary hrun.2 ?_
      simpa using h

/-- The bytes that a string collects are those of its characters. -/
theorem passes_stringBytes {cs : List Char} {inside : List UInt8} (h : Inside cs inside)
    (rest : List UInt8) :
    ∀ {fuel : Nat} {acc : List UInt8}, inside.length < fuel →
      Passes (ρ := ρ) (stringBytes fuel acc) (inside ++ Byte.quote :: rest)
        (acc.reverse ++ cs.flatMap String.utf8EncodeChar) rest := by
  induction h with
  | nil =>
      intro fuel acc hfuel
      obtain ⟨fuel, rfl⟩ : ∃ n, fuel = n + 1 := ⟨fuel - 1, by omega⟩
      have hpiece : Passes (ρ := ρ) stringPiece (Byte.quote :: rest) none rest :=
        (passes_next _ rest).bind (Passes.pure none rest)
      refine hpiece.bind ?_
      simpa using Passes.pure acc.reverse rest
  | @cons c cs piece bytes hpiece _ ih =>
      intro fuel acc hfuel
      rw [List.append_assoc]
      rw [List.length_append] at hfuel
      -- A character that stands for itself is taken byte by byte, any other in one step.
      rcases passes_stringPiece (ρ := ρ) hpiece (bytes ++ Byte.quote :: rest) with ⟨hall, heq⟩ | hstep
      · obtain ⟨fuel, rfl⟩ : ∃ n, fuel = n + piece.length := ⟨fuel - piece.length, by omega⟩
        refine passes_stringBytes_ordinary hall ?_
        have hmore := @ih fuel (piece.reverse ++ acc) (by omega)
        simpa [← heq] using hmore
      · obtain ⟨fuel, rfl⟩ : ∃ n, fuel = n + 1 := ⟨fuel - 1, by omega⟩
        refine hstep.bind ?_
        have hlen := length_pos_of_piece hpiece
        have hmore := @ih fuel ((String.utf8EncodeChar c).reverse ++ acc) (by omega)
        simpa using hmore

/-- A string is read as what its text writes. -/
theorem passes_stringBody {s : String} {inside : List UInt8} (h : Inside s.toList inside)
    (rest : List UInt8) :
    Passes (ρ := ρ) stringBody (inside ++ Byte.quote :: rest) s rest := by
  have hbytes : Passes (ρ := ρ) (fun c => stringBytes c.rest.length [] c)
      (inside ++ Byte.quote :: rest) (s.toList.flatMap String.utf8EncodeChar) rest := by
    intro place
    exact passes_stringBytes h rest (by simp) place
  refine hbytes.bind ?_
  simp only [decodeText, Text.Utf8.decode_flatMap, String.ofList_toList]
  exact Passes.pure s rest

/-! ## Passing a string -/

/-- Passes the next byte or escape of a string, or its closing mark: is there more of the string? -/
def skipPiece : Scan ρ Bool := do
  match ← peek with
  | none => flawHere .endInString
  | some Byte.quote => advance; pure false
  | some Byte.backslash => advance; skipEscape; pure true
  | some b => if b < 0x20 then flawHere .controlCharacter else do advance; pure true

/-- A string is passed piece by piece. -/
theorem skipString_succ (fuel : Nat) :
    (skipString (fuel + 1) : Scan ρ Unit) =
      skipPiece >>= fun more => if more then skipString fuel else pure () := by
  rw [skipString, skipPiece, bind_assoc]
  refine congrArg (peek >>= ·) (funext fun b? => ?_)
  split
  · rfl
  · rfl
  · simp only [bind_assoc]
    rfl
  · next b hquote hslash =>
      by_cases hlow : b < 0x20
      · simp only [hlow, if_true]
        rfl
      · simp only [hlow, if_false, bind_assoc]
        rfl

theorem passes_skipEscape_letter {b e : UInt8} (h : escapedByte? b = some e) (i : List UInt8) :
    Passes (ρ := ρ) skipEscape (b :: i) () i := by
  refine (passes_next b i).bind ?_
  have hu : b ≠ Byte.smallU := by
    rintro rfl
    rw [escapedByte?_smallU] at h
    cases h
  split
  · next hb => cases hb
  · next hb => exact absurd (Option.some.inj hb) hu
  · next b' _ hb =>
      cases hb
      rw [h]
      exact Passes.pure () i

theorem passes_skipEscape_code {a b d e : UInt8} {n : Nat} (h : hexCode? a b d e = some n)
    (i : List UInt8) :
    Passes (ρ := ρ) skipEscape (Byte.smallU :: a :: b :: d :: e :: i) () i :=
  (passes_next _ _).bind ((passes_hexEscape h i).bind (Passes.pure () i))

theorem passes_skipString_escape {fuel : Nat} {i m o : List UInt8}
    (h : Passes (ρ := ρ) skipEscape i () m) (hrest : Passes (ρ := ρ) (skipString fuel) m () o) :
    Passes (ρ := ρ) (skipString (fuel + 1)) (Byte.backslash :: i) () o :=
  (passes_peek _).bind ((passes_advance _ i).bind (h.bind hrest))

theorem passes_skipString_ordinary {i o : List UInt8} :
    ∀ {run : List UInt8} {fuel : Nat}, run.all ordinary = true →
      Passes (ρ := ρ) (skipString fuel) i () o →
      Passes (ρ := ρ) (skipString (fuel + run.length)) (run ++ i) () o
  | [], _, _, h => h
  | b :: run, fuel, hrun, h => by
      simp only [List.all_cons, Bool.and_eq_true] at hrun
      obtain ⟨hquote, hslash, hlow⟩ := ordinary_iff.1 hrun.1
      refine (passes_peek _).bind ?_
      have hmore := passes_skipString_ordinary hrun.2 h
      split
      · next h => cases h
      · next h => exact absurd (Option.some.inj h) hquote
      · next h => exact absurd (Option.some.inj h) hslash
      · next h =>
          cases h
          rw [if_neg hlow]
          exact (passes_advance _ _).bind hmore

theorem passes_skipString {cs : List Char} {inside : List UInt8} (h : Inside cs inside)
    (rest : List UInt8) :
    ∀ {fuel : Nat}, inside.length < fuel →
      Passes (ρ := ρ) (skipString fuel) (inside ++ Byte.quote :: rest) () rest := by
  induction h with
  | nil =>
      intro fuel hfuel
      obtain ⟨fuel, rfl⟩ : ∃ n, fuel = n + 1 := ⟨fuel - 1, by omega⟩
      exact (passes_peek _).bind (passes_advance _ rest)
  | @cons c cs piece bytes hpiece _ ih =>
      intro fuel hfuel
      rw [List.append_assoc]
      rw [List.length_append] at hfuel
      cases hpiece with
      | plain hlow hquote hslash =>
          obtain ⟨fuel, rfl⟩ : ∃ n, fuel = n + (String.utf8EncodeChar c).length :=
            ⟨fuel - (String.utf8EncodeChar c).length, by omega⟩
          exact passes_skipString_ordinary (all_ordinary hlow hquote hslash) (ih (by omega))
      | letter h =>
          obtain ⟨fuel, rfl⟩ : ∃ n, fuel = n + 1 := ⟨fuel - 1, by omega⟩
          simp only [List.length_cons, List.length_nil] at hfuel
          exact passes_skipString_escape (passes_skipEscape_letter h _) (ih (by omega))
      | code h _ _ =>
          obtain ⟨fuel, rfl⟩ : ∃ n, fuel = n + 1 := ⟨fuel - 1, by omega⟩
          simp only [codeText, List.length_cons, List.length_nil] at hfuel
          exact passes_skipString_escape (passes_skipEscape_code h _) (ih (by omega))
      -- Passing does not ask what a code stands for, so that a pair is two escapes here.
      | pair h h' _ _ =>
          obtain ⟨fuel, rfl⟩ : ∃ n, fuel = n + 2 := ⟨fuel - 2, by
            simp only [codeText, List.length_append, List.length_cons, List.length_nil] at hfuel
            omega⟩
          simp only [codeText, List.length_append, List.length_cons, List.length_nil] at hfuel
          exact passes_skipString_escape (passes_skipEscape_code h _)
            (passes_skipString_escape (passes_skipEscape_code h' _) (ih (by omega)))

theorem passes_skipStringBody {s : String} {inside : List UInt8} (h : Inside s.toList inside)
    (rest : List UInt8) :
    Passes (ρ := ρ) skipStringBody (inside ++ Byte.quote :: rest) () rest :=
  fun place => passes_skipString h rest (by simp) place

end OData.Json.Scan
