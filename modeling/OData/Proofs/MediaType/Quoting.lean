/-
# `OData.Proofs.MediaType.Quoting` — parts that are not cut, values that are unquoted

A media type is cut at the semicolons outside quotation marks.  What is written between two of
them has to be `Whole`: no semicolon in it is outside, and every mark that it opens it closes, so that
whatever follows is read as if it stood alone.  Tokens are whole, and so is every way of writing a
value (`ValueSpelling`), whichever characters the value has; parts that are whole are found again
behind one another (`splitUnquoted_join`).

The other way round, a text is cut into parts of which all but the last are whole (`CutInto`).
-/
import OData.MediaType.Text
import OData.Proofs.Text.Split

namespace OData.MediaType

open Text

variable {sep c : Char} {q : Quotation} {cs cs' part : List Char} {parts : List (List Char)}

/-! ## Tokens -/

theorem isToken_iff : isToken cs = true ↔ cs ≠ [] ∧ ∀ c ∈ cs, isTokenChar c = true := by
  simp [isToken]

/-- A character that is no token character is in no token. -/
theorem not_mem_of_isToken (h : isToken cs = true) (hc : isTokenChar c = false) : c ∉ cs := by
  intro hmem
  rw [(isToken_iff.1 h).2 c hmem] at hc
  cases hc

theorem isBlank_of_isAlphanum (h : c.isAlphanum = true) : isBlank c = false := by
  have hrange : 0x30 ≤ c.toNat ∧ c.toNat ≤ 0x7a := by
    have hval : c.val.toNat = c.toNat := rfl
    have hends : '0'.val.toNat = 0x30 ∧ '9'.val.toNat = 0x39 ∧ 'A'.val.toNat = 0x41 ∧
        'Z'.val.toNat = 0x5a ∧ 'a'.val.toNat = 0x61 ∧ 'z'.val.toNat = 0x7a :=
      ⟨rfl, rfl, rfl, rfl, rfl, rfl⟩
    simp only [Char.isAlphanum, Char.isAlpha, Char.isUpper, Char.isLower, Char.isDigit,
      Bool.or_eq_true, Bool.and_eq_true, decide_eq_true_eq, ge_iff_le, UInt32.le_iff_toNat_le,
      hval, hends] at h
    omega
  simp only [isBlank, Bool.or_eq_false_iff, Bool.and_eq_false_iff, decide_eq_false_iff_not,
    beq_eq_false_iff_ne]
  omega

theorem isBlank_of_mem_tokenMarks (h : c ∈ tokenMarks) : isBlank c = false := by
  have hall : tokenMarks.all (fun c => !isBlank c) = true := by decide
  exact Bool.not_eq_true' _ ▸ List.all_eq_true.1 hall c h

theorem isBlank_of_isTokenChar (h : isTokenChar c = true) : isBlank c = false := by
  rw [isTokenChar, Bool.or_eq_true, List.contains_iff_mem] at h
  rcases h with halphanum | hmark
  · exact isBlank_of_isAlphanum halphanum
  · exact isBlank_of_mem_tokenMarks hmark

theorem trimmed_of_isToken (h : isToken cs = true) : Trimmed cs :=
  trimmed_of_forall fun c hc => isBlank_of_isTokenChar ((isToken_iff.1 h).2 c hc)

/-! ## Parts that are not cut -/

/-- Where the character behind `cs` stands. -/
def Quotation.afterAll (q : Quotation) (cs : List Char) : Quotation :=
  cs.foldl (fun q c => q.after c) q

theorem Quotation.afterAll_append (q : Quotation) (cs cs' : List Char) :
    q.afterAll (cs ++ cs') = (q.afterAll cs).afterAll cs' :=
  List.foldl_append

/-- No separator in the text, which begins at `q`, is outside quotation marks. -/
def Uncut (sep : Char) : Quotation → List Char → Prop
  | _, [] => True
  | q, c :: cs => ¬ (c = sep ∧ q = .outside) ∧ Uncut sep (q.after c) cs

theorem uncut_append_iff :
    Uncut sep q (cs ++ cs') ↔ Uncut sep q cs ∧ Uncut sep (q.afterAll cs) cs' := by
  induction cs generalizing q with
  | nil => exact (true_and _).to_iff.symm
  | cons c cs ih =>
      rw [List.cons_append, Uncut, Uncut, ih, and_assoc]
      rfl

theorem splitUnquotedFrom_of_uncut (h : Uncut sep q cs) : splitUnquotedFrom sep q cs = [cs] := by
  induction cs generalizing q with
  | nil => rfl
  | cons c cs ih => rw [splitUnquotedFrom, if_neg h.1, ih h.2]

/-- A separator behind the closing mark cuts. -/
theorem splitUnquotedFrom_append (h : Uncut sep q cs) (hq : q.afterAll cs = .outside) :
    splitUnquotedFrom sep q (cs ++ sep :: cs') = cs :: splitUnquotedFrom sep .outside cs' := by
  induction cs generalizing q with
  | nil =>
      obtain rfl : q = .outside := hq
      rw [List.nil_append, splitUnquotedFrom, if_pos ⟨rfl, rfl⟩]
  | cons c cs ih => rw [List.cons_append, splitUnquotedFrom, if_neg h.1, ih h.2 hq]

/-- The text has no separator outside quotation marks and closes those that it opens. -/
structure Whole (sep : Char) (cs : List Char) : Prop where
  uncut : Uncut sep .outside cs
  closed : Quotation.afterAll .outside cs = .outside

theorem Whole.append (h : Whole sep cs) (h' : Whole sep cs') : Whole sep (cs ++ cs') :=
  ⟨uncut_append_iff.2 ⟨h.uncut, by rw [h.closed]; exact h'.uncut⟩,
    by rw [Quotation.afterAll_append, h.closed, h'.closed]⟩

theorem whole_of_forall (h : ∀ c ∈ cs, c ≠ sep ∧ c ≠ '"') : Whole sep cs := by
  induction cs with
  | nil => exact ⟨trivial, rfl⟩
  | cons c cs ih =>
      rw [List.forall_mem_cons] at h
      have hstays : Quotation.after c .outside = .outside := if_neg h.1.2
      have hrest := ih h.2
      exact ⟨⟨fun hsep => h.1.1 hsep.1, hstays.symm ▸ hrest.uncut⟩,
        (congrArg (Quotation.afterAll · cs) hstays).trans hrest.closed⟩

theorem whole_singleton (hsep : c ≠ sep) (hmark : c ≠ '"') : Whole sep [c] :=
  whole_of_forall (List.forall_mem_singleton.2 ⟨hsep, hmark⟩)

theorem whole_of_isToken (h : isToken cs = true) : Whole ';' cs := by
  refine whole_of_forall fun c hc => ⟨?_, ?_⟩
  · rintro rfl
    exact not_mem_of_isToken h (by decide) hc
  · rintro rfl
    exact not_mem_of_isToken h (by decide) hc

/-- Parts that are whole are found again. -/
theorem splitUnquoted_join (hne : parts ≠ [])
    (h : ∀ part ∈ parts, Whole sep part) : splitUnquoted sep (join sep parts) = parts := by
  induction parts with
  | nil => exact absurd rfl hne
  | cons part parts ih =>
      rw [List.forall_mem_cons] at h
      by_cases hlast : parts = []
      · subst hlast
        exact splitUnquotedFrom_of_uncut h.1.uncut
      · rw [join_cons hlast, splitUnquoted, splitUnquotedFrom_append h.1.uncut h.1.closed]
        exact congrArg (part :: ·) (ih hlast h.2)

/-- A text is cut at no place, or first behind a part that closes what it opens. -/
theorem uncut_or_cut (sep : Char) (q : Quotation) (cs : List Char) :
    Uncut sep q cs ∨ ∃ part rest, cs = part ++ sep :: rest ∧ Uncut sep q part ∧
      q.afterAll part = .outside := by
  induction cs generalizing q with
  | nil => exact .inl trivial
  | cons c cs ih =>
      by_cases hcut : c = sep ∧ q = .outside
      · obtain ⟨rfl, rfl⟩ := hcut
        exact .inr ⟨[], cs, rfl, trivial, rfl⟩
      · rcases ih (q.after c) with huncut | ⟨part, rest, rfl, huncut, hclosed⟩
        · exact .inl ⟨hcut, huncut⟩
        · exact .inr ⟨c :: part, rest, rfl, ⟨hcut, huncut⟩, hclosed⟩

theorem splitUnquoted_cases (sep : Char) (cs : List Char) :
    (Uncut sep .outside cs ∧ splitUnquoted sep cs = [cs]) ∨
      ∃ part rest, cs = part ++ sep :: rest ∧ Whole sep part ∧
        splitUnquoted sep cs = part :: splitUnquoted sep rest := by
  rcases uncut_or_cut sep .outside cs with huncut | ⟨part, rest, rfl, huncut, hclosed⟩
  · exact .inl ⟨huncut, splitUnquotedFrom_of_uncut huncut⟩
  · exact .inr ⟨part, rest, rfl, ⟨huncut, hclosed⟩, splitUnquotedFrom_append huncut hclosed⟩

/-- The text is cut into these parts: all but the last are whole, and no place is left where the last
would be cut. -/
inductive CutInto (sep : Char) : (cs : List Char) → (parts : List (List Char)) → Prop
  | last {cs : List Char} (huncut : Uncut sep .outside cs) : CutInto sep cs [cs]
  | cut {part rest : List Char} {parts : List (List Char)} (hwhole : Whole sep part)
      (hrest : CutInto sep rest parts) : CutInto sep (part ++ sep :: rest) (part :: parts)

theorem cutInto_splitUnquoted (sep : Char) (cs : List Char) :
    CutInto sep cs (splitUnquoted sep cs) := by
  induction hlength : cs.length using Nat.strongRecOn generalizing cs with
  | ind length ih =>
      rcases splitUnquoted_cases sep cs with ⟨huncut, hone⟩ | ⟨part, rest, rfl, hwhole, hmore⟩
      · rw [hone]
        exact .last huncut
      · have hshorter : rest.length < length := by
          rw [← hlength, List.length_append, List.length_cons]
          omega
        rw [hmore]
        exact .cut hwhole (ih _ hshorter rest rfl)

namespace CutInto

theorem splitUnquoted_eq (h : CutInto sep cs parts) : splitUnquoted sep cs = parts := by
  induction h with
  | last huncut => exact splitUnquotedFrom_of_uncut huncut
  | cut hwhole _ ih =>
      rw [splitUnquoted, splitUnquotedFrom_append hwhole.uncut hwhole.closed]
      exact congrArg (_ :: ·) ih

theorem ne_nil (h : CutInto sep cs parts) : parts ≠ [] := by
  cases h with
  | last _ => exact List.cons_ne_nil _ _
  | cut _ _ => exact List.cons_ne_nil _ _

/-- Nothing is lost by cutting. -/
theorem join_eq (h : CutInto sep cs parts) : join sep parts = cs := by
  induction h with
  | last _ => rfl
  | cut _ hrest ih => rw [join_cons hrest.ne_nil, ih]

theorem uncut_of_mem (h : CutInto sep cs parts) : ∀ part ∈ parts, Uncut sep .outside part := by
  induction h with
  | last huncut => exact List.forall_mem_singleton.2 huncut
  | cut hwhole _ ih => exact List.forall_mem_cons.2 ⟨hwhole.uncut, ih⟩

/-- All parts but the last close what they open. -/
theorem whole_of_mem_dropLast (h : CutInto sep cs parts) : ∀ part ∈ parts.dropLast, Whole sep part := by
  induction h with
  | last _ => exact nofun
  | cut hwhole hrest ih =>
      rw [List.dropLast_cons_of_ne_nil hrest.ne_nil]
      exact List.forall_mem_cons.2 ⟨hwhole, ih⟩

end CutInto

/-- Only the last part of a text can leave a quotation open. -/
theorem whole_of_splitUnquoted {before after : List (List Char)}
    (h : splitUnquoted sep cs = before ++ part :: after) (hafter : after ≠ []) : Whole sep part := by
  have hwhole := (cutInto_splitUnquoted sep cs).whole_of_mem_dropLast part
  rw [h, List.dropLast_append_of_ne_nil (List.cons_ne_nil _ _),
    List.dropLast_cons_of_ne_nil hafter] at hwhole
  exact hwhole (List.mem_append_right before List.mem_cons_self)

/-- Blanks do not open or close anything. -/
theorem whole_of_blank (h : ∀ c ∈ cs, isBlank c = true) : Whole ';' cs := by
  refine whole_of_forall fun c hc => ⟨?_, ?_⟩
  · rintro rfl
    exact absurd (h _ hc) (by decide)
  · rintro rfl
    exact absurd (h _ hc) (by decide)

theorem Whole.padded (h : Whole ';' cs) (hpadded : Padded cs part) : Whole ';' part := by
  obtain ⟨before, after, hbefore, hafter, rfl⟩ := hpadded
  exact ((whole_of_blank hbefore).append h).append (whole_of_blank hafter)

/-! ## Escapes -/

/-- `cs` is a text with a backslash in front of each mark and backslash in it, and of whichever other
characters. -/
inductive EscapedAs : (value cs : List Char) → Prop
  | nil : EscapedAs [] []
  | plain {c : Char} {value cs : List Char} (hmark : c ≠ '"') (hbackslash : c ≠ '\\')
      (h : EscapedAs value cs) : EscapedAs (c :: value) (c :: cs)
  | escaped {value cs : List Char} (c : Char) (h : EscapedAs value cs) :
      EscapedAs (c :: value) ('\\' :: c :: cs)

theorem escapedAs_flatMap (value : List Char) : EscapedAs value (value.flatMap escapeChar) := by
  induction value with
  | nil => exact .nil
  | cons c value ih =>
      rw [List.flatMap_cons]
      by_cases hc : c = '"' ∨ c = '\\'
      · have hescape : escapeChar c = ['\\', c] := if_pos hc
        rw [hescape]
        exact .escaped c ih
      · have hescape : escapeChar c = [c] := if_neg hc
        rw [not_or] at hc
        rw [hescape]
        exact .plain hc.1 hc.2 ih

variable {value : List Char}

/-- Inside quotation marks nothing is cut, and an escaped text does not lead out of them. -/
theorem EscapedAs.uncut (h : EscapedAs value cs) :
    Uncut sep .inside cs ∧ Quotation.afterAll .inside cs = .inside := by
  induction h with
  | nil => exact ⟨trivial, rfl⟩
  | @plain c value cs hmark hbackslash _ ih =>
      have hstays : Quotation.after c .inside = .inside := by
        rw [Quotation.after, if_neg hbackslash, if_neg hmark]
      refine ⟨⟨nofun, hstays.symm ▸ ih.1⟩, ?_⟩
      exact (congrArg (Quotation.afterAll · cs) hstays).trans ih.2
  | escaped c _ ih => exact ⟨⟨nofun, nofun, ih.1⟩, ih.2⟩

theorem EscapedAs.whole_quoted (h : EscapedAs value cs) (hsep : sep ≠ '"') :
    Whole sep ('"' :: cs ++ ['"']) := by
  have hinside : Uncut sep .inside cs ∧ Quotation.afterAll .inside cs = .inside := h.uncut
  have hopen : Quotation.afterAll .outside ('"' :: cs) = .inside := hinside.2
  refine ⟨uncut_append_iff.2 ⟨⟨fun hmark => hsep hmark.1.symm, hinside.1⟩, ?_⟩, ?_⟩
  · rw [hopen]
    exact ⟨nofun, trivial⟩
  · rw [Quotation.afterAll_append, hopen]
    rfl

theorem unescape_cons (hc : c ≠ '\\') (cs : List Char) : unescape (c :: cs) = c :: unescape cs := by
  conv_lhs => unfold unescape
  split <;> simp_all

theorem EscapedAs.unescape_eq (h : EscapedAs value cs) : unescape cs = value := by
  induction h with
  | nil => rfl
  | plain _ hbackslash _ ih => rw [unescape_cons hbackslash, ih]
  | escaped c _ ih => rw [unescape, ih]

/-! ## Values as they are written -/

/-- The two ways of writing a value: as it stands, if nothing in it is cut or trimmed, and in quotation
marks. -/
inductive ValueSpelling : (value cs : List Char) → Prop
  | bare {value : List Char} (hsemicolon : ';' ∉ value) (hmark : '"' ∉ value)
      (htrimmed : Trimmed value) : ValueSpelling value value
  | quoted {value cs : List Char} (h : EscapedAs value cs) : ValueSpelling value ('"' :: cs ++ ['"'])

theorem valueSpelling_valueText (value : String) : ValueSpelling value.toList (valueText value) := by
  rw [valueText]
  split
  · next htoken =>
      exact .bare (not_mem_of_isToken htoken (by decide)) (not_mem_of_isToken htoken (by decide))
        (trimmed_of_isToken htoken)
  · exact .quoted (escapedAs_flatMap value.toList)

theorem ValueSpelling.whole (h : ValueSpelling value cs) : Whole ';' cs := by
  cases h with
  | bare hsemicolon hmark _ =>
      exact whole_of_forall fun c hc =>
        ⟨ne_of_mem_of_not_mem hc hsemicolon, ne_of_mem_of_not_mem hc hmark⟩
  | quoted h => exact h.whole_quoted (by decide)

theorem ValueSpelling.trimmed (h : ValueSpelling value cs) : Trimmed cs := by
  cases h with
  | bare _ _ htrimmed => exact htrimmed
  | quoted h =>
      refine ⟨?_, ?_⟩
      · rintro c ⟨⟩
        rfl
      · rw [List.getLast?_append_of_ne_nil _ (List.cons_ne_nil _ _)]
        rintro c ⟨⟩
        rfl

/-- However a value is written, it is what is read. -/
theorem ValueSpelling.unquote_eq (h : ValueSpelling value cs) : unquote cs = .ok value := by
  cases h with
  | bare _ hmark _ =>
      rw [unquote]
      rintro inner rfl
      exact hmark List.mem_cons_self
  | quoted h =>
      rw [List.cons_append, unquote, dropEnding?_append]
      exact congrArg Except.ok h.unescape_eq

end OData.MediaType
