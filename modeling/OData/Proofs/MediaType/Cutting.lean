/-
# `OData.Proofs.MediaType.Cutting` — where a text is cut

Whether a separator cuts is a question about the text in front of it, and one that can be put without the
states of cutting (`Quotation`): it cuts if the quotation marks in front of it are even in number, those
left out that are escaped.  What escapes a character is a backslash directly in front of it, but only
inside quotation marks and only if it is not escaped itself, so that the two are counted together:

| in front of a place | state of cutting |
| :-- | :-- |
| an even number of marks | `outside` |
| an odd number of marks | `inside` |
| an odd number of marks, and directly a backslash that is not escaped | `escaped` |

The parts are then what lies between such separators.  All but the last have an even number of marks
themselves, and none of them would be cut again.
-/
import OData.Proofs.MediaType.Quoting

namespace OData.MediaType

open Text

variable {sep c : Char} {q : Quotation} {cs front back part : List Char}
  {parts parts' : List (List Char)} {i : Nat}

/-! ## Marks that count -/

mutual

/-- The character at `i` is escaped: it follows a backslash that is inside quotation marks and not
escaped itself. -/
def escapedAt (cs : List Char) : Nat → Bool
  | 0 => false
  | i + 1 => cs[i]? == some '\\' && !escapedAt cs i && marksBefore cs i % 2 == 1

/-- The number of quotation marks in front of the place `i`, without those that are escaped. -/
def marksBefore (cs : List Char) : Nat → Nat
  | 0 => 0
  | i + 1 => marksBefore cs i + if cs[i]? == some '"' && !escapedAt cs i then 1 else 0

end

theorem marksBefore_succ_of_mark (hc : cs[i]? = some '"') (hplain : escapedAt cs i = false) :
    marksBefore cs (i + 1) = marksBefore cs i + 1 := by
  simp [marksBefore, hc, hplain]

theorem marksBefore_succ_of_ne (hc : cs[i]? = some c) (hother : c ≠ '"') :
    marksBefore cs (i + 1) = marksBefore cs i := by
  simp [marksBefore, hc, hother]

theorem marksBefore_succ_of_escaped (hescaped : escapedAt cs i = true) :
    marksBefore cs (i + 1) = marksBefore cs i := by
  simp [marksBefore, hescaped]

theorem escapedAt_succ_iff (hc : cs[i]? = some c) :
    escapedAt cs (i + 1) = true ↔ c = '\\' ∧ escapedAt cs i = false ∧ Odd (marksBefore cs i) := by
  simp [escapedAt, hc, Nat.odd_iff, and_assoc]

/-- What the marks in front of a place say of the state there. -/
inductive Stands (cs : List Char) (i : Nat) : Quotation → Prop
  | outside (hmarks : Even (marksBefore cs i)) (hplain : ¬ escapedAt cs i) : Stands cs i .outside
  | inside (hmarks : Odd (marksBefore cs i)) (hplain : ¬ escapedAt cs i) : Stands cs i .inside
  | escaped (hmarks : Odd (marksBefore cs i)) (hescaped : escapedAt cs i) : Stands cs i .escaped

theorem Stands.outside_iff_even (h : Stands cs i q) : q = .outside ↔ Even (marksBefore cs i) := by
  cases h with
  | outside hmarks _ => exact iff_of_true rfl hmarks
  | inside hmarks _ => exact iff_of_false nofun (Nat.not_even_iff_odd.2 hmarks)
  | escaped hmarks _ => exact iff_of_false nofun (Nat.not_even_iff_odd.2 hmarks)

/-- A mark that is not escaped changes sides, and a backslash that is not escaped takes the character
behind it, but only inside; what is taken changes nothing. -/
theorem Stands.after (h : Stands cs i q) (hc : cs[i]? = some c) : Stands cs (i + 1) (q.after c) := by
  cases h with
  | outside hmarks hplain =>
      have hnext : ¬ escapedAt cs (i + 1) := fun hescaped =>
        Nat.not_even_iff_odd.2 ((escapedAt_succ_iff hc).1 hescaped).2.2 hmarks
      rw [Quotation.after]
      split
      · next hmark =>
          subst hmark
          refine .inside ?_ hnext
          rw [marksBefore_succ_of_mark hc (Bool.eq_false_iff.2 hplain)]
          exact hmarks.add_one
      · next hother =>
          refine .outside ?_ hnext
          rwa [marksBefore_succ_of_ne hc hother]
  | inside hmarks hplain =>
      have hfalse := Bool.eq_false_iff.2 hplain
      rw [Quotation.after]
      split
      · next hbackslash =>
          refine .escaped ?_ ((escapedAt_succ_iff hc).2 ⟨hbackslash, hfalse, hmarks⟩)
          rwa [marksBefore_succ_of_ne hc (by rintro rfl; cases hbackslash)]
      · next hbackslash =>
          have hnext : ¬ escapedAt cs (i + 1) := fun hescaped =>
            hbackslash ((escapedAt_succ_iff hc).1 hescaped).1
          split
          · next hmark =>
              subst hmark
              refine .outside ?_ hnext
              rw [marksBefore_succ_of_mark hc hfalse]
              exact hmarks.add_one
          · next hother =>
              refine .inside ?_ hnext
              rwa [marksBefore_succ_of_ne hc hother]
  | escaped hmarks hescaped =>
      refine .inside ?_ fun hnext => ?_
      · rwa [marksBefore_succ_of_escaped hescaped]
      · rw [((escapedAt_succ_iff hc).1 hnext).2.1] at hescaped
        cases hescaped

/-- Cutting stands at each place of a text as the marks in front of it say. -/
theorem stands_afterAll (hi : i ≤ cs.length) :
    Stands cs i (Quotation.afterAll .outside (cs.take i)) := by
  induction i with
  | zero => exact .outside .zero Bool.false_ne_true
  | succ i ih =>
      have hc := List.getElem?_eq_getElem hi
      rw [List.take_succ_eq_append_getElem hi, Quotation.afterAll_append]
      exact (ih (Nat.le_of_succ_le hi)).after hc

/-! ## Parts behind one another -/

/-- A separator outside quotation marks leaves what follows outside. -/
theorem afterAll_append_cons (hsep : sep ≠ '"') (hfront : Quotation.afterAll .outside front = .outside)
    (back : List Char) :
    Quotation.afterAll .outside (front ++ sep :: back) = Quotation.afterAll .outside back := by
  have hstays : Quotation.after sep .outside = .outside := if_neg hsep
  rw [Quotation.afterAll_append, hfront]
  exact congrArg (Quotation.afterAll · back) hstays

theorem CutInto.append (hsep : sep ≠ '"') (hfront : Quotation.afterAll .outside front = .outside)
    (h : CutInto sep front parts) (h' : CutInto sep back parts') :
    CutInto sep (front ++ sep :: back) (parts ++ parts') := by
  induction h with
  | last huncut => exact .cut ⟨huncut, hfront⟩ h'
  | cut hwhole _ ih =>
      rw [afterAll_append_cons hsep hwhole.closed] at hfront
      rw [List.append_assoc, List.cons_append, List.cons_append]
      exact .cut hwhole (ih hfront)

theorem afterAll_join (hsep : sep ≠ '"') (hne : parts ≠ []) (h : ∀ part ∈ parts, Whole sep part) :
    Quotation.afterAll .outside (join sep parts) = .outside := by
  induction parts with
  | nil => exact absurd rfl hne
  | cons part parts ih =>
      rw [List.forall_mem_cons] at h
      by_cases hlast : parts = []
      · subst hlast
        exact h.1.closed
      · rw [join_cons hlast, afterAll_append_cons hsep h.1.closed]
        exact ih hlast h.2

/-! ## Where it is cut -/

/-- The separator at `i` is a cut: some of the parts make up the text in front of it, and the others the
text behind it. -/
def CutAt (sep : Char) (cs : List Char) (i : Nat) : Prop :=
  ∃ parts parts', splitUnquoted sep cs = parts ++ parts' ∧ parts ≠ [] ∧ parts' ≠ [] ∧
    join sep parts = cs.take i ∧ join sep parts' = cs.drop (i + 1)

/-- A separator is a cut exactly if it is outside quotation marks. -/
theorem cutAt_iff_outside (hsep : sep ≠ '"') (hi : cs[i]? = some sep) :
    CutAt sep cs i ↔ Quotation.afterAll .outside (cs.take i) = .outside := by
  constructor
  · rintro ⟨parts, parts', hparts, hne, hne', hfront, -⟩
    have hwhole := (cutInto_splitUnquoted sep cs).whole_of_mem_dropLast
    rw [hparts, List.dropLast_append_of_ne_nil hne', List.forall_mem_append] at hwhole
    rw [← hfront]
    exact afterAll_join hsep hne hwhole.1
  · intro houtside
    have hfront := cutInto_splitUnquoted sep (cs.take i)
    have hback := cutInto_splitUnquoted sep (cs.drop (i + 1))
    have hcs : cs.take i ++ sep :: cs.drop (i + 1) = cs := by
      obtain ⟨hlt, rfl⟩ := List.getElem?_eq_some_iff.1 hi
      rw [← List.drop_eq_getElem_cons hlt, List.take_append_drop]
    have hparts := (hfront.append hsep houtside hback).splitUnquoted_eq
    rw [hcs] at hparts
    exact ⟨_, _, hparts, hfront.ne_nil, hback.ne_nil, hfront.join_eq, hback.join_eq⟩

/-- Cutting at semicolons loses nothing; a semicolon is a cut exactly if the marks in front of it that
are not escaped are even in number; all parts but the last have an even number of them; and no part would
be cut again. -/
theorem cut_where_marks_even (cs : List Char) :
    splitUnquoted ';' cs ≠ [] ∧ join ';' (splitUnquoted ';' cs) = cs ∧
    (∀ i, cs[i]? = some ';' → (CutAt ';' cs i ↔ Even (marksBefore cs i))) ∧
    (∀ part ∈ (splitUnquoted ';' cs).dropLast, Even (marksBefore part part.length)) ∧
    ∀ part ∈ splitUnquoted ';' cs, splitUnquoted ';' part = [part] := by
  have hcut := cutInto_splitUnquoted ';' cs
  refine ⟨hcut.ne_nil, hcut.join_eq, fun i hi => ?_, fun part hpart => ?_, fun part hpart => ?_⟩
  · have hle : i ≤ cs.length := (List.getElem?_eq_some_iff.1 hi).1.le
    rw [cutAt_iff_outside (by decide) hi, (stands_afterAll hle).outside_iff_even]
  · have hstands := stands_afterAll (Nat.le_refl part.length)
    rw [List.take_length] at hstands
    exact hstands.outside_iff_even.1 (hcut.whole_of_mem_dropLast part hpart).closed
  · exact splitUnquotedFrom_of_uncut (hcut.uncut_of_mem part hpart)

/-- A semicolon behind a backslash that is outside quotation marks, one behind a mark that is escaped, and
one behind the mark that closes. -/
theorem cut_where_marks_even_escaped :
    let cs := "a\\;\"\\\";\";b".toList
    let part := "\"\\\";\"".toList
    CutAt ';' cs 2 ∧ ¬ CutAt ';' cs 6 ∧ CutAt ';' cs 8 ∧ Even (marksBefore part part.length) ∧
      splitUnquoted ';' part = [part] := by
  intro cs part
  obtain ⟨-, -, hcut, hmarks, hagain⟩ := cut_where_marks_even cs
  have hparts : splitUnquoted ';' cs = ["a\\".toList, part, ['b']] := by decide
  refine ⟨(hcut 2 rfl).2 (by decide), mt (hcut 6 rfl).1 (by decide), (hcut 8 rfl).2 (by decide),
    hmarks part ?_, hagain part ?_⟩
  · rw [hparts]
    exact List.mem_cons_of_mem _ List.mem_cons_self
  · rw [hparts]
    exact List.mem_cons_of_mem _ List.mem_cons_self

end OData.MediaType
