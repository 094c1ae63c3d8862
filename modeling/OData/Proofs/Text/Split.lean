/-
# `OData.Proofs.Text.Split` — where a text is cut

A text is taken apart in three ways: at the first separator (`splitOnce`), at every separator
(`splitOn`), and at its blank ends (`trim`).  Each undoes the putting together of parts that have
nothing in them to be cut at: no separator inside, no blank outside.  Trimming and then cutting are
also undone together, where parts are written with blanks around them (`Padded`).
-/
import Mathlib
import OData.Text.Blank
import OData.Text.Split

namespace OData.Text

variable {sep c : Char} {cs before after head tail part text : List Char}

/-! ## At separators -/

/-- The first separator is behind text that has none. -/
theorem splitOnce_append (h : sep ∉ before) :
    splitOnce sep (before ++ sep :: after) = some (before, after) := by
  induction before with
  | nil => simp [splitOnce]
  | cons c before ih =>
      rw [List.mem_cons, not_or] at h
      rw [List.cons_append, splitOnce, if_neg (Ne.symm h.1), ih h.2]
      rfl

theorem join_eq_intercalate (sep : Char) (parts : List (List Char)) :
    join sep parts = [sep].intercalate parts := by
  induction parts with
  | nil => rfl
  | cons part parts ih =>
      cases parts with
      | nil => exact (List.intercalate_singleton ..).symm
      | cons next parts =>
          rw [join_cons (List.cons_ne_nil _ _), ih, List.intercalate_cons_cons, List.append_assoc]
          rfl

theorem splitOn_append (h : sep ∉ part) :
    splitOn sep (part ++ sep :: after) = part :: splitOn sep after := by
  induction part with
  | nil => simp [splitOn]
  | cons c part ih =>
      rw [List.mem_cons, not_or] at h
      rw [List.cons_append, splitOn, if_neg (Ne.symm h.1), ih h.2]

theorem splitOn_of_not_mem (h : sep ∉ cs) : splitOn sep cs = [cs] := by
  induction cs with
  | nil => rfl
  | cons c cs ih =>
      rw [List.mem_cons, not_or] at h
      rw [splitOn, if_neg (Ne.symm h.1), ih h.2]

/-- Parts that have no separator in them are found again. -/
theorem splitOn_join {parts : List (List Char)} (hne : parts ≠ []) (h : ∀ part ∈ parts, sep ∉ part) :
    splitOn sep (join sep parts) = parts := by
  induction parts with
  | nil => exact absurd rfl hne
  | cons part parts ih =>
      rw [List.forall_mem_cons] at h
      by_cases hlast : parts = []
      · subst hlast
        exact splitOn_of_not_mem h.1
      · rw [join_cons hlast, splitOn_append h.1, ih hlast h.2]

theorem mem_join {parts : List (List Char)} (hc : c ∈ part) (hpart : part ∈ parts) :
    c ∈ join sep parts := by
  induction parts with
  | nil => cases hpart
  | cons first parts ih =>
      by_cases hlast : parts = []
      · subst hlast
        rwa [List.mem_singleton.1 hpart] at hc
      · rw [join_cons hlast, List.mem_append, List.mem_cons]
        rcases List.mem_cons.1 hpart with rfl | hpart
        · exact .inl hc
        · exact .inr (.inr (ih hpart))

theorem not_mem_of_mem_splitOn (h : part ∈ splitOn sep cs) : sep ∉ part := by
  induction cs generalizing part with
  | nil =>
      obtain rfl : part = [] := List.mem_singleton.1 h
      exact List.not_mem_nil
  | cons c cs ih =>
      rw [splitOn] at h
      split at h
      · rcases List.mem_cons.1 h with rfl | h
        · exact List.not_mem_nil
        · exact ih h
      · next hc =>
          obtain ⟨first, parts, hsplit⟩ := List.exists_cons_of_ne_nil (splitOn_ne_nil sep cs)
          rw [hsplit] at h ih
          rcases List.mem_cons.1 h with rfl | h
          · rw [List.mem_cons, not_or]
            exact ⟨Ne.symm hc, ih List.mem_cons_self⟩
          · exact ih (List.mem_cons_of_mem _ h)

/-! ## At known text -/

theorem dropBeginning?_eq_some_iff :
    ∀ {head cs : List Char}, dropBeginning? head cs = some after ↔ cs = head ++ after
  | [], cs => by simp [dropBeginning?]
  | h :: head, [] => by simp [dropBeginning?]
  | h :: head, c :: cs => by
      rw [dropBeginning?, List.cons_append, List.cons.injEq]
      split
      · next hc =>
          rw [dropBeginning?_eq_some_iff]
          exact (and_iff_right hc.symm).symm
      · next hc => exact iff_of_false nofun fun hcs => hc hcs.1.symm

theorem dropEnding?_append (tail before : List Char) : dropEnding? tail (before ++ tail) = some before := by
  have hlength : (before ++ tail).length - tail.length = before.length := by simp
  rw [dropEnding?, hlength, if_pos ⟨List.drop_left, by simp⟩, List.take_left]

theorem eq_of_dropEnding?_eq_some (h : dropEnding? tail cs = some before) : cs = before ++ tail := by
  rw [dropEnding?] at h
  split at h
  · next htail =>
      calc cs = cs.take (cs.length - tail.length) ++ cs.drop (cs.length - tail.length) :=
            (List.take_append_drop _ _).symm
        _ = before ++ tail := by rw [Option.some.inj h, htail.1]
  · cases h

/-! ## At blank ends -/

/-- The text begins and ends with characters that are no blanks. -/
structure Trimmed (cs : List Char) : Prop where
  head : ∀ c ∈ cs.head?, isBlank c = false
  last : ∀ c ∈ cs.getLast?, isBlank c = false

theorem Trimmed.trim_eq (h : Trimmed cs) : trim cs = cs := by
  have hstart : trimStart cs = cs := by
    cases cs with
    | nil => rfl
    | cons c cs => exact List.dropWhile_cons_of_neg (by simpa using h.head)
  have hend : trimEnd cs = cs := by
    refine List.rdropWhile_eq_self_iff.2 ?_
    intro hne
    have hlast := h.last _ (List.getLast?_eq_some_getLast hne)
    rw [hlast]
    exact Bool.false_ne_true
  rw [trim, hstart, hend]

theorem trimmed_trim (cs : List Char) : Trimmed (trim cs) := by
  have hstart : ∀ c ∈ (trimStart cs).head?, isBlank c = false := by
    intro c hc
    have hhead := List.head?_dropWhile_not isBlank cs
    rw [trimStart] at hc
    rw [hc] at hhead
    exact hhead
  have hprefix : trim cs <+: trimStart cs := List.rdropWhile_prefix isBlank _
  refine ⟨?_, ?_⟩
  · intro c hc
    obtain ⟨rest, hrest⟩ := hprefix
    refine hstart c ?_
    rw [← hrest, List.head?_append, hc]
    rfl
  · intro c hc
    have hne : trim cs ≠ [] := by
      rintro h
      rw [h] at hc
      cases hc
    have hlast := List.rdropWhile_last_not isBlank (trimStart cs) hne
    rw [Option.mem_def, List.getLast?_eq_some_getLast hne, Option.some.injEq] at hc
    rw [← hc]
    exact Bool.eq_false_of_not_eq_true hlast

@[simp] theorem trim_trim (cs : List Char) : trim (trim cs) = trim cs :=
  (trimmed_trim cs).trim_eq

theorem trimmed_iff_trim_eq : Trimmed cs ↔ trim cs = cs :=
  ⟨Trimmed.trim_eq, fun h => h ▸ trimmed_trim cs⟩

theorem trimmed_of_forall (h : ∀ c ∈ cs, isBlank c = false) : Trimmed cs :=
  ⟨fun c hc => h c (List.mem_of_mem_head? hc), fun c hc => h c (List.mem_of_mem_getLast? hc)⟩

theorem mem_of_mem_trim (h : c ∈ trim cs) : c ∈ cs :=
  List.dropWhile_subset _ ((List.rdropWhile_prefix isBlank _).subset h)

/-- Only of blanks nothing is left. -/
theorem isBlank_of_trim_eq_nil (h : trim cs = []) : ∀ c ∈ cs, isBlank c = true := by
  have hend : ∀ c ∈ trimStart cs, isBlank c = true := List.rdropWhile_eq_nil_iff.1 h
  have hstart : trimStart cs = [] := by
    cases hrest : trimStart cs with
    | nil => rfl
    | cons c rest =>
        have hhead := List.head?_dropWhile_not isBlank cs
        rw [trimStart] at hrest hend
        rw [hrest] at hhead hend
        have hblank := hend c List.mem_cons_self
        exact absurd hhead (by simp [hblank])
  exact List.dropWhile_eq_nil_iff.1 hstart

/-- The ends of two texts are those of both together. -/
theorem Trimmed.append (h : Trimmed before) (h' : Trimmed after) (hne : before ≠ []) (hne' : after ≠ []) :
    Trimmed (before ++ after) := by
  refine ⟨?_, ?_⟩
  · rw [List.head?_append_of_ne_nil _ hne]
    exact h.head
  · rw [List.getLast?_append_of_ne_nil _ hne']
    exact h'.last

/-! ## Blanks around a text -/

theorem trimStart_append_of_blank (h : ∀ c ∈ before, isBlank c = true) (cs : List Char) :
    trimStart (before ++ cs) = trimStart cs :=
  List.dropWhile_append_of_pos h

theorem trimEnd_append_of_blank (h : ∀ c ∈ after, isBlank c = true) (cs : List Char) :
    trimEnd (cs ++ after) = trimEnd cs := by
  have hreverse : ∀ c ∈ after.reverse, isBlank c = true := fun c hc => h c (List.mem_reverse.1 hc)
  rw [trimEnd, List.reverse_append]
  exact congrArg List.reverse (trimStart_append_of_blank hreverse cs.reverse)

/-- Behind a character that is no blank nothing is taken from the beginning. -/
theorem trimStart_append_cons (hsep : isBlank sep = false) (before after : List Char) :
    trimStart (before ++ sep :: after) = trimStart before ++ sep :: after := by
  have hstays : trimStart (sep :: after) = sep :: after :=
    List.dropWhile_cons_of_neg (Bool.eq_false_iff.1 hsep)
  rw [trimStart, List.dropWhile_append]
  split
  · next hempty => rw [trimStart, List.isEmpty_iff.1 hempty]; exact hstays
  · rfl

theorem trimEnd_append_cons (hsep : isBlank sep = false) (before after : List Char) :
    trimEnd (before ++ sep :: after) = before ++ sep :: trimEnd after := by
  have hreverse := trimStart_append_cons hsep after.reverse before.reverse
  rw [trimStart] at hreverse
  simp only [trimEnd, List.reverse_append, List.reverse_cons, List.append_assoc,
    List.singleton_append, hreverse, trimStart, List.reverse_reverse]

/-- Around a separator that is no blank, the beginning of the first part and the end of the second are
trimmed. -/
theorem trim_append_cons (hsep : isBlank sep = false) (before after : List Char) :
    trim (before ++ sep :: after) = trimStart before ++ sep :: trimEnd after := by
  rw [trim, trimStart_append_cons hsep, trimEnd_append_cons hsep]

theorem trim_append_of_blank (h : ∀ c ∈ after, isBlank c = true) (cs : List Char) :
    trim (cs ++ after) = trim cs := by
  have hend : trimStart after = [] := List.dropWhile_eq_nil_iff.2 h
  rw [trim, trimStart, List.dropWhile_append]
  split
  · next hempty =>
      rw [trim, trimStart, List.isEmpty_iff.1 hempty]
      exact congrArg trimEnd hend
  · exact trimEnd_append_of_blank h _

@[simp] theorem trim_trimStart (cs : List Char) : trim (trimStart cs) = trim cs :=
  congrArg trimEnd (List.dropWhile_idempotent isBlank cs)

@[simp] theorem trim_trimEnd (cs : List Char) : trim (trimEnd cs) = trim cs := by
  have hblank : ∀ c ∈ cs.rtakeWhile isBlank, isBlank c = true := fun c => List.mem_rtakeWhile_imp
  have hparts : trimEnd cs ++ cs.rtakeWhile isBlank = cs := List.rdropWhile_append_rtakeWhile
  rw [← trim_append_of_blank hblank, hparts]

/-- The text is `cs` with blanks around it. -/
def Padded (cs text : List Char) : Prop :=
  ∃ before after, (∀ c ∈ before, isBlank c = true) ∧ (∀ c ∈ after, isBlank c = true) ∧
    text = before ++ cs ++ after

theorem padded_self (cs : List Char) : Padded cs cs := ⟨[], [], nofun, nofun, by simp⟩

theorem padded_trim (cs : List Char) : Padded (trim cs) cs := by
  refine ⟨cs.takeWhile isBlank, (trimStart cs).rtakeWhile isBlank, ?_, ?_, ?_⟩
  · exact fun c => List.mem_takeWhile_imp
  · exact fun c => List.mem_rtakeWhile_imp
  · have hend : trim cs ++ (trimStart cs).rtakeWhile isBlank = trimStart cs :=
      List.rdropWhile_append_rtakeWhile
    rw [List.append_assoc, hend]
    exact List.takeWhile_append_dropWhile.symm

/-- Blanks around a text are all that trimming takes away. -/
theorem Padded.trim_eq (h : Padded cs text) (htrimmed : Trimmed cs) : trim text = cs := by
  obtain ⟨before, after, hbefore, hafter, rfl⟩ := h
  rw [trim_append_of_blank hafter, ← trim_trimStart, trimStart_append_of_blank hbefore,
    trim_trimStart, htrimmed.trim_eq]

theorem Padded.eq_or_isBlank_of_mem (h : Padded cs text) (hc : c ∈ text) :
    c ∈ cs ∨ isBlank c = true := by
  obtain ⟨before, after, hbefore, hafter, rfl⟩ := h
  simp only [List.mem_append] at hc
  rcases hc with (hc | hc) | hc
  · exact .inr (hbefore c hc)
  · exact .inl hc
  · exact .inr (hafter c hc)

/-- A separator that is in none of two texts, and no blank, is found again whatever blanks are put
around the texts and around both together. -/
theorem splitOnce_trim_of_padded {text' : List Char} (hsep : isBlank sep = false)
    (h : Padded cs text) (hcs : sep ∉ cs) :
    splitOnce sep (trim (text ++ sep :: text')) = some (trimStart text, trimEnd text') := by
  rw [trim_append_cons hsep]
  refine splitOnce_append fun hmem => ?_
  rcases h.eq_or_isBlank_of_mem (List.dropWhile_subset _ hmem) with hcs' | hblank
  · exact hcs hcs'
  · rw [hsep] at hblank
    cases hblank

end OData.Text
