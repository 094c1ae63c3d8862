/-
# `OData.Proofs.Json.Starts` — how the text of a value starts

A reader stands in front of a value: `Ahead tree input output` says that `input` goes on with blanks
and a text of `tree`, and that `output` is what follows.  A number has no end of its own, so what
follows must not extend one.

`start` then shows the kind of the tree.  A value without parts it has read; of a list or an object
only the bracket comes next, and the text is still all there (`Tree.Opened`).
-/
import OData.Proofs.Json.Numbers
import OData.Proofs.Json.Strings

namespace OData.Json

open Scan

/-! ## Trees and their starts -/

namespace Tree

/-- What `start` shows of a value. -/
def start : Tree → Start
  | null => .scalar .null
  | bool b => .scalar (.bool b)
  | integer n => .scalar (.number (.integer n))
  | double d => .scalar (.number (.double d))
  | string s => .scalar (.string s)
  | list _ => .list
  | object _ => .object

/-- The string that a value is. -/
def string? : Tree → Option String
  | string s => some s
  | _ => none

/-- `input` goes on with the inside of a list. -/
def ItemsAhead (items : List Tree) (input output : List UInt8) : Prop :=
  ∃ inside, ItemsSpelledBy true items inside ∧ input = inside ++ Byte.closeBracket :: output

/-- `input` goes on with the inside of an object. -/
def MembersAhead (members : List (String × Tree)) (input output : List UInt8) : Prop :=
  ∃ inside, MembersSpelledBy true members inside ∧ input = inside ++ Byte.closeBrace :: output

/-- What is left of a value behind its start. -/
def Opened : Tree → List UInt8 → List UInt8 → Prop
  | list items, input, output =>
    ∃ i, ItemsAhead items i output ∧ input = Byte.openBracket :: i
  | object members, input, output =>
    ∃ i, MembersAhead members i output ∧ input = Byte.openBrace :: i
  | _, input, output => input = output

/-- `input` goes on with the text of the value, and `output` follows. -/
def Ahead (t : Tree) (input output : List UInt8) : Prop :=
  ∃ gap text, Blank gap ∧ t.SpelledBy text ∧ Halts extendsNumber output ∧
    input = gap ++ (text ++ output)

/-- `input` goes on with a colon and the value. -/
def BehindName (t : Tree) (input output : List UInt8) : Prop :=
  ∃ gap i, Blank gap ∧ t.Ahead i output ∧ input = gap ++ Byte.colon :: i

end Tree

theorem halts_of_blank {gap : List UInt8} (h : Blank gap) : Halts extendsNumber gap := by
  cases gap with
  | nil => exact halts_nil _
  | cons b gap =>
      refine halts_cons ?_
      have hb := h.tail.1
      revert hb
      unfold Byte.isSpace
      split <;> first | (intro; rfl) | (intro h; cases h)

/-- A whole text, as a reader has it in front of it. -/
theorem jsonText_iff_ahead {bytes : List UInt8} {t : Tree} :
    JsonText bytes t ↔ ∃ gap, Blank gap ∧ t.Ahead bytes gap := by
  constructor
  · rintro ⟨gap, text, gap', hgap, hgap', htext, rfl⟩
    exact ⟨gap', hgap', gap, text, hgap, htext, halts_of_blank hgap', rfl⟩
  · rintro ⟨gap', hgap', gap, text, hgap, htext, -, rfl⟩
    exact ⟨gap, text, gap', hgap, hgap', htext, rfl⟩

namespace Scan

variable {ρ : Type} {α : Type} {i o : List UInt8}

/-! ## Words and numbers -/

theorem passes_word (i : List UInt8) :
    ∀ ws : List UInt8, Passes (ρ := ρ) (word ws) (ws ++ i) () i
  | [] => Passes.pure () i
  | w :: ws => by
      refine (passes_next w (ws ++ i)).bind ?_
      simp only [if_true]
      exact passes_word i ws

theorem passes_wordFrom {text : String} (h : Text.Utf8.encode text ≠ []) (i : List UInt8) :
    Passes (ρ := ρ) (wordFrom text) (Text.Utf8.encode text ++ i) () i := by
  obtain ⟨b, ws, hws⟩ := List.exists_cons_of_ne_nil h
  rw [wordFrom, hws]
  exact (passes_advance b (ws ++ i)).bind (passes_word i ws)

theorem digitByte_ne {d : Nat} (hd : d < 10) {b : UInt8} (hb : Byte.isDigit b = false) :
    digitByte d ≠ b := by
  rintro rfl
  rw [isDigit_digitByte hd] at hb
  cases hb

theorem isSpace_digitByte {d : Nat} (hd : d < 10) : Byte.isSpace (digitByte d) = false := by
  revert d
  decide

/-- The text of a number is a minus sign and digits, or digits; what comes behind it is left open. -/
theorem numberText_cases {n : Number} {text : List UInt8} (h : NumberText n text) :
    ∃ l : Numeral, l.WellFormed ∧ l.number? = some n ∧
      ((l.negative = true ∧ text = Byte.minus :: (digitsText l.whole ++ (l.fractionText ++ l.powerText))) ∨
        l.negative = false ∧ text = digitsText l.whole ++ (l.fractionText ++ l.powerText)) := by
  obtain ⟨l, hl, hn, rfl⟩ := h
  refine ⟨l, hl, hn, ?_⟩
  cases hneg : l.negative with
  | true => exact .inl ⟨rfl, by simp [Numeral.text, Numeral.signText, hneg]⟩
  | false => exact .inr ⟨rfl, by simp [Numeral.text, Numeral.signText, hneg]⟩

/-! ## The start of a value -/

variable {gap text : List UInt8}

theorem passes_start_null (hgap : Blank gap) :
    Passes (ρ := ρ) start (gap ++ (Text.Utf8.encode "null" ++ i)) (.scalar .null) i :=
  (passes_space_cons hgap rfl).bind ((passes_wordFrom (by decide) i).bind (Passes.pure _ i))

theorem passes_start_true (hgap : Blank gap) :
    Passes (ρ := ρ) start (gap ++ (Text.Utf8.encode "true" ++ i)) (.scalar (.bool true)) i :=
  (passes_space_cons hgap rfl).bind ((passes_wordFrom (by decide) i).bind (Passes.pure _ i))

theorem passes_start_false (hgap : Blank gap) :
    Passes (ρ := ρ) start (gap ++ (Text.Utf8.encode "false" ++ i)) (.scalar (.bool false)) i :=
  (passes_space_cons hgap rfl).bind ((passes_wordFrom (by decide) i).bind (Passes.pure _ i))

theorem tries_start_string {inside : List UInt8} {s? : Option String} (hgap : Blank gap)
    (hbody : Tries (ρ := ρ) stringBody (inside ++ Byte.quote :: i) s? i) :
    Tries (ρ := ρ) start (gap ++ (Byte.quote :: (inside ++ [Byte.quote]) ++ i))
      (s?.map fun s => Start.scalar (.string s)) i := by
  rw [List.cons_append, List.append_assoc]
  exact (passes_space_cons hgap rfl).bind_tries
    ((passes_advance _ _).bind_tries (hbody.map fun s => Start.scalar (.string s)))

theorem passes_start_string {s : String} (hgap : Blank gap) (h : StringText s text) :
    Passes (ρ := ρ) start (gap ++ (text ++ i)) (.scalar (.string s)) i := by
  obtain ⟨inside, hinside, rfl⟩ := h
  have hbody : Tries (ρ := ρ) stringBody (inside ++ Byte.quote :: i) (some s) i :=
    passes_stringBody hinside i
  exact tries_start_string hgap hbody

/-- The value of a number is made of what is behind its whole digits. -/
theorem comesTo_start_number {l : Numeral} (hgap : Blank gap) (hl : l.WellFormed)
    (hi : Halts extendsNumber i) :
    ComesTo (ρ := ρ) start (gap ++ (l.text ++ i))
      (do return .scalar (.number (← numberRest l.negative l.whole)))
      (l.fractionText ++ (l.powerText ++ i)) := by
  have hnumber := (comesTo_numberRest (ρ := ρ) hl (halts_fractionText hl hi)).bind
    fun n => pure (Start.scalar (.number n))
  cases hneg : l.negative with
  | true =>
      rw [hneg] at hnumber
      simp only [Numeral.text, Numeral.signText, hneg, if_true, List.cons_append, List.nil_append,
        List.append_assoc]
      exact (passes_space_cons hgap rfl).comesTo ((passes_advance _ _).comesTo hnumber)
  | false =>
      obtain ⟨d, ds, hd, -, hds⟩ := AreDigits.exists_cons hl.whole hl.nonempty
      simp only [hneg, hds, digitsText, List.map_cons, List.cons_append] at hnumber
      simp only [Numeral.text, Numeral.signText, hneg, hds, digitsText, List.map_cons,
        List.cons_append, List.append_assoc, Bool.false_eq_true, if_false, List.nil_append]
      refine (passes_space_cons hgap (isSpace_digitByte hd)).comesTo ?_
      split
      case h_1 heq => cases heq
      case h_9 heq =>
        cases heq
        rw [isDigit_digitByte hd, if_pos rfl]
        exact hnumber
      all_goals
        next heq => exact absurd (Option.some.inj heq) (digitByte_ne hd rfl)

/-- A number is read as what its numeral stands for, unless that is out of range. -/
theorem tries_start_number {l : Numeral} (hgap : Blank gap) (hl : l.WellFormed)
    (hi : Halts extendsNumber i) :
    Tries (ρ := ρ) start (gap ++ (l.text ++ i)) (l.number?.map fun n => Start.scalar (.number n)) i :=
  (comesTo_start_number hgap hl hi).tries
    ((tries_numberRest hl hi).map fun n => Start.scalar (.number n))

theorem passes_start_number {n : Number} (hgap : Blank gap) (h : NumberText n text)
    (hi : Halts extendsNumber i) :
    Passes (ρ := ρ) start (gap ++ (text ++ i)) (.scalar (.number n)) i := by
  obtain ⟨l, hl, hn, rfl⟩ := h
  have hstart := tries_start_number (ρ := ρ) hgap hl hi
  rwa [hn] at hstart

theorem passes_start_list (hgap : Blank gap) (i : List UInt8) :
    Passes (ρ := ρ) start (gap ++ Byte.openBracket :: i) .list (Byte.openBracket :: i) :=
  (passes_space_cons hgap rfl).bind (Passes.pure _ _)

theorem passes_start_object (hgap : Blank gap) (i : List UInt8) :
    Passes (ρ := ρ) start (gap ++ Byte.openBrace :: i) .object (Byte.openBrace :: i) :=
  (passes_space_cons hgap rfl).bind (Passes.pure _ _)

/-- In front of a value, `start` shows its kind and reads it if it has no parts. -/
theorem passes_start {t : Tree} (h : t.Ahead i o) :
    ∃ m, Passes (ρ := ρ) start i t.start m ∧ t.Opened m o := by
  obtain ⟨gap, text, hgap, htext, ho, rfl⟩ := h
  cases t with
  | null => exact ⟨o, htext ▸ passes_start_null hgap, rfl⟩
  | bool b =>
      cases b with
      | true => exact ⟨o, htext ▸ passes_start_true hgap, rfl⟩
      | false => exact ⟨o, htext ▸ passes_start_false hgap, rfl⟩
  | integer n => exact ⟨o, passes_start_number hgap htext ho, rfl⟩
  | double d => exact ⟨o, passes_start_number hgap htext ho, rfl⟩
  | string s => exact ⟨o, passes_start_string hgap htext, rfl⟩
  | list items =>
      obtain ⟨inside, hinside, rfl⟩ := htext
      refine ⟨_, ?_, inside ++ Byte.closeBracket :: o, ⟨inside, hinside, rfl⟩, rfl⟩
      simp only [List.cons_append, List.append_assoc, List.nil_append]
      exact passes_start_list hgap _
  | object members =>
      obtain ⟨inside, hinside, rfl⟩ := htext
      refine ⟨_, ?_, inside ++ Byte.closeBrace :: o, ⟨inside, hinside, rfl⟩, rfl⟩
      simp only [List.cons_append, List.append_assoc, List.nil_append]
      exact passes_start_object hgap _

theorem head_of_numeral {l : Numeral} (hl : l.WellFormed) :
    ∃ b more, l.text = b :: more ∧ Byte.isSpace b = false ∧ b ≠ Byte.closeBracket ∧
      b ≠ Byte.smallN := by
  rw [Numeral.text, Numeral.signText]
  split
  · exact ⟨_, _, rfl, rfl, by decide, by decide⟩
  · obtain ⟨d, ds, hd, -, hds⟩ := AreDigits.exists_cons hl.whole hl.nonempty
    rw [hds]
    exact ⟨_, _, rfl, isSpace_digitByte hd, digitByte_ne hd rfl, digitByte_ne hd rfl⟩

/-- No value starts with a blank, or with what ends a container or stands between its parts; and only one
starts with the letter of the word `null`. -/
theorem head_of_spelledBy {t : Tree} (h : t.SpelledBy text) :
    ∃ b more, text = b :: more ∧ Byte.isSpace b = false ∧ b ≠ Byte.closeBracket ∧
      (t ≠ .null → b ≠ Byte.smallN) := by
  have hnumber : ∀ {n : Number}, NumberText n text →
      ∃ b more, text = b :: more ∧ Byte.isSpace b = false ∧ b ≠ Byte.closeBracket ∧
        (t ≠ .null → b ≠ Byte.smallN) := by
    rintro n ⟨l, hl, -, rfl⟩
    obtain ⟨b, more, htext, hspace, hclose, hnull⟩ := head_of_numeral hl
    exact ⟨b, more, htext, hspace, hclose, fun _ => hnull⟩
  cases t with
  | null => exact ⟨_, _, h, rfl, by decide, fun hnull => absurd rfl hnull⟩
  | bool b => cases b <;> exact ⟨_, _, h, rfl, by decide, fun _ => by decide⟩
  | integer n => exact hnumber h
  | double d => exact hnumber h
  | string s =>
      obtain ⟨inside, -, rfl⟩ := h
      exact ⟨_, _, rfl, rfl, by decide, fun _ => by decide⟩
  | list items =>
      obtain ⟨inside, -, rfl⟩ := h
      exact ⟨_, _, rfl, rfl, by decide, fun _ => by decide⟩
  | object members =>
      obtain ⟨inside, -, rfl⟩ := h
      exact ⟨_, _, rfl, rfl, by decide, fun _ => by decide⟩

/-! ## Values of one kind -/

variable {good : α → Prop} {bad : Prop}

/-- A reader that tells values apart by their start, and its answer to each kind. -/
theorem Yields.of_start {t : Tree} {k : Start → Scan ρ α} (h : t.Ahead i o)
    (hk : ∀ m, t.Opened m o → Yields (k t.start) m o good bad) :
    Yields (start >>= k) i o good bad := by
  obtain ⟨m, hstart, hm⟩ := passes_start (ρ := ρ) h
  exact hstart.bind_yields (hk m hm)

theorem yields_string {t : Tree} {expected : String} (h : t.Ahead i o) :
    Yields (ρ := ρ) (string expected) i o (fun s => t.string? = some s) (t.string? = none) := by
  refine (Yields.of_start h ?_).located
  intro m hm
  cases t with
  | string s =>
      obtain rfl : m = o := hm
      exact yields_pure rfl
  | _ => exact yields_misfit rfl

end Scan

end OData.Json
