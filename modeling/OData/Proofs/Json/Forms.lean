/-
# `OData.Proofs.Json.Forms` — what is JSON by its form

The grammar of JSON without any of the limits that the reader has: a number may be of any size, and a
string may hold the code of half a surrogate pair, or bytes that are no UTF-8.  `ValueForm depth text`
says that `text` is a value, with no blanks around it, in which containers nest at most `depth` deep.
The parts of a container are told apart by what stands between them, whatever the parts are; so what
is asked of the names of an object, or of its values, is a parameter (`MembersForm`).

Every text that spells a tree is of this form (`Tree.SpelledBy.form`).  Others are of this form and spell
nothing.
-/
import OData.Proofs.Json.Containers

namespace OData.Json

open Scan

/-! ## Strings -/

/-- The bytes are the inside of a string: ordinary bytes, letters behind a backslash and codes, whether
or not they make sense one behind the other. -/
inductive InsideForm : List UInt8 → Prop
  | nil : InsideForm []
  | plain {b : UInt8} {inside : List UInt8} (hb : ordinary b = true) (h : InsideForm inside) :
      InsideForm (b :: inside)
  | letter {b e : UInt8} {inside : List UInt8} (hb : escapedByte? b = some e)
      (h : InsideForm inside) : InsideForm (Byte.backslash :: b :: inside)
  | code {a b d e : UInt8} {n : Nat} {inside : List UInt8} (hn : hexCode? a b d e = some n)
      (h : InsideForm inside) : InsideForm (codeText a b d e ++ inside)

/-- The text is a string, its marks included. -/
def StringForm (text : List UInt8) : Prop :=
  ∃ inside, InsideForm inside ∧ text = Byte.quote :: (inside ++ [Byte.quote])

/-! ## Values -/

/-- The text is a value without parts. -/
inductive ScalarForm : List UInt8 → Prop
  | null : ScalarForm (Text.Utf8.encode "null")
  | true : ScalarForm (Text.Utf8.encode "true")
  | false : ScalarForm (Text.Utf8.encode "false")
  | number {l : Numeral} (hl : l.WellFormed) : ScalarForm l.text
  | string {text : List UInt8} (h : StringForm text) : ScalarForm text

/-- The items that are left of a list, up to its closing bracket. -/
inductive ItemsForm (Item : List UInt8 → Prop) : Bool → List UInt8 → Prop
  | nil {first : Bool} {inside : List UInt8} (hinside : Blank inside) : ItemsForm Item first inside
  | cons {first : Bool} {lead text more : List UInt8} (hlead : Lead first lead) (htext : Item text)
      (hmore : ItemsForm Item false more) : ItemsForm Item first (lead ++ (text ++ more))

/-- The members that are left of an object, up to its closing brace. -/
inductive MembersForm (Title Value : List UInt8 → Prop) : Bool → List UInt8 → Prop
  | nil {first : Bool} {inside : List UInt8} (hinside : Blank inside) :
      MembersForm Title Value first inside
  | cons {first : Bool} {lead title gap gap' text more : List UInt8} (hlead : Lead first lead)
      (htitle : Title title) (hgap : Blank gap) (hgap' : Blank gap') (htext : Value text)
      (hmore : MembersForm Title Value false more) :
      MembersForm Title Value first
        (lead ++ (title ++ (gap ++ Byte.colon :: (gap' ++ (text ++ more)))))

/-- The text is a value in which containers nest at most so deep. -/
def ValueForm : (depth : Nat) → List UInt8 → Prop
  | 0, text => ScalarForm text
  | depth + 1, text => ScalarForm text ∨
      (∃ inside, ItemsForm (ValueForm depth) true inside ∧
        text = Byte.openBracket :: (inside ++ [Byte.closeBracket])) ∨
      ∃ inside, MembersForm StringForm (ValueForm depth) true inside ∧
        text = Byte.openBrace :: (inside ++ [Byte.closeBrace])

theorem ScalarForm.value {text : List UInt8} (h : ScalarForm text) : ∀ depth, ValueForm depth text
  | 0 => h
  | _ + 1 => .inl h

/-! ## What is spelled -/

theorem insideForm_of_ordinary {more : List UInt8} (hmore : InsideForm more) :
    ∀ {run : List UInt8}, run.all ordinary = true → InsideForm (run ++ more)
  | [], _ => hmore
  | b :: run, hrun => by
      simp only [List.all_cons, Bool.and_eq_true] at hrun
      exact .plain hrun.1 (insideForm_of_ordinary hmore hrun.2)

theorem Inside.form {cs : List Char} {inside : List UInt8} (h : Inside cs inside) :
    InsideForm inside := by
  induction h with
  | nil => exact .nil
  | cons hpiece _ ih =>
      cases hpiece with
      | plain hlow hquote hslash => exact insideForm_of_ordinary ih (all_ordinary hlow hquote hslash)
      | letter h => exact .letter h ih
      | code h _ _ => exact .code h ih
      | pair h h' _ _ =>
          rw [List.append_assoc]
          exact .code h (.code h' ih)

theorem StringText.form {s : String} {text : List UInt8} (h : StringText s text) :
    StringForm text := by
  obtain ⟨inside, hinside, rfl⟩ := h
  exact ⟨inside, hinside.form, rfl⟩

theorem NumberText.form {n : Number} {text : List UInt8} (h : NumberText n text) :
    ScalarForm text := by
  obtain ⟨l, hl, -, rfl⟩ := h
  exact .number hl

theorem itemsForm_of_spelledBy {Item : List UInt8 → Prop} : ∀ {items : List Tree} {first : Bool}
    {inside : List UInt8}, Tree.ItemsSpelledBy first items inside →
      (∀ t ∈ items, ∀ text, t.SpelledBy text → Item text) → ItemsForm Item first inside
  | [], _, _, h, _ => .nil h
  | t :: items, _, _, h, hitem => by
      rw [List.forall_mem_cons] at hitem
      obtain ⟨lead, text, more, hlead, htext, hmore, rfl⟩ := h
      exact .cons hlead (hitem.1 text htext) (itemsForm_of_spelledBy hmore hitem.2)

theorem membersForm_of_spelledBy {Title Value : List UInt8 → Prop} :
    ∀ {members : List (String × Tree)} {first : Bool} {inside : List UInt8},
      Tree.MembersSpelledBy first members inside →
      (∀ m ∈ members, ∀ title, StringText m.1 title → Title title) →
      (∀ m ∈ members, ∀ text, m.2.SpelledBy text → Value text) →
      MembersForm Title Value first inside
  | [], _, _, h, _, _ => .nil h
  | (name, t) :: members, _, _, h, htitle, hvalue => by
      rw [List.forall_mem_cons] at htitle hvalue
      obtain ⟨lead, title, gap, gap', text, more, hlead, hname, hgap, hgap', htext, hmore, rfl⟩ := h
      exact .cons hlead (htitle.1 title hname) hgap hgap' (hvalue.1 text htext)
        (membersForm_of_spelledBy hmore htitle.2 hvalue.2)

/-- A text that spells a tree is a value, and containers nest in it as they do in the tree. -/
theorem Tree.SpelledBy.form : ∀ {depth : Nat} {t : Tree} {text : List UInt8}, t.SpelledBy text →
    t.depth ≤ depth → ValueForm depth text
  | depth, .null, _, h, _ => by
      obtain rfl := h
      exact ScalarForm.null.value depth
  | depth, .bool true, _, h, _ => by
      obtain rfl := h
      exact ScalarForm.true.value depth
  | depth, .bool false, _, h, _ => by
      obtain rfl := h
      exact ScalarForm.false.value depth
  | depth, .integer _, _, h, _ => (NumberText.form h).value depth
  | depth, .double _, _, h, _ => (NumberText.form h).value depth
  | depth, .string _, _, h, _ => (ScalarForm.string (StringText.form h)).value depth
  | 0, .list items, _, _, hdepth => absurd hdepth (Nat.not_succ_le_zero _)
  | 0, .object members, _, _, hdepth => absurd hdepth (Nat.not_succ_le_zero _)
  | depth + 1, .list items, _, h, hdepth => by
      obtain ⟨inside, hinside, rfl⟩ := h
      refine .inr (.inl ⟨inside, itemsForm_of_spelledBy hinside ?_, rfl⟩)
      intro t ht text htext
      exact htext.form (depth_list_le_iff.1 hdepth t ht)
  | depth + 1, .object members, _, h, hdepth => by
      obtain ⟨inside, hinside, rfl⟩ := h
      refine .inr (.inr ⟨inside, membersForm_of_spelledBy hinside ?_ ?_, rfl⟩)
      · intro m _ title htitle
        exact StringText.form htitle
      · intro m hm text htext
        exact htext.form (depth_object_le_iff.1 hdepth m hm)

end OData.Json
