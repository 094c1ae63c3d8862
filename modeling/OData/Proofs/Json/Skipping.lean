/-
# `OData.Proofs.Json.Skipping` — every value can be passed

A value that nobody asks for is passed whatever it is and however deep it nests.  The reader keeps
the open brackets on a list of its own, so the induction on the tree is about an arbitrary list
beneath the value: passing the value leads to where `afterValue` goes on with that list.

How much fuel is left over is not said exactly.  `Goes n` asks for a scan that arrives with any fuel
from `n` on, and a value adds at most the length of its text to `n`.
-/
import OData.Json.Scan.Skip
import OData.Proofs.Json.Containers

namespace OData.Json.Scan

variable {ρ : Type} {i m o gap text : List UInt8} {outer : List Bracket}

/-- With `n` of fuel or more, what is to come is passed. -/
def Goes (ρ : Type) (n : Nat) (upcoming : Upcoming) (outer : List Bracket) (i o : List UInt8) : Prop :=
  ∀ fuel, n ≤ fuel → Passes (ρ := ρ) (skipFrom fuel upcoming outer) i () o

theorem Goes.weaken {n n' : Nat} {upcoming : Upcoming} (h : Goes ρ n upcoming outer i o)
    (hn : n ≤ n') : Goes ρ n' upcoming outer i o :=
  fun fuel hfuel => h fuel (Nat.le_trans hn hfuel)

theorem Goes.value {n : Nat} {upcoming : Upcoming} {outer' : List Bracket}
    (hstart : Passes (ρ := ρ) (skipStart outer) i (upcoming, outer') m)
    (h : Goes ρ n upcoming outer' m o) : Goes ρ (n + 1) .value outer i o := by
  intro fuel hfuel
  obtain ⟨fuel, rfl⟩ : ∃ k, fuel = k + 1 := ⟨fuel - 1, by omega⟩
  exact hstart.bind (h fuel (by omega))

theorem Goes.afterValue {n : Nat} {upcoming : Upcoming} {bracket : Bracket} {outer' : List Bracket}
    (hnext : Passes (ρ := ρ) (skipSeparator bracket outer) i (upcoming, outer') m)
    (h : Goes ρ n upcoming outer' m o) : Goes ρ (n + 1) .afterValue (bracket :: outer) i o := by
  intro fuel hfuel
  obtain ⟨fuel, rfl⟩ : ∃ k, fuel = k + 1 := ⟨fuel - 1, by omega⟩
  exact hnext.bind (h fuel (by omega))

/-! ## Values without parts -/

theorem passes_skipStart_number {n : Number} (hgap : Blank gap) (h : NumberText n text)
    (hi : Halts extendsNumber i) :
    Passes (ρ := ρ) (skipStart outer) (gap ++ (text ++ i)) (.afterValue, outer) i := by
  obtain ⟨l, hl, hn, ⟨hneg, rfl⟩ | ⟨hneg, rfl⟩⟩ := numberText_cases h
  all_goals
    have hnumber := passes_skipNumber (ρ := ρ) hl hi
  · simp only [List.cons_append, List.append_assoc]
    exact (passes_space_cons hgap rfl).bind
      ((passes_advance _ _).bind (hnumber.bind (Passes.pure _ i)))
  · obtain ⟨d, ds, hd, -, hds⟩ := AreDigits.exists_cons hl.whole hl.nonempty
    simp only [hds, digitsText, List.map_cons, List.cons_append, List.append_assoc] at hnumber ⊢
    refine (passes_space_cons hgap (isSpace_digitByte hd)).bind ?_
    split
    case h_1 heq => cases heq
    case h_9 heq =>
      cases heq
      rw [isDigit_digitByte hd, if_pos rfl]
      exact hnumber.bind (Passes.pure _ i)
    all_goals
      next heq => exact absurd (Option.some.inj heq) (digitByte_ne hd rfl)

theorem passes_skipStart_string {s : String} (hgap : Blank gap) (h : StringText s text) :
    Passes (ρ := ρ) (skipStart outer) (gap ++ (text ++ i)) (.afterValue, outer) i := by
  obtain ⟨inside, hinside, rfl⟩ := h
  have hbody := passes_skipStringBody (ρ := ρ) hinside i
  rw [List.cons_append, List.append_assoc]
  exact (passes_space_cons hgap rfl).bind
    ((passes_advance _ _).bind (hbody.bind (Passes.pure _ i)))

theorem passes_skipStart_word {word : String} (hword : word = "null" ∨ word = "true" ∨ word = "false")
    (hgap : Blank gap) :
    Passes (ρ := ρ) (skipStart outer) (gap ++ (Text.Utf8.encode word ++ i)) (.afterValue, outer)
      i := by
  rcases hword with rfl | rfl | rfl
  · exact (passes_space_cons hgap rfl).bind
      ((passes_wordFrom (by decide) i).bind (Passes.pure _ i))
  · exact (passes_space_cons hgap rfl).bind
      ((passes_wordFrom (by decide) i).bind (Passes.pure _ i))
  · exact (passes_space_cons hgap rfl).bind
      ((passes_wordFrom (by decide) i).bind (Passes.pure _ i))

/-! ## Brackets -/

theorem passes_skipName {name : String} {title : List UInt8} (hgap : Blank gap)
    (h : StringText name title) {gap' : List UInt8} (hgap' : Blank gap') :
    Passes (ρ := ρ) skipName (gap ++ (title ++ (gap' ++ Byte.colon :: i))) () i := by
  obtain ⟨inside, hinside, rfl⟩ := h
  have hbody := passes_skipStringBody (ρ := ρ) hinside (gap' ++ Byte.colon :: i)
  simp only [List.cons_append, List.append_assoc, List.nil_append]
  exact (passes_space_cons hgap rfl).bind ((passes_advance _ _).bind (hbody.bind
    ((passes_space_cons hgap' rfl).bind (passes_advance _ i))))

theorem passes_skipStart_list (hgap : Blank gap) {answer : Upcoming × List Bracket}
    (h : Passes (ρ := ρ) (skipOpening .list outer) (Byte.openBracket :: i) answer o) :
    Passes (ρ := ρ) (skipStart outer) (gap ++ Byte.openBracket :: i) answer o :=
  (passes_space_cons hgap rfl).bind h

theorem passes_skipStart_object (hgap : Blank gap) {answer : Upcoming × List Bracket}
    (h : Passes (ρ := ρ) (skipOpening .object outer) (Byte.openBrace :: i) answer o) :
    Passes (ρ := ρ) (skipStart outer) (gap ++ Byte.openBrace :: i) answer o :=
  (passes_space_cons hgap rfl).bind h

/-- The bracket of a list that is not empty, and the blanks behind it. -/
theorem passes_skipOpening_list {b : UInt8} (hgap : Blank gap) (hb : Byte.isSpace b = false)
    (hclose : b ≠ Byte.closeBracket) :
    Passes (ρ := ρ) (skipOpening .list outer) (Byte.openBracket :: (gap ++ b :: i))
      (.value, .list :: outer) (b :: i) := by
  refine (passes_advance _ _).bind ((passes_space_cons hgap hb).bind ?_)
  split
  · next heq => cases heq
  · next heq => exact absurd (Option.some.inj heq) hclose
  · next heq => exact Passes.pure _ _

theorem passes_skipOpening_list_nil (hgap : Blank gap) :
    Passes (ρ := ρ) (skipOpening .list outer)
      (Byte.openBracket :: (gap ++ Byte.closeBracket :: i)) (.afterValue, outer) i :=
  (passes_advance _ _).bind ((passes_space_cons hgap rfl).bind
    ((passes_advance _ i).bind (Passes.pure _ i)))

/-- The brace of an object that is not empty, and its first name. -/
theorem passes_skipOpening_object {name : String} {title gap' : List UInt8} (hgap : Blank gap)
    (h : StringText name title) (hgap' : Blank gap') :
    Passes (ρ := ρ) (skipOpening .object outer)
      (Byte.openBrace :: (gap ++ (title ++ (gap' ++ Byte.colon :: i)))) (.value, .object :: outer)
      i := by
  have hname := passes_skipName (ρ := ρ) blank_nil h hgap' (i := i)
  obtain ⟨title', -, rfl⟩ := h
  exact (passes_advance _ _).bind ((passes_space_cons hgap rfl).bind (hname.bind (Passes.pure _ _)))

theorem passes_skipOpening_object_nil (hgap : Blank gap) :
    Passes (ρ := ρ) (skipOpening .object outer)
      (Byte.openBrace :: (gap ++ Byte.closeBrace :: i)) (.afterValue, outer) i :=
  (passes_advance _ _).bind ((passes_space_cons hgap rfl).bind
    ((passes_advance _ i).bind (Passes.pure _ i)))

/-! ## Behind a value -/

theorem passes_skipSeparator_comma_list (hgap : Blank gap) :
    Passes (ρ := ρ) (skipSeparator .list outer) (gap ++ Byte.comma :: i) (.value, .list :: outer)
      i :=
  (passes_space_cons hgap rfl).bind ((passes_advance _ _).bind (Passes.pure _ _))

theorem passes_skipSeparator_comma_object {name : String} {title gap' gap'' : List UInt8}
    (hgap : Blank gap) (hgap' : Blank gap') (h : StringText name title) (hgap'' : Blank gap'') :
    Passes (ρ := ρ) (skipSeparator .object outer)
      (gap ++ Byte.comma :: (gap' ++ (title ++ (gap'' ++ Byte.colon :: i))))
      (.value, .object :: outer) i :=
  (passes_space_cons hgap rfl).bind ((passes_advance _ _).bind
    ((passes_skipName hgap' h hgap'').bind (Passes.pure _ _)))

theorem passes_skipSeparator_list (hgap : Blank gap) :
    Passes (ρ := ρ) (skipSeparator .list outer) (gap ++ Byte.closeBracket :: i)
      (.afterValue, outer) i :=
  (passes_space_cons hgap rfl).bind ((passes_advance _ i).bind (Passes.pure _ i))

theorem passes_skipSeparator_object (hgap : Blank gap) :
    Passes (ρ := ρ) (skipSeparator .object outer) (gap ++ Byte.closeBrace :: i)
      (.afterValue, outer) i :=
  (passes_space_cons hgap rfl).bind ((passes_advance _ i).bind (Passes.pure _ i))

/-! ## Values -/

/-- A value that leaves nothing open is passed at once. -/
theorem Goes.whole {t : Tree} {n : Nat} (htext : t.SpelledBy text)
    (hstart : Passes (ρ := ρ) (skipStart outer) (gap ++ (text ++ i)) (.afterValue, outer) i)
    (h : Goes ρ n .afterValue outer i o) :
    Goes ρ (n + text.length) .value outer (gap ++ (text ++ i)) o := by
  obtain ⟨b, more, rfl, -⟩ := head_of_spelledBy htext
  refine (Goes.value hstart h).weaken ?_
  rw [List.length_cons]
  omega

/-- The bracket of a list is passed if what it holds is, from the first item on. -/
theorem Goes.list {t : Tree} {n : Nat} {lead : List UInt8} (hgap : Blank gap) (hlead : Blank lead)
    (htext : t.SpelledBy text) (h : Goes ρ n .value (.list :: outer) (text ++ m) o) :
    Goes ρ (n + 1) .value outer (gap ++ Byte.openBracket :: (lead ++ (text ++ m))) o := by
  obtain ⟨b, more, rfl, hb, hclose, -⟩ := head_of_spelledBy htext
  exact .value (passes_skipStart_list hgap (passes_skipOpening_list hlead hb hclose)) h

mutual

-- The induction is on the tree.  In the text the parts of a value come before what is behind it, so
-- that they are put in front of what is passed anyway (`h`), the last one first.

/-- Every value is passed, whatever is open around it. -/
theorem goes_value : ∀ (t : Tree) {n : Nat} {gap text i o : List UInt8} {outer : List Bracket},
    Blank gap → t.SpelledBy text → Halts extendsNumber i → Goes ρ n .afterValue outer i o →
    Goes ρ (n + text.length) .value outer (gap ++ (text ++ i)) o
  | .null, n, gap, text, i, o, outer, hgap, htext, hi, h => by
      obtain rfl : text = Text.Utf8.encode "null" := htext
      exact .whole (t := .null) rfl (passes_skipStart_word (.inl rfl) hgap) h
  | .bool true, n, gap, text, i, o, outer, hgap, htext, hi, h => by
      obtain rfl : text = Text.Utf8.encode "true" := htext
      exact .whole (t := .bool true) rfl (passes_skipStart_word (.inr (.inl rfl)) hgap) h
  | .bool false, n, gap, text, i, o, outer, hgap, htext, hi, h => by
      obtain rfl : text = Text.Utf8.encode "false" := htext
      exact .whole (t := .bool false) rfl (passes_skipStart_word (.inr (.inr rfl)) hgap) h
  | .integer k, n, gap, text, i, o, outer, hgap, htext, hi, h =>
      .whole (t := .integer k) htext (passes_skipStart_number hgap htext hi) h
  | .double d, n, gap, text, i, o, outer, hgap, htext, hi, h =>
      .whole (t := .double d) htext (passes_skipStart_number hgap htext hi) h
  | .string s, n, gap, text, i, o, outer, hgap, htext, hi, h =>
      .whole (t := .string s) htext (passes_skipStart_string hgap htext) h
  | .list [], n, gap, text, i, o, outer, hgap, htext, hi, h => by
      refine .whole htext ?_ h
      obtain ⟨inside, hinside, rfl⟩ := htext
      simp only [List.cons_append, List.append_assoc, List.nil_append]
      exact passes_skipStart_list hgap (passes_skipOpening_list_nil hinside)
  | .list (item :: items), n, gap, text, i, o, outer, hgap, htext, hi, h => by
      obtain ⟨inside, ⟨lead, text, more, hlead, htext, hmore, rfl⟩, rfl⟩ := htext
      have hitems := goes_items items hmore h
      have hitem := goes_value item blank_nil htext (halts_items hmore) hitems
      simp only [List.cons_append, List.append_assoc, List.nil_append] at hitem ⊢
      refine (Goes.list hgap hlead htext hitem).weaken ?_
      simp only [List.length_cons, List.length_append]
      omega
  | .object [], n, gap, text, i, o, outer, hgap, htext, hi, h => by
      refine .whole htext ?_ h
      obtain ⟨inside, hinside, rfl⟩ := htext
      simp only [List.cons_append, List.append_assoc, List.nil_append]
      exact passes_skipStart_object hgap (passes_skipOpening_object_nil hinside)
  | .object ((name, value) :: members), n, gap, text, i, o, outer, hgap, htext, hi, h => by
      obtain ⟨inside, ⟨lead, title, gap', gap'', text, more, hlead, htitle, hgap', hgap'', htext,
        hmore, rfl⟩, rfl⟩ := htext
      have hmembers := goes_members members hmore h
      have hvalue := goes_value value hgap'' htext (halts_members hmore) hmembers
      simp only [List.cons_append, List.append_assoc, List.nil_append]
      refine (Goes.value (passes_skipStart_object hgap
        (passes_skipOpening_object hlead htitle hgap')) hvalue).weaken ?_
      simp only [List.length_cons, List.length_append]
      omega

/-- The items that are left of a list are passed, and its bracket. -/
theorem goes_items : ∀ (items : List Tree) {n : Nat} {more i o : List UInt8} {outer : List Bracket},
    Tree.ItemsSpelledBy false items more → Goes ρ n .afterValue outer i o →
    Goes ρ (n + more.length + 1) .afterValue (.list :: outer) (more ++ Byte.closeBracket :: i) o
  | [], n, more, i, o, outer, hmore, h => by
      exact (Goes.afterValue (passes_skipSeparator_list hmore) h).weaken (by omega)
  | item :: items, n, more, i, o, outer, hmore, h => by
      obtain ⟨lead, text, more, ⟨gap, gap', hgap, hgap', rfl⟩, htext, hmore, rfl⟩ := hmore
      have hitems := goes_items items hmore h
      have hitem := goes_value item hgap' htext (halts_items hmore) hitems
      simp only [List.cons_append, List.append_assoc]
      refine (Goes.afterValue (passes_skipSeparator_comma_list hgap) hitem).weaken ?_
      simp only [List.length_cons, List.length_append]
      omega

/-- The members that are left of an object are passed, and its brace. -/
theorem goes_members :
    ∀ (members : List (String × Tree)) {n : Nat} {more i o : List UInt8} {outer : List Bracket},
    Tree.MembersSpelledBy false members more → Goes ρ n .afterValue outer i o →
    Goes ρ (n + more.length + 1) .afterValue (.object :: outer) (more ++ Byte.closeBrace :: i) o
  | [], n, more, i, o, outer, hmore, h => by
      exact (Goes.afterValue (passes_skipSeparator_object hmore) h).weaken (by omega)
  | (name, value) :: members, n, more, i, o, outer, hmore, h => by
      obtain ⟨lead, title, gap', gap'', text, more, ⟨gap, gapl, hgap, hgapl, rfl⟩, htitle, hgap',
        hgap'', htext, hmore, rfl⟩ := hmore
      have hmembers := goes_members members hmore h
      have hvalue := goes_value value hgap'' htext (halts_members hmore) hmembers
      simp only [List.cons_append, List.append_assoc]
      refine (Goes.afterValue
        (passes_skipSeparator_comma_object hgap hgapl htitle hgap') hvalue).weaken ?_
      simp only [List.length_cons, List.length_append]
      omega

end

/-- A value of any kind and depth is passed. -/
theorem passes_skip {t : Tree} (h : t.Ahead i o) : Passes (ρ := ρ) skip i () o := by
  obtain ⟨gap, text, hgap, htext, ho, rfl⟩ := h
  -- Behind the outermost value nothing is open, and passing ends without any fuel.
  have hdone : Goes ρ 0 .afterValue [] o o := fun fuel _ => by
    rw [skipFrom]
    exact Passes.pure () o
  have hgoes := goes_value t hgap htext ho hdone
  exact fun place => hgoes _ (by simp only [List.length_append]; omega) place

end OData.Json.Scan
