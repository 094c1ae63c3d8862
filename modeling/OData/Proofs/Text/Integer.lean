/-
# `OData.Proofs.Text.Integer` — the decimal text of an integer

Reading the canonical text of an integer gives the integer back, so two integers never share a text.
The digits themselves are those of the library, with its lemmas.

Which texts are canonical can also be said without writing any: they are digits that do not begin with
a zero, perhaps with a minus sign in front of them, or a zero alone (`IsDecimal`).  A plus sign, a needless
zero, a blank or a signed zero is left no place.
-/
import Mathlib
import OData.Text.Integer

namespace OData.Text

theorem isDigit_of_mem_toDigits {n : Nat} {c : Char} (h : c ∈ Nat.toDigits 10 n) : c.isDigit = true :=
  Nat.isDigit_of_mem_toDigits (by decide) (by decide) h

/-- The first digit of a number is zero only if the number is. -/
theorem head_toDigits {n : Nat} (hn : 0 < n) : (Nat.toDigits 10 n).head? ≠ some '0' := by
  induction n using Nat.strongRecOn with
  | ind n ih =>
      rw [Nat.toDigits_eq_if (by decide)]
      split
      · next hlt =>
          intro h
          have h0 := Nat.toNat_digitChar_of_lt_ten hlt
          rw [List.head?_cons, Option.some.injEq] at h
          rw [h] at h0
          have h48 : '0'.toNat = 48 := rfl
          omega
      · next hge =>
          rw [List.head?_append, List.head?_eq_some_head Nat.toDigits_ne_nil, Option.some_or,
            ← List.head?_eq_some_head]
          exact ih (n / 10) (by omega) (by omega)

theorem natural?_toDigits (n : Nat) : natural? (Nat.toDigits 10 n) = some n := by
  have hdigits : (Nat.toDigits 10 n).all Char.isDigit = true :=
    List.all_eq_true.2 fun c hc => isDigit_of_mem_toDigits hc
  rw [natural?, if_pos ⟨Nat.toDigits_ne_nil, hdigits⟩]
  exact congrArg some Nat.ofDigitChars_ten_toDigits

theorem integer?_of_isDigit {c : Char} {cs : List Char} (hc : c.isDigit = true) :
    integer? (c :: cs) = (natural? (c :: cs)).map Int.ofNat := by
  have hminus : c ≠ '-' := by
    rintro rfl
    exact absurd hc (by decide)
  have hplus : c ≠ '+' := by
    rintro rfl
    exact absurd hc (by decide)
  unfold integer?
  split
  · next heq => exact absurd (List.cons.inj heq).1 hminus
  · next heq => exact absurd (List.cons.inj heq).1 hplus
  · rfl

theorem integer?_decimal (n : Int) : integer? (decimal n).toList = some n := by
  cases n with
  | ofNat m =>
      obtain ⟨c, cs, hcs⟩ := List.exists_cons_of_ne_nil (Nat.toDigits_ne_nil (n := m) (b := 10))
      have hc : c.isDigit = true := isDigit_of_mem_toDigits (hcs ▸ List.mem_cons_self)
      rw [decimal, String.toList_ofList, hcs, integer?_of_isDigit hc, ← hcs, natural?_toDigits]
      rfl
  | negSucc m =>
      rw [decimal, String.toList_ofList, integer?, natural?_toDigits]
      rfl

theorem int64OfInt?_toInt (n : Int64) : int64OfInt? n.toInt = some n := by
  rw [int64OfInt?, if_pos ⟨n.le_toInt, n.toInt_lt⟩, Int64.ofInt_toInt]

/-- A 64-bit integer is read back from its text. -/
theorem int64?_decimal (n : Int64) : int64? (decimal n.toInt) = some n := by
  rw [int64?, integer?_decimal]
  exact int64OfInt?_toInt n

/-! ## Canonical text -/

/-- The digits of a positive number. -/
structure ArePositive (cs : List Char) : Prop where
  digits : ∀ c ∈ cs, c.isDigit = true
  nonempty : cs ≠ []
  head : cs.head? ≠ some '0'

/-- The text is the canonical decimal text of the integer. -/
inductive IsDecimal : List Char → Int → Prop
  | zero : IsDecimal ['0'] 0
  | positive {cs : List Char} (h : ArePositive cs) : IsDecimal cs (Nat.ofDigitChars 10 cs 0)
  | negative {cs : List Char} (h : ArePositive cs) :
      IsDecimal ('-' :: cs) (-(Nat.ofDigitChars 10 cs 0 : Int))

variable {cs : List Char} {n : Int}

theorem arePositive_toDigits {m : Nat} (hm : 0 < m) : ArePositive (Nat.toDigits 10 m) :=
  ⟨fun _ => isDigit_of_mem_toDigits, Nat.toDigits_ne_nil, head_toDigits hm⟩

theorem digitChar_of_isDigit {c : Char} (h : c.isDigit = true) :
    c.toNat - '0'.toNat < 10 ∧ Nat.digitChar (c.toNat - '0'.toNat) = c := by
  have hrange := Char.isDigit_iff_toNat.1 h
  have hends : '0'.toNat = 48 ∧ '9'.toNat = 57 := ⟨rfl, rfl⟩
  have hlt : c.toNat - '0'.toNat < 10 := by omega
  refine ⟨hlt, Char.toNat_inj.1 ?_⟩
  rw [Nat.toNat_digitChar_of_lt_ten hlt]
  omega

theorem pos_of_toDigits {m : Nat} (h : Nat.toDigits 10 m = cs) (hhead : cs.head? ≠ some '0') :
    0 < m := by
  refine Nat.pos_of_ne_zero fun hzero => hhead ?_
  rw [← h, hzero]
  rfl

/-- Digits that do not begin with a zero are those of their number. -/
theorem toDigits_ofDigitChars (h : ArePositive cs) : Nat.toDigits 10 (Nat.ofDigitChars 10 cs 0) = cs := by
  induction cs using List.reverseRecOn with
  | nil => exact absurd rfl h.nonempty
  | append_singleton cs c ih =>
      obtain ⟨hdigits, hc⟩ := List.forall_mem_append.1 h.digits
      obtain ⟨hlt, hchar⟩ := digitChar_of_isDigit (hc c (List.mem_singleton_self c))
      rw [Nat.ofDigitChars_append, Nat.ofDigitChars_cons, Nat.ofDigitChars_nil]
      rcases eq_or_ne cs [] with rfl | hne
      · rw [Nat.ofDigitChars_nil, Nat.mul_zero, Nat.zero_add, Nat.toDigits_of_lt_base hlt, hchar]
        rfl
      · have hhead := h.head
        rw [List.head?_append_of_ne_nil _ hne] at hhead
        have hfront := ih ⟨hdigits, hne, hhead⟩
        rw [← Nat.toDigits_append_toDigits (by decide) (pos_of_toDigits hfront hhead) hlt, hfront,
          Nat.toDigits_of_lt_base hlt, hchar]

/-- The canonical text of an integer is its decimal text. -/
theorem isDecimal_iff : IsDecimal cs n ↔ cs = (decimal n).toList := by
  constructor
  · intro h
    cases h with
    | zero => rfl
    | positive h => exact (toDigits_ofDigitChars h).symm.trans String.toList_ofList.symm
    | negative h =>
        have hdigits := toDigits_ofDigitChars h
        obtain ⟨m, hm⟩ := Nat.exists_eq_add_one.2 (pos_of_toDigits hdigits h.head)
        have hint : -((m + 1 : Nat) : Int) = .negSucc m := rfl
        rw [hm] at hdigits
        rw [hm, hint, decimal, String.toList_ofList, hdigits]
  · rintro rfl
    cases n with
    | ofNat m =>
        rw [decimal, String.toList_ofList]
        rcases Nat.eq_zero_or_pos m with rfl | hm
        · exact .zero
        · have htext := IsDecimal.positive (arePositive_toDigits hm)
          rwa [Nat.ofDigitChars_ten_toDigits] at htext
    | negSucc m =>
        have htext := IsDecimal.negative (arePositive_toDigits m.succ_pos)
        rw [Nat.ofDigitChars_ten_toDigits] at htext
        rw [decimal, String.toList_ofList]
        exact htext

end OData.Text
