/-
# `OData.Proofs.Value.IntegerLiterals` — which integers stay integers

A value keeps an integer if it has at most 64 bits and a sign, in the narrower width if that holds it
(`OfInteger`).  Every other integer becomes a double, or cannot be read at all; that it could be held
without a sign makes no difference.

| the integer | its value |
| :-- | :-- |
| from `-2^31` up to below `2^31` | `int32` |
| else from `-2^63` up to below `2^63` | `int64` |
| else, of a size below `leastOutOfRange` | a finite `double` |
| of a size from `leastOutOfRange` on | none |
-/
import OData.Proofs.Json.IntegerLiterals
import OData.Proofs.Value.RoundTrip

namespace OData

open Json Json.Scan

namespace Json

variable {n : Number} {l : Numeral} {text : List UInt8}

/-- A number as a tree. -/
def Number.tree : Number → Tree
  | integer n => .integer n
  | double d => .double d

@[simp] theorem Number.depth_tree (n : Number) : n.tree.depth = 0 := by
  cases n <;> rfl

@[simp] theorem Number.distinctNames_tree (n : Number) : n.tree.DistinctNames := by
  cases n <;> exact List.nodup_nil

@[simp] theorem Number.ofTree_tree (n : Number) : Value.ofTree n.tree = Value.ofNumber n := by
  cases n <;> rfl

theorem Numeral.spelledBy_tree (hl : l.WellFormed) (hn : l.number? = some n) :
    n.tree.SpelledBy l.text := by
  cases n with
  | integer n => exact ⟨l, hl, hn, rfl⟩
  | double d => exact ⟨l, hl, hn, rfl⟩

end Json

namespace Value

open Number

/-! ## The value of an integer -/

/-- What an integer is read as: none if it is out of range. -/
structure OfInteger (n : Int) (v? : Option Value) : Prop where
  int32 : ∀ m : Int32, v? = some (int32 m) ↔ m.toInt = n
  int64 : ∀ m : Int64, v? = some (int64 m) ↔ m.toInt = n ∧ (n < -(2 ^ 31) ∨ 2 ^ 31 ≤ n)
  double : (n < -(2 ^ 63) ∨ 2 ^ 63 ≤ n) → n.natAbs < leastOutOfRange →
    ∃ d : Double, d.IsFinite ∧ v? = some (double d)
  outOfRange : v? = none ↔ leastOutOfRange ≤ n.natAbs

/-- An integer of 64 bits and a sign is in range. -/
theorem natAbs_lt_leastOutOfRange {n : Int} (hlow : -(2 ^ 63) ≤ n) (hhigh : n < 2 ^ 63) :
    n.natAbs < leastOutOfRange := by
  have hrange := greatest_lt_leastOutOfRange
  rw [greatest] at hrange
  omega

theorem ofInteger_int32 (m : Int32) : OfInteger m.toInt (some (.int32 m)) := by
  have hlow := m.le_toInt
  have hhigh := m.toInt_lt
  have hrange := natAbs_lt_leastOutOfRange (n := m.toInt) (by omega) (by omega)
  refine ⟨fun k => ?_, fun k => ?_, ?_, ?_⟩
  · rw [Option.some_inj, int32.injEq, ← Int32.toInt_inj]
    exact ⟨Eq.symm, Eq.symm⟩
  · exact iff_of_false (by simp) (by omega)
  · omega
  · exact iff_of_false (by simp) (by omega)

theorem ofInteger_int64 {m : Int64} (hwide : m.toInt < -(2 ^ 31) ∨ 2 ^ 31 ≤ m.toInt) :
    OfInteger m.toInt (some (.int64 m)) := by
  have hlow := m.le_toInt
  have hhigh := m.toInt_lt
  have hrange := natAbs_lt_leastOutOfRange hlow hhigh
  refine ⟨fun k => ?_, fun k => ?_, ?_, ?_⟩
  · have hklow := k.le_toInt
    have hkhigh := k.toInt_lt
    exact iff_of_false (by simp) (by omega)
  · rw [Option.some_inj, int64.injEq, ← Int64.toInt_inj, and_iff_left hwide]
    exact ⟨Eq.symm, Eq.symm⟩
  · omega
  · exact iff_of_false (by simp) (by omega)

variable {n : Int}

/-- No integer of either width is as wide as this one. -/
theorem toInt_ne_of_wide (hwide : n < -(2 ^ 63) ∨ 2 ^ 63 ≤ n) :
    (∀ k : Int32, k.toInt ≠ n) ∧ ∀ k : Int64, k.toInt ≠ n := by
  constructor
  · intro k
    have hlow := k.le_toInt
    have hhigh := k.toInt_lt
    omega
  · intro k
    have hlow := k.le_toInt
    have hhigh := k.toInt_lt
    omega

theorem ofInteger_double {d : Double} (hd : d.IsFinite) (hwide : n < -(2 ^ 63) ∨ 2 ^ 63 ≤ n)
    (hrange : n.natAbs < leastOutOfRange) : OfInteger n (some (.double d)) := by
  obtain ⟨hint32, hint64⟩ := toInt_ne_of_wide hwide
  refine ⟨fun k => ?_, fun k => ?_, fun _ _ => ⟨d, hd, rfl⟩, ?_⟩
  · exact iff_of_false (by simp) (hint32 k)
  · exact iff_of_false (by simp) fun h => hint64 k h.1
  · exact iff_of_false (by simp) (Nat.not_le_of_lt hrange)

theorem wide_of_outOfRange (hrange : leastOutOfRange ≤ n.natAbs) : n < -(2 ^ 63) ∨ 2 ^ 63 ≤ n := by
  by_contra hfits
  have hlt := natAbs_lt_leastOutOfRange (n := n) (by omega) (by omega)
  omega

theorem ofInteger_none (hrange : leastOutOfRange ≤ n.natAbs) : OfInteger n none := by
  obtain ⟨hint32, hint64⟩ := toInt_ne_of_wide (wide_of_outOfRange hrange)
  refine ⟨fun k => ?_, fun k => ?_, ?_, iff_of_true rfl hrange⟩
  · exact iff_of_false (by simp) (hint32 k)
  · exact iff_of_false (by simp) fun h => hint64 k h.1
  · intro _ hlt
    exact absurd hrange (Nat.not_le_of_lt hlt)

theorem exists_int64 (hlow : -(2 ^ 63) ≤ n) (hhigh : n < 2 ^ 63) : ∃ m : Int64, m.toInt = n :=
  ⟨.ofInt n, Int64.toInt_ofInt_of_le hlow hhigh⟩

/-- The narrower width is taken if it holds the integer. -/
theorem ofInteger_integer (m : Int64) : OfInteger m.toInt (some (integer m)) := by
  rw [integer]
  split
  · next hnarrow =>
      have hm : m.toInt32.toInt = m.toInt := by
        rw [Int64.toInt_toInt32, Int.bmod_eq_of_le] <;> omega
      rw [← hm]
      exact ofInteger_int32 _
  · next hwide => exact ofInteger_int64 (by omega)

/-- The value of an integer literal is settled by its integer. -/
theorem ofInteger_of_number {n? : Option Number} (h : Number.OfInteger n n?) :
    OfInteger n (n?.map ofNumber) := by
  cases h with
  | exact hlow hhigh =>
      rw [Option.map_some]
      rcases lt_or_ge n (2 ^ 63) with hfits | hlarge
      · obtain ⟨m, rfl⟩ := exists_int64 hlow hfits
        rw [ofNumber_toInt]
        exact ofInteger_integer m
      · have hnone : Text.int64OfInt? n = none := if_neg (by omega)
        have hrange := greatest_lt_leastOutOfRange
        simp only [ofNumber, hnone]
        rw [greatest] at hrange
        refine ofInteger_double (Double.isFinite_ofNat ?_) (by omega) (by omega)
        refine Nat.le_trans ?_ greatest_le_greatestWhole
        rw [greatest]
        omega
  | rounded hd hwide hrange => exact ofInteger_double hd (by omega) hrange
  | outOfRange hrange => exact ofInteger_none hrange

/-! ## Reading it -/

variable {ρ : Type} {l : Numeral} {gap gap' : List UInt8}

/-- An integer literal by itself, with blanks around it, is read as the value that it is, or found to
be out of range. -/
theorem gives_scan_of_isInteger (hl : l.IsInteger) (hgap : Blank gap) (hgap' : Blank gap') :
    Gives (run (ρ := ρ) (scan deepest) (gap ++ (l.text ++ gap')))
      (fun v => l.number?.map ofNumber = some v)
      fun fault => l.number?.map ofNumber = none ∧ ∃ place, fault = .flaw .numberOutOfRange place := by
  cases hn : l.number? with
  | none =>
      have hstops := stops_scan (hl.stops_start (ρ := ρ) hn hgap (halts_of_blank hgap')) deepest
      obtain ⟨place, hrun⟩ := hstops.run
      rw [hrun]
      exact ⟨rfl, place, rfl⟩
  | some n =>
      have hahead : n.tree.Ahead (gap ++ (l.text ++ gap')) gap' :=
        ⟨gap, l.text, hgap, Numeral.spelledBy_tree hl.wellFormed hn, halts_of_blank hgap', rfl⟩
      have hdepth : n.tree.depth ≤ deepest := by
        rw [depth_tree]
        exact Nat.zero_le deepest
      refine ((reads_scan hdepth hahead).run hgap').mono ?_ ?_
      · rintro v ⟨-, rfl⟩
        rw [ofTree_tree, Option.map_some]
      · rintro fault ⟨hbad, -⟩
        exact absurd (distinctNames_tree n) hbad

end Value

end OData
