/-
# `OData.Proofs.Json.Ensures` — what a scan yields, whatever the text

`Ensures scan post`: if `scan` yields a value at all, the value satisfies `post`.  Nothing is asked of
the bytes, and nothing is said about where the scan stops; this is the logic for facts that the
reader establishes by its own checks.  The rules are those of sequencing and of loops, where `post` is the
invariant.

Two facts are about all of JSON: a number is in range (`Number.InRange`), so it can be written again, and a
container is only read while there is room for it.
-/
import OData.Proofs.Json.Reading
import OData.Proofs.Number.Range

namespace OData.Json

/-- A number that a JSON text can say. -/
def Number.InRange : Number → Prop
  | integer n => -(2 ^ 63) ≤ n ∧ n < 2 ^ 64
  | double d => d.IsFinite

namespace Scan

variable {ρ : Type} {α β σ : Type}

/-- Whatever `scan` yields satisfies `post`. -/
def Ensures (scan : Scan ρ α) (post : α → Prop) : Prop :=
  ∀ c a c', scan c = .ok a c' → post a

variable {scan : Scan ρ α} {post : α → Prop}

namespace Ensures

theorem any (scan : Scan ρ α) : Ensures scan fun _ => True := fun _ _ _ _ => trivial

theorem pure {a : α} (ha : post a) : Ensures (ρ := ρ) (pure a) post := by
  rintro c _ _ ⟨⟩
  exact ha

theorem bind {k : α → Scan ρ β} {post' : β → Prop} (h : Ensures scan post)
    (hk : ∀ a, post a → Ensures (k a) post') : Ensures (scan >>= k) post' := by
  intro c b c' hb
  obtain ⟨a, d, ha, hb⟩ := exists_of_bind_ok hb
  exact hk a (h c a d ha) d b c' hb

/-- A step whose value does not matter. -/
theorem after {k : α → Scan ρ β} {post' : β → Prop} (hk : ∀ a, Ensures (k a) post') :
    Ensures (scan >>= k) post' :=
  (any scan).bind fun a _ => hk a

theorem located (h : Ensures scan post) : Ensures (located scan) post :=
  fun c a c' ha => h c a c' (of_located_ok ha)

theorem closing {close : Scan ρ Unit} (h : Ensures scan post) : Ensures (closing close scan) post := by
  intro c a c' ha
  obtain ⟨d, hinside, -⟩ := exists_of_closing_ok ha
  exact h c a d hinside

theorem member (h : Ensures scan post) : Ensures (member scan) post := after fun _ => h

end Ensures

/-! ## Scans that yield nothing -/

theorem ensures_flawHere {flaw : Flaw} : Ensures (flawHere flaw : Scan ρ α) post := fun _ _ _ => nofun

theorem ensures_flawNext {flaw : Flaw} : Ensures (flawNext flaw : Scan ρ α) post := fun _ _ _ => nofun

theorem ensures_misfit {m : Misfit} : Ensures (misfit m : Scan ρ α) post := fun _ _ _ => nofun

theorem ensures_refuse {reason : ρ} : Ensures (refuse reason : Scan ρ α) post := fun _ _ _ => nofun

/-- A check in front of a scan. -/
theorem ensures_unless {c : Prop} [Decidable c] {reason : ρ} {k : Unit → Scan ρ α}
    (hk : ¬ c → Ensures (k ()) post) :
    Ensures (if c then refuse reason >>= k else k ()) post := by
  split
  · have hrefuse : Ensures (refuse reason : Scan ρ PUnit) fun _ => False := ensures_refuse
    exact hrefuse.bind fun _ => False.elim
  · next h => exact hk h

/-! ## Containers -/

/-- A container is read only if there is room for one. -/
theorem Ensures.opening {close : Scan ρ Unit} {room : Nat} {inside : Nat → Scan ρ α}
    (h : ∀ less, room = less + 1 → Ensures (inside less) post) :
    Ensures (opening close room inside) post := by
  cases room with
  | zero => exact ensures_flawNext
  | succ less => exact Ensures.after fun _ => (h less rfl).closing

/-- What every item keeps holds of the inside of a list. -/
theorem ensures_items {Inv : σ → Prop} {step : σ → Scan ρ σ} {s : σ} (hs : Inv s)
    (hstep : ∀ s, Inv s → Ensures (step s) Inv) : Ensures (items step s) Inv := by
  have hloop : ∀ (fuel : Nat) (first : Bool) (s : σ), Inv s →
      Ensures (itemsFrom step fuel first s) Inv := by
    intro fuel
    induction fuel with
    | zero =>
        intro _ _ _
        exact ensures_flawNext
    | succ fuel ih =>
        intro first s hs
        refine Ensures.after ?_
        intro more
        split
        · refine (hstep s hs).bind ?_
          intro s hs
          exact ih false s hs
        · exact Ensures.pure hs
  intro c
  exact hloop c.rest.length true s hs c

/-- What every member keeps holds of the inside of an object. -/
theorem ensures_members {Inv : σ → Prop} {step : σ → String → Scan ρ σ} {s : σ} (hs : Inv s)
    (hstep : ∀ s name, Inv s → Ensures (step s name) Inv) : Ensures (members step s) Inv := by
  have hloop : ∀ (fuel : Nat) (first : Bool) (s : σ), Inv s →
      Ensures (membersFrom step fuel first s) Inv := by
    intro fuel
    induction fuel with
    | zero =>
        intro _ _ _
        exact ensures_flawNext
    | succ fuel ih =>
        intro first s hs
        refine Ensures.after ?_
        intro name?
        split
        · exact Ensures.pure hs
        · next name =>
            refine (hstep s name hs).bind ?_
            intro s hs
            exact ih false s hs
  intro c
  exact hloop c.rest.length true s hs c

/-- What every item is, all of them are. -/
theorem ensures_collect (h : Ensures scan post) :
    Ensures (collect scan) fun as => ∀ a ∈ as, post a := by
  have hitems : Ensures (items (fun acc => return (← scan) :: acc) []) fun acc => ∀ a ∈ acc, post a := by
    refine ensures_items (fun _ => nofun) ?_
    intro acc hacc
    refine h.bind ?_
    intro a ha
    exact Ensures.pure (List.forall_mem_cons.2 ⟨ha, hacc⟩)
  refine hitems.bind ?_
  intro acc hacc
  refine Ensures.pure ?_
  simpa using hacc

/-! ## Numbers -/

open Number

theorem wholeDigits_le : ∀ (ds : List Nat) {n : Nat}, n ≤ greatest → (wholeDigits n ds).1 ≤ greatest
  | [], _, hn => hn
  | d :: ds, n, hn => by
      rw [wholeDigits]
      split
      · next hfits => exact wholeDigits_le ds hfits
      · exact hn

theorem fractionDigits_le : ∀ (ds : List Nat) {n : Nat}, n ≤ greatest →
    (fractionDigits n ds).1 ≤ greatest
  | [], _, hn => hn
  | d :: ds, n, hn => by
      rw [fractionDigits]
      split
      · next hfits => exact fractionDigits_le ds hfits
      · exact hn

section Numbers

variable {negative : Bool} {n : Nat}

theorem inRange_whole (hn : n ≤ greatest) : (whole negative n).InRange := by
  have hgreatest : n ≤ Double.greatestWhole := Nat.le_trans hn greatest_le_greatestWhole
  rw [greatest] at hn
  unfold whole
  split
  · exact ⟨by omega, by omega⟩
  · split
    · exact ⟨by omega, by omega⟩
    · exact (Double.isFinite_ofNat hgreatest).neg

theorem ensures_scaledHere {e : Int} (hn : n ≤ greatest) :
    Ensures (scaledHere negative n e : Scan ρ Number) InRange := by
  unfold scaledHere
  split
  · next d hd => exact Ensures.pure (isFinite_of_scaled hn hd)
  · exact ensures_flawHere

theorem ensures_exponent {place : Int} (hn : n ≤ greatest) :
    Ensures (exponent negative n place : Scan ρ Number) InRange := by
  refine Ensures.after ?_
  intro _
  refine Ensures.after ?_
  intro down
  refine Ensures.after ?_
  intro b?
  split
  · exact ensures_flawHere
  split
  · exact ensures_flawHere
  refine Ensures.after ?_
  intro digits?
  split
  · exact ensures_scaledHere hn
  split
  · exact ensures_flawHere
  refine Ensures.after ?_
  intro _
  refine Ensures.pure ?_
  have hzero : Double.zero.IsFinite := ⟨false, _, rfl⟩
  cases negative with
  | false => exact hzero
  | true => exact hzero.neg

theorem ensures_exponent? {place : Int} (hn : n ≤ greatest) :
    Ensures (exponent? negative n place : Scan ρ Number) InRange := by
  refine Ensures.after ?_
  intro b?
  split
  · exact ensures_exponent hn
  · exact ensures_exponent hn
  · exact ensures_scaledHere hn

theorem ensures_fraction {place : Nat} (hn : n ≤ greatest) :
    Ensures (fraction negative n place : Scan ρ Number) InRange := by
  refine Ensures.after ?_
  intro _
  refine Ensures.after ?_
  intro ds
  split
  · refine Ensures.after ?_
    intro b?
    split
    · exact ensures_flawNext
    · exact ensures_flawNext
  · exact ensures_exponent? (fractionDigits_le ds hn)

theorem ensures_numberRest (ds : List Nat) :
    Ensures (numberRest negative ds : Scan ρ Number) InRange := by
  have hle := wholeDigits_le ds (Nat.zero_le greatest)
  refine Ensures.after ?_
  intro b?
  split
  · exact ensures_fraction hle
  · exact ensures_exponent hle
  · exact ensures_exponent hle
  · split
    · exact Ensures.pure (inRange_whole hle)
    · exact ensures_scaledHere hle

theorem ensures_number : Ensures (number negative : Scan ρ Number) InRange := by
  refine Ensures.after ?_
  intro b?
  split
  · exact ensures_flawHere
  split
  · exact ensures_flawHere
  · refine Ensures.after ?_
    intro next?
    split
    · exact ensures_flawNext
    · exact ensures_numberRest [0]
  · exact Ensures.after fun ds => ensures_numberRest _

end Numbers

/-- A number with which a value starts is in range. -/
theorem ensures_start :
    Ensures (start : Scan ρ Start) fun s => ∀ n, s = .scalar (.number n) → n.InRange := by
  refine Ensures.after ?_
  intro b?
  split
  · exact ensures_flawNext
  · exact Ensures.after fun _ => Ensures.pure nofun
  · exact Ensures.after fun _ => Ensures.pure nofun
  · exact Ensures.after fun _ => Ensures.pure nofun
  · refine Ensures.after ?_
    intro _
    refine ensures_number.bind ?_
    intro n hn
    refine Ensures.pure ?_
    rintro _ ⟨⟩
    exact hn
  · exact Ensures.after fun _ => Ensures.after fun _ => Ensures.pure nofun
  · exact Ensures.pure nofun
  · exact Ensures.pure nofun
  · split
    · refine ensures_number.bind ?_
      intro n hn
      refine Ensures.pure ?_
      rintro _ ⟨⟩
      exact hn
    · exact ensures_flawNext

/-! ## Whole texts -/

theorem Ensures.run {bytes : List UInt8} {a : α} (h : Ensures scan post)
    (hrun : run scan bytes = .ok a) : post a := by
  obtain ⟨c, -, hscan, -⟩ := exists_of_run_ok hrun
  exact h _ a c hscan

end Scan

end OData.Json
