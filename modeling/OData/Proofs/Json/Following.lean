/-
# `OData.Proofs.Json.Following` — two scans in step

`Follows f scan' scan`: from any cursor on, `scan'` does what `scan` does.  It stops at the same place,
with the same fault if there is one, and otherwise yields `f` of what `scan` yields.  Nothing is asked
of the bytes.

This compares two readers that treat what they read differently, but must not read differently.  The
rules follow the way the readers are put together; in a loop `f` is a map between the states of the
two, and it is enough that a step from `f s` follows the step from `s`.
-/
import OData.Proofs.Json.Reading

namespace OData.Json.Scan

variable {ρ : Type} {α α' β β' σ σ' : Type}

/-- The result of a scan with its value changed by `f`. -/
def mapResult {ε : Type} (f : α → β) : EStateM.Result ε Cursor α → EStateM.Result ε Cursor β
  | .ok a c => .ok (f a) c
  | .error e c => .error e c

/-- `scan'` goes as `scan` does, and yields `f` of what that yields. -/
def Follows (f : α → α') (scan' : Scan ρ α') (scan : Scan ρ α) : Prop :=
  ∀ c, scan' c = mapResult f (scan c)

variable {f : α → α'} {scan' : Scan ρ α'} {scan : Scan ρ α}

theorem follows_pure (a : α) : Follows (ρ := ρ) f (pure (f a)) (pure a) := fun _ => rfl

theorem follows_flawNext (flaw : Flaw) : Follows (ρ := ρ) f (flawNext flaw) (flawNext flaw) :=
  fun _ => rfl

theorem follows_misfit (m : Misfit) : Follows (ρ := ρ) f (misfit m) (misfit m) := fun _ => rfl

theorem follows_refuse (reason : ρ) : Follows f (refuse reason) (refuse reason) := fun _ => rfl

/-- What is made of the value behind a scan. -/
theorem follows_map (f : α → α') (scan : Scan ρ α) :
    Follows f (scan >>= fun a => pure (f a)) scan := by
  intro c
  simp only [Bind.bind, EStateM.bind]
  cases scan c <;> rfl

namespace Follows

theorem refl (scan : Scan ρ α) : Follows (fun a => a) scan scan := by
  intro c
  cases scan c <;> rfl

theorem bind {g : β → β'} {k' : α' → Scan ρ β'} {k : α → Scan ρ β} (h : Follows f scan' scan)
    (hk : ∀ a, Follows g (k' (f a)) (k a)) : Follows g (scan' >>= k') (scan >>= k) := by
  intro c
  have hc := h c
  simp only [Bind.bind, EStateM.bind]
  cases hscan : scan c with
  | ok a d =>
      rw [hscan] at hc
      simp only [hc, mapResult]
      exact hk a d
  | error fault d =>
      rw [hscan] at hc
      simp only [hc, mapResult]

/-- A step that both scans begin with. -/
theorem after {g : β → β'} {k' : α → Scan ρ β'} {k : α → Scan ρ β}
    (hk : ∀ a, Follows g (k' a) (k a)) : Follows g (scan >>= k') (scan >>= k) :=
  (refl scan).bind hk

theorem located (h : Follows f scan' scan) : Follows f (located scan') (located scan) := by
  intro c
  simp only [Scan.located, h c]
  cases scan c <;> rfl

theorem member (h : Follows f scan' scan) : Follows f (member scan') (member scan) :=
  after fun _ => h

theorem closing {close : Scan ρ Unit} (h : Follows f scan' scan) :
    Follows f (closing close scan') (closing close scan) := by
  intro c
  simp only [Scan.closing, h c]
  cases scan c with
  | ok a d =>
      have hclose : Follows f (do close; pure (f a)) (do close; pure a) := after fun _ => follows_pure a
      exact hclose.located d
  | error fault d =>
      simp only [mapResult]
      cases close d <;> rfl

theorem opening {close : Scan ρ Unit} {room : Nat} {inside' : Nat → Scan ρ α'}
    {inside : Nat → Scan ρ α} (h : ∀ room, Follows f (inside' room) (inside room)) :
    Follows f (opening close room inside') (opening close room inside) := by
  cases room with
  | zero => exact follows_flawNext .tooDeep
  | succ room => exact after fun _ => (h room).closing

/-- A check in front of both scans. -/
theorem check {c : Prop} [Decidable c] {reason : ρ} {k' : Unit → Scan ρ α'} {k : Unit → Scan ρ α}
    (hk : Follows f (k' ()) (k ())) :
    Follows f (if c then refuse reason >>= k' else k' ()) (if c then refuse reason >>= k else k ()) := by
  split
  · exact fun _ => rfl
  · exact hk

/-! ## Loops -/

/-- If every item keeps the two states in step, the inside of a list does. -/
theorem items {f : σ → σ'} {step' : σ' → Scan ρ σ'} {step : σ → Scan ρ σ}
    (hstep : ∀ s, Follows f (step' (f s)) (step s)) (s : σ) :
    Follows f (items step' (f s)) (items step s) := by
  have hloop : ∀ (fuel : Nat) (first : Bool) (s : σ),
      Follows f (itemsFrom step' fuel first (f s)) (itemsFrom step fuel first s) := by
    intro fuel
    induction fuel with
    | zero =>
        intro _ _
        exact follows_flawNext .endInList
    | succ fuel ih =>
        intro first s
        refine after ?_
        intro more
        cases more with
        | false => exact follows_pure s
        | true => exact (hstep s).bind fun s => ih false s
  intro c
  exact hloop c.rest.length true s c

/-- If every member keeps the two states in step, the inside of an object does. -/
theorem members {f : σ → σ'} {step' : σ' → String → Scan ρ σ'} {step : σ → String → Scan ρ σ}
    (hstep : ∀ s name, Follows f (step' (f s) name) (step s name)) (s : σ) :
    Follows f (members step' (f s)) (members step s) := by
  have hloop : ∀ (fuel : Nat) (first : Bool) (s : σ),
      Follows f (membersFrom step' fuel first (f s)) (membersFrom step fuel first s) := by
    intro fuel
    induction fuel with
    | zero =>
        intro _ _
        exact follows_flawNext .endInObject
    | succ fuel ih =>
        intro first s
        refine after ?_
        intro name?
        cases name? with
        | none => exact follows_pure s
        | some name => exact (hstep s name).bind fun s => ih false s
  intro c
  exact hloop c.rest.length true s c

/-! ## Whole texts -/

theorem run (h : Follows f scan' scan) (bytes : List UInt8) :
    run scan' bytes = (run scan bytes).map f := by
  have hstart := h (.start bytes)
  cases hscan : scan (.start bytes) with
  | error fault c =>
      rw [hscan] at hstart
      rw [run_of_error hscan, run_of_error hstart]
      rfl
  | ok a c =>
      rw [hscan] at hstart
      simp only [Scan.run, Bind.bind, EStateM.bind, hscan, hstart, mapResult]
      cases space (ρ := ρ) c with
      | error fault d => rfl
      | ok b? d => cases b? <;> rfl

end Follows

end OData.Json.Scan
