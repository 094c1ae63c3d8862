/-
# `OData.Proofs.Json.Reading` — what a scan does in front of a known text

Three ways to say what a scan does with the bytes in front of it, all silent on places:

| | |
| :-- | :-- |
| `Passes scan input a output` | it yields `a` and leaves `output`, wherever it stands |
| `Tries scan input a? output` | it does so with the value that `a?` is, and if that is none it stops with a flaw |
| `Yields scan input output good bad` | it yields a value that is `good` and leaves `output`, or it fails for a reason other than a flaw, and then `bad` holds |

The first two are for the layers that know nothing of payloads: blanks, words, numbers, strings.  The
third is for readers that may turn a well-formed value down, and carries both halves of an
equivalence at once: with `bad` the negation of what `good` says about the text, a reader yields a
value exactly if the text deserves one.  Since a failure is never a flaw there, a text that is
well-formed is never reported as one that is not.

Each rule below is for one way of putting scans together, so that a proof about a reader has the
shape of the reader.
-/
import Mathlib
import OData.Json.Scan.Container

namespace OData

/-! ## Results -/

theorem eq_error_of_map {ε α : Type} {result : Except ε α} {e : ε}
    (h : (result.map fun _ => ()) = .error e) : result = .error e := by
  cases result with
  | ok a => cases h
  | error e' => exact congrArg Except.error (Except.error.inj h)

theorem exists_ok_of_map {ε α : Type} {result : Except ε α} (h : (result.map fun _ => ()) = .ok ()) :
    ∃ a, result = .ok a := by
  cases result with
  | ok a => exact ⟨a, rfl⟩
  | error e => cases h

theorem eq_ok_of_mapError {ε ε' α : Type} {result : Except ε α} {f : ε → ε'} {a : α}
    (h : result.mapError f = .ok a) : result = .ok a := by
  cases result with
  | ok b =>
      cases h
      rfl
  | error e => cases h

theorem exists_of_mapError_eq_error {ε ε' α : Type} {result : Except ε α} {f : ε → ε'} {e' : ε'}
    (h : result.mapError f = .error e') : ∃ e, result = .error e ∧ f e = e' := by
  cases result with
  | ok a => cases h
  | error e => exact ⟨e, rfl, Except.error.inj h⟩

/-- A sequence of results is a value only if both are. -/
theorem exists_of_bind_eq_ok {ε α β : Type} {result : Except ε α} {k : α → Except ε β} {b : β}
    (h : result >>= k = .ok b) : ∃ a, result = .ok a ∧ k a = .ok b := by
  cases result with
  | ok a => exact ⟨a, rfl, h⟩
  | error e => cases h

/-- What every step makes holds of everything that is made. -/
theorem forall_mem_of_mapM_eq_ok {ε α β : Type} {f : α → Except ε β} {p : β → Prop} {as : List α}
    {bs : List β} (h : as.mapM f = .ok bs) (hf : ∀ a ∈ as, ∀ b, f a = .ok b → p b) :
    ∀ b ∈ bs, p b := by
  induction as generalizing bs with
  | nil =>
      cases h
      exact nofun
  | cons a as ih =>
      rw [List.forall_mem_cons] at hf
      rw [List.mapM_cons] at h
      obtain ⟨b, hb, h⟩ := exists_of_bind_eq_ok h
      obtain ⟨bs', hbs', h⟩ := exists_of_bind_eq_ok h
      cases h
      exact List.forall_mem_cons.2 ⟨hf.1 b hb, ih hbs' hf.2⟩

theorem mapM_map_eq_ok {ε α β : Type} {f : α → Except ε β} {g : β → α} {bs : List β}
    (h : ∀ b ∈ bs, f (g b) = .ok b) : (bs.map g).mapM f = .ok bs := by
  induction bs with
  | nil => rfl
  | cons b bs ih =>
      rw [List.forall_mem_cons] at h
      rw [List.map_cons, List.mapM_cons, h.1, ih h.2]
      rfl

/-- A value that is `good`, or an error that is `bad`. -/
def Gives {ε α : Type} (result : Except ε α) (good : α → Prop) (bad : ε → Prop) : Prop :=
  match result with
  | .ok a => good a
  | .error e => bad e

namespace Gives

variable {ε α β : Type} {result : Except ε α} {good : α → Prop} {bad : ε → Prop}

theorem ok {a : α} (ha : good a) : Gives (.ok a) good bad := ha

theorem error {e : ε} (he : bad e) : Gives (.error e) good bad := he

theorem bind {k : α → Except ε β} {good' : β → Prop} {bad' : ε → Prop} (h : Gives result good bad)
    (hk : ∀ a, good a → Gives (k a) good' bad') (hbad : ∀ e, bad e → bad' e) :
    Gives (result >>= k) good' bad' := by
  cases result with
  | ok a => exact hk a h
  | error e => exact hbad e h

theorem mono {good' : α → Prop} {bad' : ε → Prop} (h : Gives result good bad)
    (hgood : ∀ a, good a → good' a) (hbad : ∀ e, bad e → bad' e) : Gives result good' bad' := by
  cases result with
  | ok a => exact hgood a h
  | error e => exact hbad e h

theorem map {f : α → β} {good' : β → Prop} (h : Gives result good bad)
    (hgood : ∀ a, good a → good' (f a)) : Gives (result.map f) good' bad := by
  cases result with
  | ok a => exact hgood a h
  | error e => exact h

theorem mapError {ε' : Type} {f : ε → ε'} {bad' : ε' → Prop} (h : Gives result good bad)
    (hbad : ∀ e, bad e → bad' (f e)) : Gives (result.mapError f) good bad' := by
  cases result with
  | ok a => exact h
  | error e => exact hbad e h

/-- What decides between a value and an error decides which value it is. -/
theorem ok_iff {p : Prop} {value? : Option α}
    (h : Gives result (fun a => p ∧ value? = some a) fun _ => ¬ p) (a : α) :
    result = .ok a ↔ p ∧ value? = some a := by
  cases result with
  | ok b =>
      obtain ⟨hp, hvalue⟩ := h
      simp [hp, hvalue]
  | error e => exact iff_of_false nofun fun hgood => h hgood.1

/-- A result with one possible value is that value or an error. -/
theorem eq_ok_iff {p : Prop} {value : α} (h : Gives result (fun a => p ∧ a = value) fun _ => ¬ p)
    (a : α) : result = .ok a ↔ p ∧ a = value := by
  have hsome : Gives result (fun a => p ∧ some value = some a) fun _ => ¬ p :=
    h.mono (fun _ ha => ⟨ha.1, congrArg some ha.2.symm⟩) fun _ hbad => hbad
  rw [hsome.ok_iff a, Option.some_inj, eq_comm (a := value)]

end Gives

namespace Json

/-- The text is at fault, and not what it says. -/
def Fault.isFlaw {ρ : Type} : Fault ρ → Bool
  | flaw _ _ => true
  | _ => false

@[simp] theorem Fault.isFlaw_placed {ρ : Type} (p : Position) (fault : Fault ρ) :
    (fault.placed p).isFlaw = fault.isFlaw := by
  rcases fault with _ | ⟨_, _ | _⟩ | _ <;> rfl

namespace Scan

variable {ρ : Type} {α β : Type}

/-! ## What a success comes from -/

section Success

variable {scan : Scan ρ α} {k : α → Scan ρ β} {c c' : Cursor} {a : α} {b : β} {bytes : List UInt8}

/-- A sequence succeeds if both steps do. -/
theorem exists_of_bind_ok (h : (scan >>= k) c = .ok b c') :
    ∃ a d, scan c = .ok a d ∧ k a d = .ok b c' := by
  simp only [Bind.bind, EStateM.bind] at h
  cases hscan : scan c with
  | ok a d =>
      rw [hscan] at h
      exact ⟨a, d, rfl, h⟩
  | error fault d =>
      rw [hscan] at h
      cases h

theorem of_located_ok (h : located scan c = .ok a c') : scan c = .ok a c' := by
  simp only [located] at h
  cases hscan : scan c with
  | ok b d =>
      rw [hscan] at h
      exact h
  | error fault d =>
      rw [hscan] at h
      cases h

/-- If the inside failed, closing does not help. -/
theorem exists_of_closing_ok {close : Scan ρ Unit} (h : closing close scan c = .ok a c') :
    ∃ d, scan c = .ok a d ∧ close d = .ok () c' := by
  simp only [closing] at h
  cases hscan : scan c with
  | ok b d =>
      rw [hscan] at h
      obtain ⟨_, e, hclose, hb⟩ := exists_of_bind_ok (of_located_ok h)
      cases hb
      exact ⟨d, rfl, hclose⟩
  | error fault d =>
      rw [hscan] at h
      dsimp only at h
      split at h <;> cases h

theorem exists_of_run_ok (h : run scan bytes = .ok a) :
    ∃ c d, scan (.start bytes) = .ok a c ∧ space (ρ := ρ) c = .ok none d := by
  simp only [run] at h
  split at h
  · next hwhole =>
      cases h
      obtain ⟨a, c, hscan, hbehind⟩ := exists_of_bind_ok hwhole
      obtain ⟨b?, d, hspace, hend⟩ := exists_of_bind_ok hbehind
      cases b? with
      | none =>
          cases hend
          exact ⟨c, _, hscan, hspace⟩
      | some b => cases hend
  · cases h

theorem run_of_ok {d : Cursor} (hscan : scan (.start bytes) = .ok a c)
    (hspace : space (ρ := ρ) c = .ok none d) : run scan bytes = .ok a := by
  simp only [run, Bind.bind, EStateM.bind, hscan, hspace]
  rfl

theorem run_of_error {fault : Fault ρ} (hscan : scan (.start bytes) = .error fault c) :
    run scan bytes = .error fault := by
  simp only [run, Bind.bind, EStateM.bind, hscan]

end Success

/-! ## Scans that succeed -/

/-- In front of `input`, `scan` yields `a` and leaves `output`. -/
def Passes (scan : Scan ρ α) (input : List UInt8) (a : α) (output : List UInt8) : Prop :=
  ∀ place, ∃ place', scan ⟨input, place⟩ = .ok a ⟨output, place'⟩

theorem Passes.pure (a : α) (i : List UInt8) : Passes (ρ := ρ) (Pure.pure a) i a i :=
  fun place => ⟨place, rfl⟩

theorem Passes.bind {scan : Scan ρ α} {k : α → Scan ρ β} {i m o : List UInt8} {a : α} {b : β}
    (h : Passes scan i a m) (hk : Passes (k a) m b o) : Passes (scan >>= k) i b o := by
  intro place
  obtain ⟨p, hp⟩ := h place
  obtain ⟨q, hq⟩ := hk p
  refine ⟨q, ?_⟩
  show EStateM.bind scan k _ = _
  simp only [EStateM.bind, hp, hq]

theorem Passes.located {scan : Scan ρ α} {i o : List UInt8} {a : α} (h : Passes scan i a o) :
    Passes (located scan) i a o := by
  intro place
  obtain ⟨p, hp⟩ := h place
  exact ⟨p, by simp only [Scan.located, hp]⟩

theorem passes_peek (i : List UInt8) : Passes (ρ := ρ) peek i i.head? i :=
  fun place => ⟨place, rfl⟩

theorem passes_next (b : UInt8) (i : List UInt8) : Passes (ρ := ρ) next (b :: i) (some b) i :=
  fun place => ⟨place.after b, rfl⟩

theorem passes_advance (b : UInt8) (i : List UInt8) : Passes (ρ := ρ) advance (b :: i) () i :=
  fun place => ⟨place.after b, rfl⟩

/-- The bytes `input` do not begin with a byte that has the property `p`. -/
def Halts (p : UInt8 → Bool) (input : List UInt8) : Prop := ∀ b ∈ input.head?, p b = false

theorem halts_nil (p : UInt8 → Bool) : Halts p [] := by simp [Halts]

theorem halts_cons {p : UInt8 → Bool} {b : UInt8} {i : List UInt8} (h : p b = false) :
    Halts p (b :: i) := by simpa [Halts] using h

theorem Halts.head {p : UInt8 → Bool} {b : UInt8} {i : List UInt8} (h : Halts p (b :: i)) :
    p b = false := h b rfl

theorem span_append {p : UInt8 → Bool} {i : List UInt8} (h : Halts p i) :
    ∀ (run : List UInt8) (place : Position), run.all p = true →
      ∃ place', Cursor.span p (run ++ i) place = (run, ⟨i, place'⟩)
  | [], place, _ => by
      refine ⟨place, ?_⟩
      cases i with
      | nil => rfl
      | cons b i => simp [Cursor.span, h.head]
  | b :: run, place, hrun => by
      simp only [List.all_cons, Bool.and_eq_true] at hrun
      obtain ⟨p', hp'⟩ := span_append h run (place.after b) hrun.2
      refine ⟨p', ?_⟩
      simp only [List.cons_append, Cursor.span, hrun.1, if_true, hp']

theorem passes_takeWhile {p : UInt8 → Bool} {run i : List UInt8} (hrun : run.all p = true)
    (h : Halts p i) : Passes (ρ := ρ) (takeWhile p) (run ++ i) run i := by
  intro place
  obtain ⟨p', hp'⟩ := span_append h run place hrun
  exact ⟨p', by simp only [takeWhile, hp']⟩

/-- Bytes that say nothing. -/
def Blank (gap : List UInt8) : Prop := gap.all Byte.isSpace = true

theorem blank_nil : Blank [] := rfl

theorem Blank.tail {b : UInt8} {gap : List UInt8} (h : Blank (b :: gap)) :
    Byte.isSpace b = true ∧ Blank gap := by
  simpa only [Blank, List.all_cons, Bool.and_eq_true] using h

theorem passes_space {gap i : List UInt8} (hgap : Blank gap) (h : Halts Byte.isSpace i) :
    Passes (ρ := ρ) space (gap ++ i) i.head? i :=
  (passes_takeWhile hgap h).bind (passes_peek i)

/-- `space` in front of a byte that is no blank. -/
theorem passes_space_cons {gap i : List UInt8} {b : UInt8} (hgap : Blank gap)
    (hb : Byte.isSpace b = false) :
    Passes (ρ := ρ) space (gap ++ b :: i) (some b) (b :: i) :=
  passes_space hgap (halts_cons hb)

/-! ## Scans of what may be beyond their limits -/

/-- In front of `input`, `scan` yields the value that `a?` is and leaves `output`; or there is none, and it
stops with a flaw. -/
def Tries (scan : Scan ρ α) (input : List UInt8) (a? : Option α) (output : List UInt8) : Prop :=
  match a? with
  | some a => Passes scan input a output
  | none => ∀ place, ∃ flaw spot c, scan ⟨input, place⟩ = .error (.flaw flaw spot) c

theorem tries_flawHere (flaw : Flaw) (i o : List UInt8) :
    Tries (ρ := ρ) (α := α) (flawHere flaw) i none o :=
  fun _ => ⟨_, _, _, rfl⟩

theorem Passes.bind_tries {scan : Scan ρ α} {k : α → Scan ρ β} {i m o : List UInt8} {a : α}
    {b? : Option β} (h : Passes scan i a m) (hk : Tries (k a) m b? o) :
    Tries (scan >>= k) i b? o := by
  cases b? with
  | some b => exact Passes.bind h hk
  | none =>
      intro place
      obtain ⟨p, hp⟩ := h place
      obtain ⟨flaw, spot, c, hflaw⟩ := hk p
      refine ⟨flaw, spot, c, ?_⟩
      show EStateM.bind scan k _ = _
      simp only [EStateM.bind, hp, hflaw]

/-- Behind a flaw nothing is read. -/
theorem Tries.stop {scan : Scan ρ α} {i m : List UInt8} (h : Tries scan i none m)
    (k : α → Scan ρ β) (o : List UInt8) : Tries (scan >>= k) i none o := by
  intro place
  obtain ⟨flaw, spot, c, hflaw⟩ := h place
  refine ⟨flaw, spot, c, ?_⟩
  show EStateM.bind scan k _ = _
  simp only [EStateM.bind, hflaw]

theorem Tries.bind {scan : Scan ρ α} {k : α → Scan ρ β} {i m o : List UInt8} {a? : Option α}
    {f : α → Option β} (h : Tries scan i a? m) (hk : ∀ a, Tries (k a) m (f a) o) :
    Tries (scan >>= k) i (a?.bind f) o := by
  cases a? with
  | some a => exact Passes.bind_tries h (hk a)
  | none => exact h.stop k o

theorem Tries.map {scan : Scan ρ α} {i o : List UInt8} {a? : Option α} (h : Tries scan i a? o)
    (f : α → β) : Tries (do return f (← scan)) i (a?.map f) o := by
  rw [Option.map_eq_bind]
  exact h.bind fun a => Passes.pure (f a) o

/-! ## Scans that go on as another -/

/-- In front of `input`, `scan` does what `scan'` does in front of `input'`. -/
def ComesTo (scan : Scan ρ α) (input : List UInt8) (scan' : Scan ρ α) (input' : List UInt8) : Prop :=
  ∀ place, ∃ place', scan ⟨input, place⟩ = scan' ⟨input', place'⟩

section ComesTo

variable {scan scan' : Scan ρ α} {i m o : List UInt8} {a? : Option α}

theorem ComesTo.refl (scan : Scan ρ α) (i : List UInt8) : ComesTo scan i scan i :=
  fun place => ⟨place, rfl⟩

theorem ComesTo.tries (h : ComesTo scan i scan' m) (h' : Tries scan' m a? o) : Tries scan i a? o := by
  cases a? with
  | some a =>
      intro place
      obtain ⟨p, hp⟩ := h place
      rw [hp]
      exact h' p
  | none =>
      intro place
      obtain ⟨p, hp⟩ := h place
      rw [hp]
      exact h' p

theorem Passes.comesTo {scan : Scan ρ β} {k : β → Scan ρ α} {b : β} (h : Passes scan i b m)
    (hk : ComesTo (k b) m scan' o) : ComesTo (scan >>= k) i scan' o := by
  intro place
  obtain ⟨p, hp⟩ := h place
  obtain ⟨q, hq⟩ := hk p
  refine ⟨q, ?_⟩
  show EStateM.bind scan k _ = _
  simp only [EStateM.bind, hp, hq]

theorem ComesTo.bind (h : ComesTo scan i scan' m) (k : α → Scan ρ β) :
    ComesTo (scan >>= k) i (scan' >>= k) m := by
  intro place
  obtain ⟨p, hp⟩ := h place
  refine ⟨p, ?_⟩
  show EStateM.bind scan k _ = EStateM.bind scan' k _
  simp only [EStateM.bind, hp]

end ComesTo

/-! ## Scans that judge what they read -/

/-- In front of `input`, `scan` yields a value that is `good` and leaves `output`; or it fails, though
not for a flaw, and then `bad` holds. -/
def Yields (scan : Scan ρ α) (input output : List UInt8) (good : α → Prop) (bad : Prop) : Prop :=
  ∀ place, match scan ⟨input, place⟩ with
    | .ok a c => good a ∧ c.rest = output
    | .error fault _ => bad ∧ fault.isFlaw = false

variable {i m o : List UInt8} {good : α → Prop} {bad : Prop}

theorem Passes.yields {scan : Scan ρ α} {a : α} (h : Passes scan i a o) (ha : good a) :
    Yields scan i o good bad := by
  intro place
  obtain ⟨p, hp⟩ := h place
  simp only [hp]
  exact ⟨ha, trivial⟩

theorem yields_pure {a : α} (ha : good a) : Yields (ρ := ρ) (pure a) i i good bad :=
  (Passes.pure a i).yields ha

theorem yields_misfit {fault : Misfit} (h : bad) :
    Yields (ρ := ρ) (misfit fault) i o good bad :=
  fun _ => ⟨h, rfl⟩

theorem yields_refuse {reason : ρ} (h : bad) : Yields (refuse reason) i o good bad :=
  fun _ => ⟨h, rfl⟩

theorem Yields.bind {scan : Scan ρ α} {k : α → Scan ρ β} {good' : β → Prop} {bad' : Prop}
    (h : Yields scan i m good bad) (hk : ∀ a, good a → Yields (k a) m o good' bad')
    (hbad : bad → bad') : Yields (scan >>= k) i o good' bad' := by
  intro place
  have h := h place
  show match EStateM.bind scan k _ with
    | .ok b c => good' b ∧ c.rest = o
    | .error fault _ => bad' ∧ fault.isFlaw = false
  simp only [EStateM.bind]
  cases hscan : scan ⟨i, place⟩ with
  | ok a c =>
      rw [hscan] at h
      obtain ⟨ha, rfl⟩ := h
      exact hk a ha c.place
  | error fault c =>
      rw [hscan] at h
      exact ⟨hbad h.1, h.2⟩

theorem Passes.bind_yields {scan : Scan ρ α} {k : α → Scan ρ β} {good' : β → Prop} {a : α}
    (h : Passes scan i a m) (hk : Yields (k a) m o good' bad) :
    Yields (scan >>= k) i o good' bad := by
  have h' : Yields scan i m (· = a) bad := h.yields rfl
  exact h'.bind (fun _ ha => ha ▸ hk) id

theorem Yields.mono {scan : Scan ρ α} {good' : α → Prop} {bad' : Prop}
    (h : Yields scan i o good bad) (hgood : ∀ a, good a → good' a) (hbad : bad → bad') :
    Yields scan i o good' bad' := by
  intro place
  have h := h place
  cases hscan : scan ⟨i, place⟩ with
  | ok a c =>
      rw [hscan] at h
      exact ⟨hgood a h.1, h.2⟩
  | error fault c =>
      rw [hscan] at h
      exact ⟨hbad h.1, h.2⟩

theorem Yields.located {scan : Scan ρ α} (h : Yields scan i o good bad) :
    Yields (located scan) i o good bad := by
  intro place
  have h := h place
  simp only [Scan.located]
  cases hscan : scan ⟨i, place⟩ with
  | ok a c => simpa only [hscan] using h
  | error fault c => simpa only [hscan, Fault.isFlaw_placed] using h

/-- A check in front of a scan: the scan is reached only if the check passes. -/
theorem yields_unless {c : Prop} [Decidable c] {reason : ρ} {k : Unit → Scan ρ α} (hc : c → bad)
    (hk : ¬ c → Yields (k ()) i o good bad) :
    Yields (if c then refuse reason >>= k else k ()) i o good bad := by
  split
  · next h => exact fun _ => ⟨hc h, rfl⟩
  · next h => exact hk h

/-- What goes wrong inside a container counts, whatever becomes of its bracket. -/
theorem Yields.closing {close : Scan ρ Unit} {scan : Scan ρ α} (h : Yields scan i m good bad)
    (hclose : Passes close m () o) : Yields (closing close scan) i o good bad := by
  intro place
  have h := h place
  simp only [Scan.closing]
  cases hscan : scan ⟨i, place⟩ with
  | ok a c =>
      rw [hscan] at h
      obtain ⟨ha, rfl⟩ := h
      have hpure : Passes (do close; pure a) c.rest a o := hclose.bind (Passes.pure a o)
      exact (hpure.located.yields ha) c.place
  | error fault c =>
      rw [hscan] at h
      cases hc : close c <;> simpa only [hc, Fault.isFlaw_placed] using h

/-! ## Whole texts -/

/-- A scan that stops in front of blanks reads the whole text. -/
theorem run_of_rest {scan : Scan ρ α} {gap : List UInt8} {a : α} {c : Cursor}
    (hscan : scan (.start i) = .ok a c) (hc : c.rest = gap) (hgap : Blank gap) :
    run scan i = .ok a := by
  have hspace : Passes (ρ := ρ) space gap none [] := by
    simpa using passes_space hgap (halts_nil Byte.isSpace)
  obtain ⟨p, hp⟩ := hspace c.place
  have hp : space (ρ := ρ) c = .ok none ⟨[], p⟩ := by rw [← hp, ← hc]
  exact run_of_ok hscan hp

theorem Yields.run {scan : Scan ρ α} {gap : List UInt8} (h : Yields scan i gap good bad)
    (hgap : Blank gap) : Gives (run scan i) good fun fault => bad ∧ fault.isFlaw = false := by
  have h := h ⟨1, 0⟩
  cases hscan : scan ⟨i, ⟨1, 0⟩⟩ with
  | ok a c =>
      rw [hscan] at h
      rw [run_of_rest hscan h.2 hgap]
      exact h.1
  | error fault c =>
      rw [hscan] at h
      rw [run_of_error hscan]
      exact h

end Scan

end Json

end OData
