/-
# `OData.Proofs.Json.Persisting` — what stays when a text goes on

A scan that comes to the end of a text may do something else if the text goes on: behind `12` there may
be another digit.  What it refuses before it stays refused, and so does what it yields in front of the
end.  Of a scan `Keeps cut scan` says so, in two parts:

| | |
| :-- | :-- |
| `Persists cut scan` | refusals stay, and so do values, but for those of which `cut` holds if the text ends behind them |
| `AtEnd cut scan` | where the text has ended nothing is refused, and a value is yielded only if `cut` holds of it |

A scan is `Steady` if any value may be cut short, and `Firm` if none can.  Numbers, words and passed
values are steady.  Strings, names and the insides of containers are firm, since they end with a mark of
their own; behind them a reader may refuse at will (`Keeps.after`).

In a loop the fuel grows with the text, so the basic notion `PersistsTo` compares a scan of the text with
one of the longer text.
-/
import OData.Json.Scan.Skip
import OData.Proofs.Json.Strings

namespace OData.Json

variable {ρ : Type} {α β σ : Type}

theorem Fault.placed_eq_refusal {p : Position} {fault : Fault ρ} {reason : ρ} :
    fault.placed p = .refusal reason ↔ fault = .refusal reason := by
  rcases fault with _ | ⟨_, _ | _⟩ | _ <;> simp [placed]

/-! ## Longer texts -/

namespace Cursor

variable {c : Cursor} {more : List UInt8}

/-- The cursor in a text that goes on with `more`. -/
def append (c : Cursor) (more : List UInt8) : Cursor := { c with rest := c.rest ++ more }

theorem next_append (h : c.rest ≠ []) : (c.append more).next = c.next.append more := by
  obtain ⟨rest, place⟩ := c
  cases rest with
  | nil => exact absurd rfl h
  | cons b rest => rfl

theorem head?_append (h : c.rest ≠ []) : (c.append more).rest.head? = c.rest.head? :=
  List.head?_append_of_ne_nil _ h

theorem next_of_nil (h : c.rest = []) : c.next = c := by
  rw [next, h]

/-- A run that ends in front of a byte is the same in a longer text. -/
theorem span_append (p : UInt8 → Bool) (more : List UInt8) :
    ∀ (bytes : List UInt8) (place : Position), (span p bytes place).2.rest = [] ∨
      span p (bytes ++ more) place = ((span p bytes place).1, (span p bytes place).2.append more)
  | [], _ => .inl rfl
  | b :: bytes, place => by
      rw [List.cons_append, span, span]
      split
      · rcases span_append p more bytes (place.after b) with hend | hspan
        · exact .inl hend
        · exact .inr (by rw [hspan])
      · exact .inr rfl

end Cursor

namespace Scan

/-- How a result stands to that for a longer text. -/
def Lasts (cut : α → Prop) (more : List UInt8) (result longer : EStateM.Result (Fault ρ) Cursor α) :
    Prop :=
  match result with
  | .ok a c => longer = .ok a (c.append more) ∨ cut a ∧ c.rest = []
  | .error fault _ => ∀ reason, fault = .refusal reason → ∃ c', longer = .error (.refusal reason) c'

/-- A result at the end of a text. -/
def Spent (cut : α → Prop) : EStateM.Result (Fault ρ) Cursor α → Prop
  | .ok a c => cut a ∧ c.rest = []
  | .error fault _ => ∀ reason, fault ≠ .refusal reason

theorem Spent.lasts {cut : α → Prop} {more : List UInt8}
    {result longer : EStateM.Result (Fault ρ) Cursor α} (h : Spent cut result) :
    Lasts cut more result longer := by
  cases result with
  | ok a c => exact .inr h
  | error fault c => exact fun reason hfault => absurd hfault (h reason)

theorem Spent.mono {cut cut' : α → Prop} {result : EStateM.Result (Fault ρ) Cursor α}
    (hcut : ∀ a, cut a → cut' a) (h : Spent cut result) : Spent cut' result := by
  cases result with
  | ok a c => exact ⟨hcut a h.1, h.2⟩
  | error fault c => exact h

theorem Lasts.mono {cut cut' : α → Prop} {more : List UInt8}
    {result longer : EStateM.Result (Fault ρ) Cursor α} (hcut : ∀ a, cut a → cut' a)
    (h : Lasts cut more result longer) : Lasts cut' more result longer := by
  cases result with
  | ok a c => exact h.imp_right fun hend => ⟨hcut a hend.1, hend.2⟩
  | error fault c => exact h

/-- What `scan` does stays in `scan'` of a longer text. -/
def PersistsTo (cut : α → Prop) (scan scan' : Scan ρ α) : Prop :=
  ∀ c more, Lasts cut more (scan c) (scan' (c.append more))

/-- What `scan` does stays in a longer text. -/
def Persists (cut : α → Prop) (scan : Scan ρ α) : Prop := PersistsTo cut scan scan

/-- Where the text has ended, `scan` refuses nothing and yields only what `cut` holds of. -/
def AtEnd (cut : α → Prop) (scan : Scan ρ α) : Prop := ∀ c, c.rest = [] → Spent cut (scan c)

/-- What `scan` does stays in a longer text, but for values that the end of the text cuts short; of those
`cut` holds. -/
structure Keeps (cut : α → Prop) (scan : Scan ρ α) : Prop where
  persists : Persists cut scan
  atEnd : AtEnd cut scan

/-- The end of the text may cut any value short. -/
abbrev Steady (scan : Scan ρ α) : Prop := Keeps (fun _ => True) scan

/-- The end of the text cuts no value short. -/
abbrev Firm (scan : Scan ρ α) : Prop := Keeps (fun _ => False) scan

variable {scan scan' : Scan ρ α} {cut : α → Prop} {cut' : β → Prop} {k k' : α → Scan ρ β}

/-! ## Sequences -/

theorem PersistsTo.bind (h : PersistsTo cut scan scan') (hk : ∀ a, PersistsTo cut' (k a) (k' a))
    (hend : ∀ a, cut a → AtEnd cut' (k a)) : PersistsTo cut' (scan >>= k) (scan' >>= k') := by
  intro c more
  have hc := h c more
  simp only [Bind.bind, EStateM.bind]
  cases hscan : scan c with
  | ok a d =>
      rw [hscan] at hc
      rcases hc with hlonger | ⟨hcut, hrest⟩
      · rw [hlonger]
        exact hk a d more
      · exact (hend a hcut d hrest).lasts
  | error fault d =>
      rw [hscan] at hc
      intro reason hfault
      obtain ⟨d', hlonger⟩ := hc reason hfault
      rw [hlonger]
      exact ⟨d', rfl⟩

theorem Persists.bind (h : Persists cut scan) (hk : ∀ a, Persists cut' (k a))
    (hend : ∀ a, cut a → AtEnd cut' (k a)) : Persists cut' (scan >>= k) :=
  PersistsTo.bind h hk hend

theorem AtEnd.bind (h : AtEnd cut scan) (hk : ∀ a, cut a → AtEnd cut' (k a)) :
    AtEnd cut' (scan >>= k) := by
  intro c hrest
  have hc := h c hrest
  simp only [Bind.bind, EStateM.bind]
  cases hscan : scan c with
  | ok a d =>
      rw [hscan] at hc
      exact hk a hc.1 d hc.2
  | error fault d =>
      rw [hscan] at hc
      exact hc

theorem Keeps.bind (h : Keeps cut scan) (hk : ∀ a, Persists cut' (k a))
    (hend : ∀ a, cut a → AtEnd cut' (k a)) : Keeps cut' (scan >>= k) :=
  ⟨h.persists.bind hk hend, h.atEnd.bind hend⟩

theorem Keeps.mono {cut' : α → Prop} (h : Keeps cut scan) (hcut : ∀ a, cut a → cut' a) :
    Keeps cut' scan :=
  ⟨fun c more => (h.persists c more).mono hcut, fun c hrest => (h.atEnd c hrest).mono hcut⟩

theorem Keeps.steady (h : Keeps cut scan) : Steady scan := h.mono fun _ _ => trivial

/-- Behind a firm scan anything may be refused. -/
theorem Keeps.after (h : Firm scan) (hk : ∀ a, Persists cut' (k a)) : Keeps cut' (scan >>= k) :=
  h.bind hk fun _ => False.elim

theorem Keeps.after_steady (h : Keeps cut scan) (hk : ∀ a, Steady (k a)) : Steady (scan >>= k) :=
  h.bind (fun a => (hk a).persists) fun a _ => (hk a).atEnd

theorem Keeps.after_firm (h : Keeps cut scan) (hk : ∀ a, Firm (k a)) : Firm (scan >>= k) :=
  h.bind (fun a => (hk a).persists) fun a _ => (hk a).atEnd

/-- A scan that looks for a byte, and what follows it: at the end of the text there is none. -/
theorem Keeps.look {γ : Type} {scan : Scan ρ (Option γ)} {k : Option γ → Scan ρ β}
    (h : Keeps (· = none) scan) (hk : ∀ b?, Persists cut' (k b?)) (hnone : AtEnd cut' (k none)) :
    Keeps cut' (scan >>= k) :=
  h.bind hk fun _ hb => hb ▸ hnone

/-! ## Single steps -/

theorem persists_pure (a : α) : Persists (ρ := ρ) cut (pure a) := fun _ _ => .inl rfl

theorem keeps_pure {a : α} (ha : cut a) : Keeps (ρ := ρ) cut (pure a) :=
  ⟨persists_pure a, fun _ h => ⟨ha, h⟩⟩

theorem persists_refuse (reason : ρ) : Persists cut (refuse reason : Scan ρ α) := by
  rintro c more _ ⟨⟩
  exact ⟨_, rfl⟩

theorem keeps_flawHere (flaw : Flaw) : Keeps cut (flawHere flaw : Scan ρ α) :=
  ⟨fun _ _ _ => nofun, fun _ _ _ => nofun⟩

theorem keeps_flawNext (flaw : Flaw) : Keeps cut (flawNext flaw : Scan ρ α) :=
  ⟨fun _ _ _ => nofun, fun _ _ _ => nofun⟩

theorem keeps_misfit (m : Misfit) : Keeps cut (misfit m : Scan ρ α) :=
  ⟨fun _ _ _ => nofun, fun _ _ _ => nofun⟩

theorem keeps_peek : Keeps (ρ := ρ) (· = none) peek where
  persists := by
    intro c more
    by_cases hrest : c.rest = []
    · exact .inr ⟨by rw [hrest, List.head?_nil], hrest⟩
    · exact .inl (by rw [peek, Cursor.head?_append hrest])
  atEnd := fun c hrest => ⟨by rw [hrest, List.head?_nil], hrest⟩

theorem keeps_next : Keeps (ρ := ρ) (· = none) next where
  persists := by
    intro c more
    by_cases hrest : c.rest = []
    · refine .inr ⟨by rw [hrest, List.head?_nil], ?_⟩
      rw [Cursor.next_of_nil hrest, hrest]
    · exact .inl (by rw [next, Cursor.head?_append hrest, Cursor.next_append hrest])
  atEnd := by
    intro c hrest
    refine ⟨by rw [hrest, List.head?_nil], ?_⟩
    rw [Cursor.next_of_nil hrest, hrest]

theorem steady_advance : Steady (ρ := ρ) advance where
  persists := by
    intro c more
    by_cases hrest : c.rest = []
    · refine .inr ⟨trivial, ?_⟩
      rw [Cursor.next_of_nil hrest, hrest]
    · exact .inl (by rw [advance, Cursor.next_append hrest])
  atEnd := by
    intro c hrest
    refine ⟨trivial, ?_⟩
    rw [Cursor.next_of_nil hrest, hrest]

theorem steady_takeWhile (p : UInt8 → Bool) : Steady (ρ := ρ) (takeWhile p) where
  persists := by
    intro c more
    rcases Cursor.span_append p more c.rest c.place with hend | hspan
    · exact .inr ⟨trivial, hend⟩
    · refine .inl ?_
      simp only [takeWhile, Cursor.append] at hspan ⊢
      rw [hspan]
  atEnd := by
    intro c hrest
    simp only [takeWhile, hrest, Cursor.span]
    exact ⟨trivial, rfl⟩

theorem keeps_space : Keeps (ρ := ρ) (· = none) space :=
  (steady_takeWhile _).bind (fun _ => keeps_peek.persists) fun _ _ => keeps_peek.atEnd

/-! ## Values -/

theorem Persists.located (h : Persists cut scan) : Persists cut (located scan) := by
  intro c more
  have hc := h c more
  simp only [Scan.located]
  cases hscan : scan c with
  | ok a d =>
      rw [hscan] at hc
      rcases hc with hlonger | hcut
      · exact .inl (by rw [hlonger])
      · exact .inr hcut
  | error fault d =>
      rw [hscan] at hc
      intro reason hfault
      obtain ⟨d', hlonger⟩ := hc reason (Fault.placed_eq_refusal.1 hfault)
      rw [hlonger]
      exact ⟨d', rfl⟩

theorem AtEnd.located (h : AtEnd cut scan) : AtEnd cut (located scan) := by
  intro c hrest
  have hc := h c hrest
  simp only [Scan.located]
  cases hscan : scan c with
  | ok a d =>
      rw [hscan] at hc
      exact hc
  | error fault d =>
      rw [hscan] at hc
      exact fun reason hfault => hc reason (Fault.placed_eq_refusal.1 hfault)

theorem Keeps.located (h : Keeps cut scan) : Keeps cut (located scan) :=
  ⟨h.persists.located, h.atEnd.located⟩

theorem AtEnd.closing {close : Scan ρ Unit} (hclose : Steady close) (h : AtEnd cut scan) :
    AtEnd (fun _ => True) (closing close scan) := by
  intro c hrest
  have hc := h c hrest
  simp only [Scan.closing]
  cases hscan : scan c with
  | ok a d =>
      rw [hscan] at hc
      have hpure : Steady (do close; pure a) := hclose.after_steady fun _ => keeps_pure trivial
      exact hpure.located.atEnd d hc.2
  | error fault d =>
      rw [hscan] at hc
      dsimp only
      split <;> exact fun reason hfault => hc reason (Fault.placed_eq_refusal.1 hfault)

theorem Persists.closing {close : Scan ρ Unit} (hclose : Steady close) (h : Persists cut scan) :
    Persists (fun _ => True) (closing close scan) := by
  intro c more
  have hc := h c more
  simp only [Scan.closing]
  cases hscan : scan c with
  | ok a d =>
      have hpure : Steady (do close; pure a) := hclose.after_steady fun _ => keeps_pure trivial
      rw [hscan] at hc
      rcases hc with hlonger | ⟨-, hrest⟩
      · rw [hlonger]
        exact hpure.located.persists d more
      · exact (hpure.located.atEnd d hrest).lasts
  | error fault d =>
      rw [hscan] at hc
      -- what becomes of the bracket does not count once something was refused
      have hrefused : ∀ reason p, fault.placed p = .refusal reason →
          ∃ c', Scan.closing close scan (c.append more) = .error (.refusal reason) c' := by
        intro reason p hfault
        obtain ⟨d', hlonger⟩ := hc reason (Fault.placed_eq_refusal.1 hfault)
        simp only [Scan.closing, hlonger]
        split <;> exact ⟨_, rfl⟩
      dsimp only
      split <;> exact fun reason hfault => hrefused reason _ hfault

theorem Keeps.opening {close : Scan ρ Unit} {room : Nat} {inside : Nat → Scan ρ α}
    (hclose : Steady close) (h : ∀ less, Keeps cut (inside less)) :
    Steady (opening close room inside) := by
  cases room with
  | zero => exact keeps_flawNext .tooDeep
  | succ less =>
      exact steady_advance.after_steady fun _ =>
        ⟨(h less).persists.closing hclose, (h less).atEnd.closing hclose⟩

theorem steady_closeList : Steady (ρ := ρ) closeList := by
  refine keeps_space.after_steady ?_
  intro b?
  split
  · exact steady_advance
  · refine steady_advance.after_steady ?_
    intro _
    refine keeps_space.after_steady ?_
    intro b?
    split
    · exact keeps_flawNext _
    · exact keeps_flawNext _
  · exact keeps_flawNext _
  · exact keeps_flawNext _

theorem steady_closeObject : Steady (ρ := ρ) closeObject := by
  refine keeps_space.after_steady ?_
  intro b?
  split
  · exact steady_advance
  · exact keeps_flawNext _
  · exact keeps_flawNext _
  · exact keeps_flawNext _

theorem Keeps.listOpening {room : Nat} {inside : Nat → Scan ρ α} (h : ∀ less, Keeps cut (inside less)) :
    Steady (listOpening room inside) :=
  Keeps.opening steady_closeList h

theorem Keeps.objectOpening {room : Nat} {inside : Nat → Scan ρ α}
    (h : ∀ less, Keeps cut (inside less)) : Steady (objectOpening room inside) :=
  Keeps.opening steady_closeObject h

/-! ## Whole texts -/

theorem length_append (c : Cursor) (more : List UInt8) :
    c.rest.length ≤ (c.append more).rest.length := by
  simp [Cursor.append]

/-- What is refused of a text is refused of every longer one. -/
theorem Persists.run {bytes : List UInt8} {reason : ρ} (h : Persists cut scan)
    (hrun : run scan bytes = .error (.refusal reason)) (more : List UInt8) :
    run scan (bytes ++ more) = .error (.refusal reason) := by
  have hstart := h (.start bytes) more
  have hlonger : (Cursor.start bytes).append more = .start (bytes ++ more) := rfl
  rw [hlonger] at hstart
  cases hscan : scan (.start bytes) with
  | ok a c =>
      -- what is wrong behind the value is a flaw
      obtain ⟨b?, d, hspace⟩ : ∃ b? d, space (ρ := ρ) c = .ok b? d := ⟨_, _, rfl⟩
      simp only [Scan.run, Bind.bind, EStateM.bind, hscan, hspace] at hrun
      cases b? <;> cases hrun
  | error fault c =>
      rw [run_of_error hscan] at hrun
      cases hrun
      rw [hscan] at hstart
      obtain ⟨c', hrefused⟩ := hstart reason rfl
      exact run_of_error hrefused

end Scan

end OData.Json
