/-
# `OData.Proofs.Json.Agreeing` — one text in two surroundings

The same text may stand at two places, with other bytes behind it, in another depth, and may be read by
two readers that differ in what does not matter there.  `Agrees reasons scan scan' i o i' o'` compares
them: in front of `i` and of `i'` the two yield the same value and leave `o` and `o'`, or both stop.
Where one of them refuses the text for a reason of its own the other does too, for the same one, and
the reason is one of `reasons`; flaws and misfits are not compared, since they have places.

The rules follow the way scans are put together.  A step that only one of the two takes is a rule for
the second scan (`after_right`, `located_right`, `closing_right`), and `Agrees.symm` is there for the
first.  In a loop the states are the same at every part, and each loop has fuel of its own.

Values in general are at the end: how much room is left does not matter, as long as there is enough
for what nests in the text.
-/
import OData.Proofs.Json.Trying
import OData.Value.Scan

namespace OData.Json

namespace Fault

variable {ρ : Type} {reasons : ρ → Prop} {fault fault' : Fault ρ}

/-- The reason for which a text was turned down that was JSON so far. -/
def refusal? : Fault ρ → Option ρ
  | refusal reason => some reason
  | _ => none

theorem refusal?_placed (p : Position) (fault : Fault ρ) :
    (fault.placed p).refusal? = fault.refusal? := by
  rcases fault with _ | ⟨_, _ | _⟩ | _ <;> rfl

/-- The faults are one refusal, for one of the reasons, or neither of them is a refusal. -/
def Matches (reasons : ρ → Prop) (fault fault' : Fault ρ) : Prop :=
  fault.refusal? = fault'.refusal? ∧ ∀ reason ∈ fault.refusal?, reasons reason

theorem Matches.symm (h : fault.Matches reasons fault') : fault'.Matches reasons fault :=
  ⟨h.1.symm, h.1 ▸ h.2⟩

theorem Matches.placed (h : fault.Matches reasons fault') (p : Position) :
    fault.Matches reasons (fault'.placed p) :=
  ⟨h.1.trans (refusal?_placed p fault').symm, h.2⟩

theorem matches_flaw (flaw flaw' : Flaw) (p p' : Position) :
    (Fault.flaw flaw p).Matches reasons (.flaw flaw' p') :=
  ⟨rfl, nofun⟩

end Fault

namespace Scan

variable {ρ : Type} {reasons : ρ → Prop} {α β σ : Type} {scan scan' : Scan ρ α}
  {k k' : α → Scan ρ β} {i m o i' m' o' : List UInt8} {a : α}

/-- The same value with `o` and `o'` left, or two faults that match. -/
inductive SameEnd (reasons : ρ → Prop) (o o' : List UInt8) :
    EStateM.Result (Fault ρ) Cursor α → EStateM.Result (Fault ρ) Cursor α → Prop
  | ok (a : α) {c c' : Cursor} (hrest : c.rest = o) (hrest' : c'.rest = o') :
      SameEnd reasons o o' (.ok a c) (.ok a c')
  | error {fault fault' : Fault ρ} {c c' : Cursor} (h : fault.Matches reasons fault') :
      SameEnd reasons o o' (.error fault c) (.error fault' c')

/-- In front of `i` and of `i'`, the scans yield the same value and leave `o` and `o'`, or both stop, and
for the same reason if it is one of their own. -/
def Agrees (reasons : ρ → Prop) (scan scan' : Scan ρ α) (i o i' o' : List UInt8) : Prop :=
  ∀ place place', SameEnd reasons o o' (scan ⟨i, place⟩) (scan' ⟨i', place'⟩)

/-! ## Steps -/

theorem agrees_of_passes (h : Passes scan i a o) (h' : Passes scan' i' a o') :
    Agrees reasons scan scan' i o i' o' := by
  intro place place'
  obtain ⟨p, hp⟩ := h place
  obtain ⟨p', hp'⟩ := h' place'
  rw [hp, hp']
  exact .ok a rfl rfl

theorem agrees_pure (a : α) : Agrees reasons (pure a) (pure a) o o o' o' :=
  agrees_of_passes (Passes.pure a o) (Passes.pure a o')

theorem agrees_misfit (f f' : Misfit) :
    Agrees (α := α) reasons (misfit f) (misfit f') i o i' o' :=
  fun _ _ => .error ⟨rfl, nofun⟩

theorem agrees_refuse {reason : ρ} (h : reasons reason) :
    Agrees (α := α) reasons (refuse reason) (refuse reason) i o i' o' := by
  intro _ _
  refine .error ⟨rfl, ?_⟩
  rintro _ ⟨⟩
  exact h

namespace Agrees

theorem symm (h : Agrees reasons scan scan' i o i' o') : Agrees reasons scan' scan i' o' i o := by
  intro place place'
  have h := h place' place
  generalize scan ⟨i, place'⟩ = result, scan' ⟨i', place⟩ = result' at h
  cases h with
  | ok a hrest hrest' => exact .ok a hrest' hrest
  | error hfault => exact .error hfault.symm

theorem bind (h : Agrees reasons scan scan' i m i' m')
    (hk : ∀ a, Agrees reasons (k a) (k' a) m o m' o') :
    Agrees reasons (scan >>= k) (scan' >>= k') i o i' o' := by
  intro place place'
  have h := h place place'
  show SameEnd reasons o o' (EStateM.bind scan k _) (EStateM.bind scan' k' _)
  simp only [EStateM.bind]
  generalize scan ⟨i, place⟩ = result, scan' ⟨i', place'⟩ = result' at h
  cases h with
  | @ok a c c' hrest hrest' =>
      subst hrest hrest'
      exact hk a c.place c'.place
  | error hfault => exact .error hfault

/-- A step that only the second scan takes. -/
theorem after_right {scan : Scan ρ β} {scan' : Scan ρ α} (h : Passes scan' i' a m')
    (hk : Agrees reasons scan (k a) i o m' o') : Agrees reasons scan (scan' >>= k) i o i' o' := by
  intro place place'
  obtain ⟨p', hp'⟩ := h place'
  show SameEnd reasons o o' (scan _) (EStateM.bind scan' k _)
  simp only [EStateM.bind, hp']
  exact hk place p'

theorem after (h : Passes scan i a m) (h' : Passes scan' i' a m')
    (hk : Agrees reasons (k a) (k' a) m o m' o') :
    Agrees reasons (scan >>= k) (scan' >>= k') i o i' o' :=
  (after_right h (after_right h' hk).symm).symm

/-- A step for which both scans try the same. -/
theorem of_tries {a? : Option α} (h : Tries scan i a? m) (h' : Tries scan' i' a? m')
    (hk : ∀ a ∈ a?, Agrees reasons (k a) (k' a) m o m' o') :
    Agrees reasons (scan >>= k) (scan' >>= k') i o i' o' := by
  cases a? with
  | some a => exact after h h' (hk a rfl)
  | none =>
      intro place place'
      -- The two flaws need not be the same: no one asks which flaw a text has, or where.
      obtain ⟨flaw, spot, c, hflaw⟩ := h.stop k o place
      obtain ⟨flaw', spot', c', hflaw'⟩ := h'.stop k' o' place'
      rw [hflaw, hflaw']
      exact .error (Fault.matches_flaw flaw flaw' spot spot')

theorem located_right (h : Agrees reasons scan scan' i o i' o') :
    Agrees reasons scan (located scan') i o i' o' := by
  intro place place'
  have h := h place place'
  simp only [Scan.located]
  generalize scan ⟨i, place⟩ = result, scan' ⟨i', place'⟩ = result' at h
  cases h with
  | ok a hrest hrest' => exact .ok a hrest hrest'
  | error hfault => exact .error (hfault.placed _)

theorem located (h : Agrees reasons scan scan' i o i' o') :
    Agrees reasons (located scan) (located scan') i o i' o' :=
  h.located_right.symm.located_right.symm

/-- A bracket that only the second scan closes. -/
theorem closing_right {close : Scan ρ Unit} (h : Agrees reasons scan scan' i o i' m')
    (hclose : Passes close m' () o') : Agrees reasons scan (closing close scan') i o i' o' := by
  intro place place'
  have h := h place place'
  simp only [Scan.closing]
  generalize scan ⟨i, place⟩ = result, scan' ⟨i', place'⟩ = result' at h
  cases h with
  | @ok a c c' hrest hrest' =>
      subst hrest'
      have hpure : Passes (do close; pure a) c'.rest a o' := hclose.bind (Passes.pure a o')
      obtain ⟨p, hp⟩ := hpure.located c'.place
      simp only [hp]
      exact .ok a hrest rfl
  | error hfault =>
      -- To close behind a fault can give it a place and changes nothing else.
      dsimp only
      split <;> exact .error (hfault.placed _)

theorem closing {close : Scan ρ Unit} (h : Agrees reasons scan scan' i m i' m')
    (hclose : Passes close m () o) (hclose' : Passes close m' () o') :
    Agrees reasons (closing close scan) (closing close scan') i o i' o' :=
  ((h.closing_right hclose').symm.closing_right hclose).symm

/-- A check in front of both scans. -/
theorem check {c : Prop} [Decidable c] {reason : ρ} {k k' : Unit → Scan ρ α} (h : reasons reason)
    (hk : Agrees reasons (k ()) (k' ()) i o i' o') :
    Agrees reasons (if c then refuse reason >>= k else k ())
      (if c then refuse reason >>= k' else k' ()) i o i' o' := by
  split
  · exact agrees_refuse h
  · exact hk

end Agrees

/-! ## Values and members -/

/-- The scans agree on a text, whatever follows it that is no more of a number. -/
def AgreesOn (reasons : ρ → Prop) (scan scan' : Scan ρ α) (text : List UInt8) : Prop :=
  ∀ ⦃gap o o' : List UInt8⦄, Blank gap → Halts extendsNumber o → Halts extendsNumber o' →
    Agrees reasons scan scan' (gap ++ (text ++ o)) o (gap ++ (text ++ o')) o'

/-- The scans agree on a text that is the value of a member whose name has been read. -/
def AgreesBehindName (reasons : ρ → Prop) (scan scan' : Scan ρ α) (text : List UInt8) : Prop :=
  ∀ ⦃gap gap' o o' : List UInt8⦄, Blank gap → Blank gap' → Halts extendsNumber o →
    Halts extendsNumber o' →
    Agrees reasons scan scan' (gap ++ Byte.colon :: (gap' ++ (text ++ o))) o
      (gap ++ Byte.colon :: (gap' ++ (text ++ o'))) o'

variable {text : List UInt8}

theorem AgreesOn.located (h : AgreesOn reasons scan scan' text) :
    AgreesOn reasons (located scan) (located scan') text :=
  fun _ _ _ hgap ho ho' => (h hgap ho ho').located

theorem AgreesOn.bind (h : AgreesOn reasons scan scan' text)
    (hk : ∀ a o o', Agrees reasons (k a) (k' a) o o o' o') :
    AgreesOn reasons (scan >>= k) (scan' >>= k') text :=
  fun _ o o' hgap ho ho' => (h hgap ho ho').bind fun a => hk a o o'

theorem AgreesOn.member (h : AgreesOn reasons scan scan' text) :
    AgreesBehindName reasons (member scan) (member scan') text :=
  fun _ _ _ _ hgap hgap' ho ho' =>
    .after (passes_colon hgap) (passes_colon hgap) (h hgap' ho ho')

theorem AgreesBehindName.bind (h : AgreesBehindName reasons scan scan' text)
    (hk : ∀ a o o', Agrees reasons (k a) (k' a) o o o' o') :
    AgreesBehindName reasons (scan >>= k) (scan' >>= k') text :=
  fun _ _ o o' hgap hgap' ho ho' => (h hgap hgap' ho ho').bind fun a => hk a o o'

/-! ## Containers -/

theorem halts_itemsForm {Item : List UInt8 → Prop} {more : List UInt8}
    (h : ItemsForm Item false more) (o : List UInt8) :
    Halts extendsNumber (more ++ Byte.closeBracket :: o) := by
  cases h with
  | nil hgap => exact halts_end rfl hgap
  | cons hlead _ _ =>
      rw [List.append_assoc]
      exact halts_lead hlead

theorem halts_membersForm {Title Value : List UInt8 → Prop} {more : List UInt8}
    (h : MembersForm Title Value false more) (o : List UInt8) :
    Halts extendsNumber (more ++ Byte.closeBrace :: o) := by
  cases h with
  | nil hgap => exact halts_end rfl hgap
  | cons hlead _ _ _ _ _ =>
      rw [List.append_assoc]
      exact halts_lead hlead

section Loops

variable {Item Title Value : List UInt8 → Prop} {first : Bool} {inside : List UInt8}

theorem agrees_itemsFrom {step step' : σ → Scan ρ σ}
    (hitem : ∀ text, Item text →
      ∃ b more, text = b :: more ∧ Byte.isSpace b = false ∧ b ≠ Byte.closeBracket)
    (hstep : ∀ s text, Item text → AgreesOn reasons (step s) (step' s) text)
    (h : ItemsForm Item first inside) (o o' : List UInt8) :
    ∀ {fuel fuel' : Nat} (s : σ), inside.length < fuel → inside.length < fuel' →
      Agrees reasons (itemsFrom step fuel first s) (itemsFrom step' fuel' first s)
        (inside ++ Byte.closeBracket :: o) (Byte.closeBracket :: o)
        (inside ++ Byte.closeBracket :: o') (Byte.closeBracket :: o') := by
  -- Each loop has fuel of its own, since the texts behind the items need not be of one length.
  induction h with
  | @nil first inside hgap =>
      rintro (_ | fuel) (_ | fuel') s hfuel hfuel'
      case succ.succ =>
        exact .after (passes_nextItem_end first hgap) (passes_nextItem_end first hgap)
          (agrees_pure s)
      all_goals omega
  | @cons first lead text more hlead htext hmore ih =>
      intro fuel fuel' s hfuel hfuel'
      obtain ⟨b, text', htext', hb, hclose⟩ := hitem text htext
      have hlength : 0 < text.length := by rw [htext', List.length_cons]; omega
      simp only [List.length_append] at hfuel hfuel'
      obtain ⟨fuel, rfl⟩ : ∃ n, fuel = n + 1 := ⟨fuel - 1, by omega⟩
      obtain ⟨fuel', rfl⟩ : ∃ n, fuel' = n + 1 := ⟨fuel' - 1, by omega⟩
      have hnext : ∀ i, Passes (ρ := ρ) (nextItem first) (lead ++ (text ++ i)) true (text ++ i) := by
        intro i
        rw [htext']
        exact passes_nextItem hb hclose hlead
      simp only [List.append_assoc]
      refine .after (hnext _) (hnext _) ?_
      refine (hstep s text htext blank_nil (halts_itemsForm hmore o)
        (halts_itemsForm hmore o')).bind fun s => ?_
      exact ih s (by omega) (by omega)

theorem agrees_membersFrom {step step' : σ → String → Scan ρ σ}
    (htitle : ∀ title, Title title → StringForm title)
    (hstep : ∀ s name title text, Title title → StringText name title → Value text →
      AgreesBehindName reasons (step s name) (step' s name) text)
    (h : MembersForm Title Value first inside) (o o' : List UInt8) :
    ∀ {fuel fuel' : Nat} (s : σ), inside.length < fuel → inside.length < fuel' →
      Agrees reasons (membersFrom step fuel first s) (membersFrom step' fuel' first s)
        (inside ++ Byte.closeBrace :: o) (Byte.closeBrace :: o)
        (inside ++ Byte.closeBrace :: o') (Byte.closeBrace :: o') := by
  induction h with
  | @nil first inside hgap =>
      rintro (_ | fuel) (_ | fuel') s hfuel hfuel'
      case succ.succ =>
        exact .after (passes_nextName_end first hgap) (passes_nextName_end first hgap)
          (agrees_pure s)
      all_goals omega
  | @cons first lead title gap gap' text more hlead hname hgap hgap' htext hmore ih =>
      intro fuel fuel' s hfuel hfuel'
      simp only [List.length_append, List.length_cons] at hfuel hfuel'
      obtain ⟨fuel, rfl⟩ : ∃ n, fuel = n + 1 := ⟨fuel - 1, by omega⟩
      obtain ⟨fuel', rfl⟩ : ∃ n, fuel' = n + 1 := ⟨fuel' - 1, by omega⟩
      obtain ⟨name?, hspells, hnext⟩ := exists_tries_nextName (ρ := ρ) (htitle title hname)
      simp only [List.append_assoc, List.cons_append]
      refine .of_tries (hnext _ hlead) (hnext _ hlead) ?_
      intro b? hb?
      obtain ⟨name, hname?, rfl⟩ := Option.map_eq_some_iff.1 hb?
      refine (hstep s name title text hname (hspells name hname?) htext hgap hgap'
        (halts_membersForm hmore o) (halts_membersForm hmore o')).bind fun s => ?_
      exact ih s (by omega) (by omega)

/-- The items of a list. -/
theorem agrees_items {step step' : σ → Scan ρ σ}
    (hitem : ∀ text, Item text →
      ∃ b more, text = b :: more ∧ Byte.isSpace b = false ∧ b ≠ Byte.closeBracket)
    (hstep : ∀ s text, Item text → AgreesOn reasons (step s) (step' s) text)
    (h : ItemsForm Item true inside) (s : σ) (o o' : List UInt8) :
    Agrees reasons (items step s) (items step' s) (inside ++ Byte.closeBracket :: o)
      (Byte.closeBracket :: o) (inside ++ Byte.closeBracket :: o') (Byte.closeBracket :: o') :=
  fun place place' =>
    agrees_itemsFrom hitem hstep h o o' s (by simp) (by simp) place place'

/-- The members of an object. -/
theorem agrees_members {step step' : σ → String → Scan ρ σ}
    (htitle : ∀ title, Title title → StringForm title)
    (hstep : ∀ s name title text, Title title → StringText name title → Value text →
      AgreesBehindName reasons (step s name) (step' s name) text)
    (h : MembersForm Title Value true inside) (s : σ) (o o' : List UInt8) :
    Agrees reasons (members step s) (members step' s) (inside ++ Byte.closeBrace :: o)
      (Byte.closeBrace :: o) (inside ++ Byte.closeBrace :: o') (Byte.closeBrace :: o') :=
  fun place place' =>
    agrees_membersFrom htitle hstep h o o' s (by simp) (by simp) place place'

end Loops

section Brackets

variable {room room' : Nat} {inside inside' : Nat → Scan ρ α}

theorem Agrees.listOpening (h : Agrees reasons (inside room) (inside' room')
      i (Byte.closeBracket :: o) i' (Byte.closeBracket :: o')) :
    Agrees reasons (listOpening (room + 1) inside) (listOpening (room' + 1) inside')
      (Byte.openBracket :: i) o (Byte.openBracket :: i') o' :=
  .after (passes_advance _ i) (passes_advance _ i')
    (h.closing (passes_closeList blank_nil) (passes_closeList blank_nil))

theorem Agrees.objectOpening (h : Agrees reasons (inside room) (inside' room')
      i (Byte.closeBrace :: o) i' (Byte.closeBrace :: o')) :
    Agrees reasons (objectOpening (room + 1) inside) (objectOpening (room' + 1) inside')
      (Byte.openBrace :: i) o (Byte.openBrace :: i') o' :=
  .after (passes_advance _ i) (passes_advance _ i')
    (h.closing (passes_closeObject blank_nil) (passes_closeObject blank_nil))

end Brackets

/-! ### Containers that only the second scan goes into -/

/-- What the second scan makes of its value behind it, the first makes of it at once. -/
theorem Agrees.then_right {γ : Type} {f : α → β} {g : α → γ} {scan' : Scan ρ β} {k : β → Scan ρ γ}
    (h : Agrees reasons (scan >>= fun a => pure (f a)) scan' i o i' m')
    (hk : ∀ a, Passes (k (f a)) m' (g a) o') :
    Agrees reasons (scan >>= fun a => pure (g a)) (scan' >>= k) i o i' o' := by
  intro place place'
  have h := h place place'
  show SameEnd reasons o o' (EStateM.bind scan _ _) (EStateM.bind scan' k _)
  change SameEnd reasons o m' (EStateM.bind scan _ _) _ at h
  simp only [EStateM.bind] at h ⊢
  generalize scan ⟨i, place⟩ = result, scan' ⟨i', place'⟩ = result' at h
  cases result with
  | ok a c =>
      cases h with
      | @ok _ _ c' hrest hrest' =>
          subst hrest'
          obtain ⟨p, hp⟩ := hk a c'.place
          dsimp only
          rw [hp]
          exact .ok (g a) hrest rfl
  | error fault c =>
      cases h with
      | error hfault => exact .error hfault

/-- What the second scan does behind it leaves the value as it is. -/
theorem Agrees.before_right {k : α → Scan ρ α} (h : Agrees reasons scan scan' i o i' m')
    (hk : ∀ a, Passes (k a) m' a o') : Agrees reasons scan (scan' >>= k) i o i' o' := by
  rw [← bind_pure scan] at h ⊢
  exact h.then_right hk

/-- A list of one item. -/
theorem Agrees.only_item {scan : Scan ρ σ} {step : σ → Scan ρ σ} {s : σ} {b : UInt8}
    (hb : Byte.isSpace b = false) (hclose : b ≠ Byte.closeBracket)
    (h : Agrees reasons scan (step s) i o (b :: (i' ++ Byte.closeBracket :: o'))
      (Byte.closeBracket :: o')) :
    Agrees reasons scan (items step s) i o (b :: (i' ++ Byte.closeBracket :: o'))
      (Byte.closeBracket :: o') := by
  have hlead : Lead true [] := blank_nil
  have hloop : ∀ fuel, Agrees reasons scan (itemsFrom step (fuel + 2) true s) i o
      (b :: (i' ++ Byte.closeBracket :: o')) (Byte.closeBracket :: o') := by
    intro fuel
    refine .after_right (passes_nextItem hb hclose hlead) (h.before_right fun s => ?_)
    exact (passes_nextItem_end false blank_nil).bind (Passes.pure s _)
  intro place place'
  have hlength : (b :: (i' ++ Byte.closeBracket :: o')).length = i'.length + o'.length + 2 := by
    simp only [List.length_cons, List.length_append]
    omega
  show SameEnd reasons _ _ _ (itemsFrom step (b :: (i' ++ Byte.closeBracket :: o')).length true s _)
  rw [hlength]
  exact hloop _ place place'

/-- An object of one member. -/
theorem Agrees.only_member {scan : Scan ρ σ} {step : σ → String → Scan ρ σ} {s : σ} {name : String}
    {title : List UInt8} (htitle : StringText name title)
    (h : Agrees reasons scan (step s name) i o i' (Byte.closeBrace :: o')) :
    Agrees reasons scan (members step s) i o (title ++ i') (Byte.closeBrace :: o') := by
  have hlead : Lead true [] := blank_nil
  have hloop : ∀ fuel, Agrees reasons scan (membersFrom step (fuel + 2) true s) i o
      (title ++ i') (Byte.closeBrace :: o') := by
    intro fuel
    refine .after_right (passes_nextName htitle hlead) (h.before_right fun s => ?_)
    exact (passes_nextName_end false blank_nil).bind (Passes.pure s _)
  intro place place'
  obtain ⟨inside, -, htext⟩ := htitle
  have hlength : (title ++ i').length = inside.length + i'.length + 2 := by
    simp only [htext, List.length_cons, List.length_append, List.length_nil]
    omega
  show SameEnd reasons _ _ _ (membersFrom step (title ++ i').length true s _)
  rw [hlength]
  exact hloop _ place place'

/-! ## Readers of values -/

/-- What starts a value is the same for both, and what each does then is a matter of the kind. -/
theorem AgreesOn.of_start {k k' : Start → Scan ρ α} {depth : Nat} (h : ValueForm depth text)
    (hscalar : ∀ s o o', Agrees reasons (k (.scalar s)) (k' (.scalar s)) o o o' o')
    (hlist : ∀ less inside o o', depth = less + 1 → ItemsForm (ValueForm less) true inside →
      Agrees reasons (k .list) (k' .list) (Byte.openBracket :: (inside ++ Byte.closeBracket :: o)) o
        (Byte.openBracket :: (inside ++ Byte.closeBracket :: o')) o')
    (hobject : ∀ less inside o o', depth = less + 1 →
      MembersForm StringForm (ValueForm less) true inside →
      Agrees reasons (k .object) (k' .object) (Byte.openBrace :: (inside ++ Byte.closeBrace :: o)) o
        (Byte.openBrace :: (inside ++ Byte.closeBrace :: o')) o') :
    AgreesOn reasons (start >>= k) (start >>= k') text := by
  have hparts : ScalarForm text → AgreesOn reasons (start >>= k) (start >>= k') text := by
    intro h gap o o' hgap ho ho'
    obtain ⟨s?, htries⟩ := exists_tries_start (ρ := ρ) h
    refine .of_tries (htries hgap ho) (htries hgap ho') ?_
    intro s hs
    obtain ⟨s, -, rfl⟩ := Option.map_eq_some_iff.1 hs
    exact hscalar s o o'
  cases depth with
  | zero => exact hparts h
  | succ less =>
      rcases h with h | ⟨inside, hinside, rfl⟩ | ⟨inside, hinside, rfl⟩
      · exact hparts h
      · intro gap o o' hgap _ _
        simp only [List.cons_append, List.append_assoc, List.nil_append]
        exact .after ((passes_space_cons hgap rfl).bind (Passes.pure _ _))
          ((passes_space_cons hgap rfl).bind (Passes.pure _ _)) (hlist less inside o o' rfl hinside)
      · intro gap o o' hgap _ _
        simp only [List.cons_append, List.append_assoc, List.nil_append]
        exact .after ((passes_space_cons hgap rfl).bind (Passes.pure _ _))
          ((passes_space_cons hgap rfl).bind (Passes.pure _ _))
          (hobject less inside o o' rfl hinside)

theorem agreesOn_anyString {depth : Nat} (h : ValueForm depth text) :
    AgreesOn (ρ := ρ) reasons anyString anyString text := by
  refine (AgreesOn.of_start h ?_ ?_ ?_).located
  · intro s o o'
    cases s with
    | string s => exact agrees_pure s
    | _ => exact agrees_misfit _ _
  · intro less inside o o' _ _
    exact agrees_misfit _ _
  · intro less inside o o' _ _
    exact agrees_misfit _ _

/-- Items are collected alike if each is read alike. -/
theorem agrees_collect {Item : List UInt8 → Prop} {inside : List UInt8}
    (hitem : ∀ text, Item text →
      ∃ b more, text = b :: more ∧ Byte.isSpace b = false ∧ b ≠ Byte.closeBracket)
    (hscan : ∀ text, Item text → AgreesOn reasons scan scan' text) (h : ItemsForm Item true inside)
    (o o' : List UInt8) :
    Agrees reasons (collect scan) (collect scan') (inside ++ Byte.closeBracket :: o)
      (Byte.closeBracket :: o) (inside ++ Byte.closeBracket :: o') (Byte.closeBracket :: o') := by
  refine (agrees_items hitem ?_ h [] o o').bind fun reversed => agrees_pure _
  intro acc text htext
  exact (hscan text htext).bind fun a o o' => agrees_pure (a :: acc)

theorem exists_scanWith : ∀ room,
    ∃ list object, Value.scan (ρ := ρ) room = Value.scanWith list object
  | 0 => ⟨_, _, rfl⟩
  | _ + 1 => ⟨_, _, rfl⟩

/-- A value is read alike wherever there is room for what nests in it. -/
theorem agreesOn_scan : ∀ {depth room room' : Nat} {text : List UInt8}, ValueForm depth text →
    depth ≤ room → depth ≤ room' →
    AgreesOn (ρ := ρ) reasons (Value.scan room) (Value.scan room') text
  | 0, room, room', text, h, _, _ => by
      obtain ⟨list, object, hscan⟩ := exists_scanWith (ρ := ρ) room
      obtain ⟨list', object', hscan'⟩ := exists_scanWith (ρ := ρ) room'
      rw [hscan, hscan']
      refine (AgreesOn.of_start h ?_ ?_ ?_).located
      · exact fun s o o' => agrees_pure _
      · intro less _ _ _ hless
        cases hless
      · intro less _ _ _ hless
        cases hless
  | depth + 1, room + 1, room' + 1, text, h, hroom, hroom' => by
      have hvalue : ∀ text, ValueForm depth text →
          AgreesOn (ρ := ρ) reasons (Value.scan room) (Value.scan room') text := by
        intro text htext
        exact agreesOn_scan htext (Nat.le_of_succ_le_succ hroom) (Nat.le_of_succ_le_succ hroom')
      refine (AgreesOn.of_start h ?_ ?_ ?_).located
      · exact fun s o o' => agrees_pure _
      · rintro less inside o o' ⟨⟩ hinside
        refine .listOpening ?_
        exact (agrees_collect (fun _ => head_of_valueForm) hvalue hinside o o').bind
          fun items => agrees_pure _
      · rintro less inside o o' ⟨⟩ hinside
        refine .objectOpening ?_
        refine (agrees_members (fun _ htitle => htitle) ?_ hinside [] o o').bind
          fun members => agrees_pure _
        intro members name title text _ _ htext
        refine (hvalue text htext).member.bind fun v o o' => ?_
        split
        · exact agrees_misfit _ _
        · exact agrees_pure _

/-! ## Whole texts -/

/-- The same value, or two faults that match. -/
inductive SameResult (reasons : ρ → Prop) : Except (Fault ρ) α → Except (Fault ρ) α → Prop
  | ok (a : α) : SameResult reasons (.ok a) (.ok a)
  | error {fault fault' : Fault ρ} (h : fault.Matches reasons fault') :
      SameResult reasons (.error fault) (.error fault')

theorem Agrees.run {gap gap' : List UInt8} (h : Agrees reasons scan scan' i gap i' gap')
    (hgap : Blank gap) (hgap' : Blank gap') : SameResult reasons (run scan i) (run scan' i') := by
  have h := h ⟨1, 0⟩ ⟨1, 0⟩
  generalize hscan : scan ⟨i, ⟨1, 0⟩⟩ = result, hscan' : scan' ⟨i', ⟨1, 0⟩⟩ = result' at h
  cases h with
  | ok a hrest hrest' =>
      rw [run_of_rest hscan hrest hgap, run_of_rest hscan' hrest' hgap']
      exact .ok a
  | error hfault =>
      rw [run_of_error hscan, run_of_error hscan']
      exact .error hfault

end Scan

end OData.Json
