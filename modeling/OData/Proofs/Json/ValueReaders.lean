/-
# `OData.Proofs.Json.ValueReaders` — readers of values

The ways to make a reader that asks for a value: it looks how the value starts and, if that is with a
bracket, goes through the items or members.  Whatever it does with them, what it reads can be passed
(`ReadsValue`), provided that it reads one value for each item and a colon and a value for each name.

A value that is passed and not looked at can be passed around it, too: the brackets that are open inside
of it lie on top of those that are open around it, and those are not touched (`reaches_of_skipFrom`).
-/
import OData.Proofs.Json.Passing

namespace OData.Json.Scan

variable {ρ : Type} {α β σ : Type} {scan : Scan ρ α} {c d : Cursor} {bracket : Bracket}

/-! ## How a value starts -/

/-- What opens a container. -/
def opens : Bracket → UInt8
  | .list => Byte.openBracket
  | .object => Byte.openBrace

theorem takes_skipStart_number {b : UInt8} {outer : List Bracket} (hc : c.trim.rest.head? = some b)
    (hb : Byte.isDigit b = true) (h : Takes (ρ := ρ) skipNumber c.trim () d) :
    Takes (ρ := ρ) (skipStart outer) c (.afterValue, outer) d := by
  refine (takes_space hc).bind ?_
  split
  case h_1 heq => cases heq
  case h_9 heq =>
    cases heq
    rw [if_pos hb]
    exact h.bind (takes_pure _ d)
  all_goals
    next heq =>
      cases heq
      exact absurd hb (by decide)

theorem takes_skipStart_bracket {r : Upcoming × List Bracket} {outer : List Bracket}
    (hc : c.trim.rest.head? = some (opens bracket))
    (h : Takes (ρ := ρ) (skipOpening bracket outer) c.trim r d) :
    Takes (ρ := ρ) (skipStart outer) c r d := by
  cases bracket with
  | list => exact (takes_space hc).bind h
  | object => exact (takes_space hc).bind h

/-- A value without parts can be passed behind its start; a bracket is still in front of the cursor. -/
theorem leaves_start : Leaves (ρ := ρ) start c fun s d =>
    match s with
    | .scalar _ => ∀ outer, Takes (ρ := ρ) (skipStart outer) c (.afterValue, outer) d
    | .list => d = c.trim ∧ c.trim.rest.head? = some (opens .list)
    | .object => d = c.trim ∧ c.trim.rest.head? = some (opens .object) := by
  refine leaves_space ?_
  intro b? hc
  split
  · exact leaves_flawNext _
  · refine (leaves_takes _ _).bind fun _ d hd => leaves_pure fun outer => ?_
    exact (takes_space hc).bind (hd.bind (takes_pure _ d))
  · refine (leaves_takes _ _).bind fun _ d hd => leaves_pure fun outer => ?_
    exact (takes_space hc).bind (hd.bind (takes_pure _ d))
  · refine (leaves_takes _ _).bind fun _ d hd => leaves_pure fun outer => ?_
    exact (takes_space hc).bind (hd.bind (takes_pure _ d))
  · refine leaves_advance ((leaves_takes _ _).bind fun n d hd => leaves_pure fun outer => ?_)
    have hnumber : Takes (ρ := ρ) skipNumber c.trim.next () d := covers_number true _ n d hd
    exact (takes_space hc).bind ((takes_advance _).bind (hnumber.bind (takes_pure _ d)))
  · refine leaves_advance ((leaves_takes _ _).bind fun s d hd => leaves_pure fun outer => ?_)
    have hstring : Takes (ρ := ρ) skipStringBody c.trim.next () d := covers_stringBody _ s d hd
    exact (takes_space hc).bind ((takes_advance _).bind (hstring.bind (takes_pure _ d)))
  · exact leaves_pure ⟨rfl, hc⟩
  · exact leaves_pure ⟨rfl, hc⟩
  · split
    · next hdigit =>
        refine (leaves_takes _ _).bind fun n d hd => leaves_pure fun outer => ?_
        exact takes_skipStart_number hc hdigit (covers_number false _ n d hd)
    · exact leaves_flawNext _

/-- What `scan` reads from an opening bracket on is a container. -/
def ReadsContainer (bracket : Bracket) (scan : Scan ρ α) : Prop :=
  ∀ c, Leaves scan c fun _ d => ∀ outer, ∃ upcoming outer' e,
    Takes (ρ := ρ) (skipOpening bracket outer) c (upcoming, outer') e ∧
      Reaches (ρ := ρ) (skipFrom · upcoming outer') e (skipFrom · .afterValue outer) d

theorem readsContainer_misfit (m : Misfit) : ReadsContainer bracket (misfit m : Scan ρ α) :=
  fun _ _ _ => nofun

theorem readsContainer_flawNext (flaw : Flaw) : ReadsContainer bracket (flawNext flaw : Scan ρ α) :=
  fun _ _ _ => nofun

theorem ReadsContainer.passed (h : ReadsContainer bracket scan)
    (hc : c.trim.rest.head? = some (opens bracket)) : Leaves scan c.trim fun _ d => Passed ρ c d := by
  intro a d ha outer
  obtain ⟨upcoming, outer', e, hopening, hreaches⟩ := h c.trim a d ha outer
  exact ⟨upcoming, outer', e, takes_skipStart_bracket hc hopening, hreaches⟩

theorem ReadsValue.of_start {k : Start → Scan ρ α} (hscalar : ∀ x, Still (k (.scalar x)))
    (hlist : ReadsContainer .list (k .list)) (hobject : ReadsContainer .object (k .object)) :
    ReadsValue (start >>= k) := by
  intro c
  refine leaves_start.bind ?_
  intro s e hstart
  cases s with
  | scalar x =>
      intro a d ha
      rw [hscalar x e a d ha]
      exact fun outer => ⟨_, _, _, hstart outer, Reaches.refl _ e⟩
  | list =>
      obtain ⟨rfl, hc⟩ := hstart
      exact hlist.passed hc
  | object =>
      obtain ⟨rfl, hc⟩ := hstart
      exact hobject.passed hc

theorem ReadsValue.located (h : ReadsValue scan) : ReadsValue (located scan) := fun c => (h c).located

theorem ReadsValue.then_still {k : α → Scan ρ β} (h : ReadsValue scan) (hk : ∀ a, Still (k a)) :
    ReadsValue (scan >>= k) :=
  fun c => (h c).then_still hk

theorem readsValue_anyString : ReadsValue (ρ := ρ) anyString := by
  refine ReadsValue.located (ReadsValue.of_start ?_ (readsContainer_misfit _) (readsContainer_misfit _))
  intro x
  split
  · exact still_pure _
  · exact still_misfit _

/-! ## Lists -/

theorem leaves_closeList : Leaves (ρ := ρ) closeList c fun _ d =>
    c.trim.rest.head? = some Bracket.list.closing ∧ d = c.trim.next := by
  refine leaves_space ?_
  intro b? hc
  split
  · rintro _ _ ⟨⟩
    exact ⟨hc, rfl⟩
  · refine leaves_advance (leaves_space ?_)
    intro b? _
    split
    · exact leaves_flawNext _
    · exact leaves_flawNext _
  · exact leaves_flawNext _
  · exact leaves_flawNext _

theorem leaves_closeObject : Leaves (ρ := ρ) closeObject c fun _ d =>
    c.trim.rest.head? = some Bracket.object.closing ∧ d = c.trim.next := by
  refine leaves_space ?_
  intro b? hc
  split
  · rintro _ _ ⟨⟩
    exact ⟨hc, rfl⟩
  · exact leaves_flawNext _
  · exact leaves_flawNext _
  · exact leaves_flawNext _

theorem ReadsContainer.opening {close : Scan ρ Unit} {room : Nat} {inside : Nat → Scan ρ α}
    (hclose : ∀ c, Leaves close c fun _ d =>
      c.trim.rest.head? = some bracket.closing ∧ d = c.trim.next)
    (h : ∀ room, Fills bracket (inside room)) :
    ReadsContainer bracket (opening close room inside) := by
  intro c
  cases room with
  | zero => exact leaves_flawNext _
  | succ room =>
      refine leaves_advance (Leaves.closing (h room c.next) ?_)
      intro _ d hinside _ e he
      obtain ⟨hd, rfl⟩ := hclose d _ e he
      exact hinside.closed hd

theorem ReadsContainer.listOpening {room : Nat} {inside : Nat → Scan ρ α}
    (h : ∀ room, Fills .list (inside room)) : ReadsContainer .list (listOpening room inside) :=
  ReadsContainer.opening (fun _ => leaves_closeList) h

theorem ReadsContainer.objectOpening {room : Nat} {inside : Nat → Scan ρ α}
    (h : ∀ room, Fills .object (inside room)) : ReadsContainer .object (objectOpening room inside) :=
  ReadsContainer.opening (fun _ => leaves_closeObject) h

theorem Fills.then_still {k : α → Scan ρ β} (h : Fills bracket scan) (hk : ∀ a, Still (k a)) :
    Fills bracket (scan >>= k) :=
  fun c => (h c).then_still hk

theorem fills_misfit (m : Misfit) : Fills bracket (misfit m : Scan ρ α) := fun _ _ _ => nofun

theorem leaves_nextItem_first : Leaves (ρ := ρ) (nextItem true) c fun more d =>
    d = c.trim ∧ if more then ∃ b, c.trim.rest.head? = some b ∧ b ≠ Bracket.list.closing
      else c.trim.rest.head? = some Bracket.list.closing := by
  refine leaves_space ?_
  intro b? hc
  split
  · exact leaves_flawNext _
  · exact leaves_pure ⟨rfl, hc⟩
  · next b hne => exact leaves_pure ⟨rfl, b, hc, hne⟩

theorem leaves_nextItem : Leaves (ρ := ρ) (nextItem false) c fun more d =>
    if more then c.trim.rest.head? = some Byte.comma ∧ d = c.trim.next.trim else d = c.trim := by
  refine leaves_space ?_
  intro b? hc
  split
  · exact leaves_flawNext _
  · exact leaves_pure rfl
  · next b hne =>
      rw [if_neg Bool.false_ne_true]
      split
      · next hcomma =>
          subst hcomma
          refine leaves_advance (leaves_space ?_)
          intro b? _
          split
          · exact leaves_flawNext _
          · exact leaves_flawNext _
          · exact leaves_pure ⟨hc, rfl⟩
      · exact leaves_flawNext _

theorem leaves_itemsFrom {step : σ → Scan ρ σ} (hstep : ∀ s, ReadsValue (step s)) :
    ∀ (fuel : Nat) (s : σ) (c : Cursor),
      Leaves (itemsFrom step fuel false s) c fun _ d => Rest ρ .list c d
  | 0, _, _ => leaves_flawNext _
  | fuel + 1, s, c => by
      refine leaves_nextItem.bind ?_
      intro more e hmore
      cases more with
      | false => exact leaves_pure (Rest.here hmore)
      | true =>
          obtain ⟨hcomma, rfl⟩ := hmore
          refine (hstep s _).bind ?_
          intro s e hvalue s' d hrest
          exact Rest.more hcomma (takes_pure () _) hvalue.of_trim
            (leaves_itemsFrom hstep fuel s e s' d hrest)

theorem fills_items {step : σ → Scan ρ σ} (hstep : ∀ s, ReadsValue (step s)) (s : σ) :
    Fills .list (items step s) := by
  intro c
  have hloop : ∀ fuel, Leaves (itemsFrom step fuel true s) c fun _ d => Inside ρ .list c d := by
    intro fuel
    cases fuel with
    | zero => exact leaves_flawNext _
    | succ fuel =>
        refine leaves_nextItem_first.bind ?_
        intro more e hmore
        obtain ⟨rfl, hmore⟩ := hmore
        cases more with
        | false => exact leaves_pure (.empty hmore rfl)
        | true =>
            obtain ⟨b, hb, hne⟩ := hmore
            refine (hstep s _).bind ?_
            intro s e hvalue s' d hrest
            exact Inside.of_rest hb hne (takes_pure () _) hvalue
              (leaves_itemsFrom hstep fuel s e s' d hrest)
  exact hloop c.rest.length

theorem fills_collect (h : ReadsValue scan) : Fills .list (collect scan) :=
  (fills_items (fun _ => h.then_still fun _ => still_pure _) []).then_still fun _ => still_pure _

/-! ## Objects -/

variable (ρ) in
/-- From `c` to `d` a name can be passed, given the colon behind it. -/
def NamePassed (c d : Cursor) : Prop :=
  ∀ e, Takes (ρ := ρ) colon d () e → Takes (ρ := ρ) skipName c () e

theorem leaves_colon : Leaves (ρ := ρ) colon c fun _ d =>
    c.trim.rest.head? = some Byte.colon ∧ d = c.trim.next := by
  refine leaves_space ?_
  intro b? hc
  split
  · rintro _ _ ⟨⟩
    exact ⟨hc, rfl⟩
  · exact leaves_flawNext _
  · exact leaves_flawNext _

theorem leaves_openName : Leaves (ρ := ρ) openName c fun _ d =>
    c.rest.head? = some Byte.quote ∧ d = c.next := by
  refine leaves_peek ?_
  intro b? hc
  split
  · rintro _ _ ⟨⟩
    exact ⟨hc, rfl⟩
  · exact leaves_flawNext _

/-- A name, with the blanks in front of it passed before. -/
theorem leaves_name : Leaves (ρ := ρ) (do openName; return some (← stringBody)) c.trim fun name? d =>
    name?.isSome ∧ NamePassed ρ c d := by
  refine leaves_openName.bind ?_
  rintro _ _ ⟨hquote, rfl⟩
  refine (leaves_takes stringBody c.trim.next).bind ?_
  intro s d hs
  refine leaves_pure ⟨rfl, ?_⟩
  intro e he
  have hstring : Takes (ρ := ρ) skipStringBody c.trim.next () d := covers_stringBody _ s d hs
  obtain ⟨hcolon, rfl⟩ := leaves_colon () e he
  exact (takes_space hquote).bind ((takes_advance _).bind (hstring.bind
    ((takes_space hcolon).bind (takes_advance _))))

theorem NamePassed.of_trim (h : NamePassed ρ c d) : NamePassed ρ c.trim d := by
  intro e he
  have hname := h e he
  simp only [Takes, skipName, Bind.bind, EStateM.bind, space_trim] at hname ⊢
  exact hname

theorem leaves_nextName_first : Leaves (ρ := ρ) (nextName true) c fun name? d =>
    if name?.isSome then (∃ b, c.trim.rest.head? = some b ∧ b ≠ Bracket.object.closing) ∧
      NamePassed ρ c.trim d
    else d = c.trim ∧ c.trim.rest.head? = some Bracket.object.closing := by
  refine leaves_space ?_
  intro b? hc
  split
  · exact leaves_flawNext _
  · exact leaves_pure ⟨rfl, hc⟩
  · next b hne =>
      intro name? d h
      obtain ⟨hname, hpassed⟩ := leaves_name name? d h
      rw [if_pos hname]
      exact ⟨⟨b, hc, hne⟩, hpassed.of_trim⟩

theorem leaves_nextName : Leaves (ρ := ρ) (nextName false) c fun name? d =>
    if name?.isSome then c.trim.rest.head? = some Byte.comma ∧ NamePassed ρ c.trim.next d
    else d = c.trim := by
  refine leaves_space ?_
  intro b? hc
  split
  · exact leaves_flawNext _
  · exact leaves_pure rfl
  · next b hne =>
      rw [if_neg Bool.false_ne_true]
      split
      · next hcomma =>
          subst hcomma
          refine leaves_advance (leaves_space ?_)
          intro b? _
          split
          · exact leaves_flawNext _
          · exact leaves_flawNext _
          · intro name? d h
            obtain ⟨hname, hpassed⟩ := leaves_name name? d h
            rw [if_pos hname]
            exact ⟨hc, hpassed⟩
      · exact leaves_flawNext _

theorem leaves_membersFrom {step : σ → String → Scan ρ σ}
    (hstep : ∀ s name, ReadsMember (step s name)) :
    ∀ (fuel : Nat) (s : σ) (c : Cursor),
      Leaves (membersFrom step fuel false s) c fun _ d => Rest ρ .object c d
  | 0, _, _ => leaves_flawNext _
  | fuel + 1, s, c => by
      refine leaves_nextName.bind ?_
      intro name? e hname
      cases name? with
      | none => exact leaves_pure (Rest.here hname)
      | some name =>
          obtain ⟨hcomma, hname⟩ := hname
          refine (hstep s name e).bind ?_
          rintro s g ⟨f, hcolon, hvalue⟩ s' d hrest
          exact Rest.more hcomma (hname f hcolon) hvalue
            (leaves_membersFrom hstep fuel s g s' d hrest)

theorem fills_members {step : σ → String → Scan ρ σ} (hstep : ∀ s name, ReadsMember (step s name))
    (s : σ) : Fills .object (members step s) := by
  intro c
  have hloop : ∀ fuel, Leaves (membersFrom step fuel true s) c fun _ d => Inside ρ .object c d := by
    intro fuel
    cases fuel with
    | zero => exact leaves_flawNext _
    | succ fuel =>
        refine leaves_nextName_first.bind ?_
        intro name? e hname
        cases name? with
        | none => exact leaves_pure (.empty hname.2 hname.1)
        | some name =>
            obtain ⟨⟨b, hb, hne⟩, hname⟩ := hname
            refine (hstep s name e).bind ?_
            rintro s g ⟨f, hcolon, hvalue⟩ s' d hrest
            exact Inside.of_rest hb hne (hname f hcolon) hvalue
              (leaves_membersFrom hstep fuel s g s' d hrest)
  exact hloop c.rest.length

theorem ReadsValue.member (h : ReadsValue scan) : ReadsMember (member scan) := by
  intro c
  refine (leaves_takes colon c).bind ?_
  intro _ e hcolon a d ha
  exact ⟨e, hcolon, h e a d ha⟩

theorem ReadsMember.then_still {k : α → Scan ρ β} (h : ReadsMember scan) (hk : ∀ a, Still (k a)) :
    ReadsMember (scan >>= k) :=
  fun c => (h c).then_still hk

theorem readsMember_refuse (reason : ρ) : ReadsMember (refuse reason : Scan ρ α) := fun _ _ _ => nofun

/-- A check in front of a scan. -/
theorem readsMember_unless {p : Prop} [Decidable p] {reason : ρ} {k : Unit → Scan ρ α}
    (hk : ReadsMember (k ())) : ReadsMember (if p then refuse reason >>= k else k ()) := by
  split
  · exact fun _ _ _ => nofun
  · exact hk

/-! ## Values that are passed -/

section Skip

variable (inner outer : List Bracket)

/-- What is done with the brackets that are open does not depend on those below. -/
theorem follows_skipOpening (bracket : Bracket) :
    Follows (ρ := ρ) (fun r => (r.1, r.2 ++ outer)) (skipOpening bracket (inner ++ outer))
      (skipOpening bracket inner) := by
  cases bracket with
  | list =>
      refine Follows.after fun _ => Follows.after ?_
      intro b?
      split
      · exact follows_flawNext _
      · exact Follows.after fun _ => follows_pure (Upcoming.afterValue, inner)
      · exact follows_pure (Upcoming.value, Bracket.list :: inner)
  | object =>
      refine Follows.after fun _ => Follows.after ?_
      intro b?
      split
      · exact follows_flawNext _
      · exact Follows.after fun _ => follows_pure (Upcoming.afterValue, inner)
      · exact Follows.after fun _ => follows_pure (Upcoming.value, Bracket.object :: inner)

theorem follows_skipStart :
    Follows (ρ := ρ) (fun r => (r.1, r.2 ++ outer)) (skipStart (inner ++ outer)) (skipStart inner) := by
  have hpure := follows_pure (ρ := ρ) (f := fun r => (r.1, r.2 ++ outer)) (Upcoming.afterValue, inner)
  refine Follows.after ?_
  intro b?
  split
  · exact follows_flawNext _
  · exact Follows.after fun _ => hpure
  · exact Follows.after fun _ => hpure
  · exact Follows.after fun _ => hpure
  · exact Follows.after fun _ => Follows.after fun _ => hpure
  · exact Follows.after fun _ => Follows.after fun _ => hpure
  · exact follows_skipOpening inner outer .list
  · exact follows_skipOpening inner outer .object
  · split
    · exact Follows.after fun _ => hpure
    · exact follows_flawNext _

theorem follows_skipSeparator (bracket : Bracket) :
    Follows (ρ := ρ) (fun r => (r.1, r.2 ++ outer)) (skipSeparator bracket (inner ++ outer))
      (skipSeparator bracket inner) := by
  cases bracket with
  | list =>
      refine Follows.after ?_
      intro b?
      split
      · exact follows_flawNext _
      · exact Follows.after fun _ => follows_pure (Upcoming.value, Bracket.list :: inner)
      · exact Follows.after fun _ => follows_pure (Upcoming.afterValue, inner)
      · exact follows_flawNext _
  | object =>
      refine Follows.after ?_
      intro b?
      split
      · exact follows_flawNext _
      · exact Follows.after fun _ => Follows.after fun _ =>
          follows_pure (Upcoming.value, Bracket.object :: inner)
      · exact Follows.after fun _ => follows_pure (Upcoming.afterValue, inner)
      · exact follows_flawNext _

end Skip

theorem Follows.takes {f : α → β} {scan' : Scan ρ β} {a : α} (h : Follows f scan' scan)
    (ha : Takes scan c a d) : Takes scan' c (f a) d := by
  rw [Takes] at ha ⊢
  rw [h c, ha]
  rfl

/-- What can be passed with the brackets `inner` open can be passed with more of them open around it. -/
theorem reaches_of_skipFrom (outer : List Bracket) :
    ∀ {fuel : Nat} {upcoming : Upcoming} {inner : List Bracket} {c : Cursor},
      Takes (ρ := ρ) (skipFrom fuel upcoming inner) c () d →
        Reaches (ρ := ρ) (skipFrom · upcoming (inner ++ outer)) c (skipFrom · .afterValue outer) d
  | fuel, .afterValue, [], c, h => by
      rw [skipFrom] at h
      cases h
      exact Reaches.refl _ _
  | fuel + 1, .value, inner, c, h => by
      obtain ⟨⟨upcoming, inner'⟩, e, hstart, hrest⟩ := exists_of_bind_ok h
      exact (reaches_start ((follows_skipStart inner outer).takes hstart)).trans
        (reaches_of_skipFrom outer hrest)
  | fuel + 1, .afterValue, bracket :: inner, c, h => by
      obtain ⟨⟨upcoming, inner'⟩, e, hseparator, hrest⟩ := exists_of_bind_ok h
      exact (reaches_separator ((follows_skipSeparator inner outer bracket).takes hseparator)).trans
        (reaches_of_skipFrom outer hrest)

theorem readsValue_skip : ReadsValue (ρ := ρ) skip := by
  intro c _ d h outer
  obtain ⟨⟨upcoming, inner⟩, e, hstart, hrest⟩ := exists_of_bind_ok h
  exact ⟨_, _, e, (follows_skipStart [] outer).takes hstart, reaches_of_skipFrom outer hrest⟩

/-! ## Protocol values -/

open Value

theorem readsValue_scanWith {list object : Scan ρ Value} (hlist : ReadsContainer .list list)
    (hobject : ReadsContainer .object object) : ReadsValue (scanWith list object) :=
  ReadsValue.located (ReadsValue.of_start (fun _ => still_pure _) hlist hobject)

theorem readsMember_scanMember {value : Scan ρ Value} (h : ReadsValue value)
    (members : List (String × Value)) (name : String) : ReadsMember (scanMember value members name) := by
  refine h.member.then_still ?_
  intro v
  split
  · exact still_misfit _
  · exact still_pure _

theorem readsValue_scan : ∀ room, ReadsValue (ρ := ρ) (Value.scan room)
  | 0 => readsValue_scanWith (readsContainer_flawNext _) (readsContainer_flawNext _)
  | room + 1 => by
      have hmembers : Fills .object (members (scanMember (Value.scan (ρ := ρ) room)) []) :=
        fills_members (readsMember_scanMember (readsValue_scan room)) []
      refine readsValue_scanWith ?_ ?_
      · exact ReadsContainer.listOpening fun _ =>
          (fills_collect (readsValue_scan room)).then_still fun _ => still_pure _
      · exact ReadsContainer.objectOpening fun _ => hmembers.then_still fun _ => still_pure _

/-! ## Whole texts -/

theorem Passed.skip (h : Passed ρ c d) : Takes (ρ := ρ) skip c () d := by
  obtain ⟨fuel, -, hskip⟩ := (h.reaches []).exists_fuel (Nat.le_succ c.rest.length)
  rw [skipFrom] at hskip
  exact hskip

/-- A text that is read as a value is one value, with nothing but blanks around it. -/
theorem ReadsValue.run {bytes : List UInt8} {a : α} (h : ReadsValue scan)
    (hrun : run scan bytes = .ok a) : run (skip : Scan ρ Unit) bytes = .ok () := by
  obtain ⟨c, d, hscan, hspace⟩ := exists_of_run_ok hrun
  exact run_of_ok (h _ a c hscan).skip hspace

end OData.Json.Scan
