/-
# `OData.Proofs.MediaType.Parameters` — parameters as a map, and as a set

Parameters are set one after the other, and two lists of them are compared without regard to their order.
What one setting does is said once (`SetIn`), and what a whole history of settings comes to is an
invariant that each of them keeps (`LastWins`):

| | |
| :-- | :-- |
| the names | `firstNames`: in the order and the spelling in which they were first given |
| the values | `SaidLast`: what was given last for a name, in whatever case |

`sameParameters` counts both lists and looks for the parameters of the first in the second.  That this
is symmetric rests on the names of the first list being distinct: parameters with different names are
found in different places, so that as many as there are in all leave no place out (`exists_matched`).
-/
import OData.Proofs.MediaType.Spelling

namespace OData

open Text

variable {name value query : String} {p : String × String} {ps ps' qs given : List (String × String)}

/-! ## Setting one parameter -/

/-- `ps'` is `ps` with `value` for `name`: in the place of the first parameter of this name and in its
spelling, or at the end if there is none. -/
inductive SetIn (name value : String) : (ps ps' : List (String × String)) → Prop
  | known {spelled old : String} {before after : List (String × String)}
      (hbefore : ∀ p ∈ before, sameName p.1 name = false) (hsame : sameName spelled name = true) :
      SetIn name value (before ++ (spelled, old) :: after) (before ++ (spelled, value) :: after)
  | fresh {ps : List (String × String)} (hfresh : ∀ p ∈ ps, sameName p.1 name = false) :
      SetIn name value ps (ps ++ [(name, value)])

theorem SetIn.cons (h : SetIn name value ps ps') (hp : sameName p.1 name = false) :
    SetIn name value (p :: ps) (p :: ps') := by
  cases h with
  | known hbefore hsame => exact .known (List.forall_mem_cons.2 ⟨hp, hbefore⟩) hsame
  | fresh hfresh => exact .fresh (List.forall_mem_cons.2 ⟨hp, hfresh⟩)

theorem setIn_insertParameter (name value : String) (ps : List (String × String)) :
    SetIn name value ps (insertParameter name value ps) := by
  induction ps with
  | nil => exact .fresh (List.forall_mem_nil _)
  | cons p ps ih =>
      rw [insertParameter]
      split
      · next hsame => exact .known (List.forall_mem_nil _) hsame
      · next hother => exact ih.cons (Bool.eq_false_iff.2 hother)

/-- No name is lost or spelled anew, and one that is new comes last. -/
theorem SetIn.names (h : SetIn name value ps ps') :
    ps'.map (·.1) =
      if (ps.map (·.1)).any (sameName · name) then ps.map (·.1) else ps.map (·.1) ++ [name] := by
  cases h with
  | known hbefore hsame => simp [hsame]
  | fresh hfresh =>
      have hnone : (ps.map (·.1)).any (sameName · name) = false := by simpa using hfresh
      rw [hnone, List.map_append]
      rfl

/-- With distinct names, every parameter is found by its name. -/
theorem findParameter?_eq_some_iff (h : DistinctNames ps) :
    findParameter? name ps = some value ↔ ∃ p ∈ ps, sameName p.1 name = true ∧ p.2 = value := by
  constructor
  · intro hfound
    obtain ⟨p, hp, hvalue⟩ := Option.map_eq_some_iff.1 hfound
    have hsame : sameName p.1 name = true := by
      have hkept := List.find?_some hp
      exact hkept
    exact ⟨p, List.mem_of_find?_eq_some hp, hsame, hvalue⟩
  · rintro ⟨p, hp, hsame, rfl⟩
    induction ps with
    | nil => cases hp
    | cons first ps ih =>
        obtain ⟨hfirst, hrest⟩ := List.pairwise_cons.1 h
        rw [findParameter?, List.find?_cons]
        rcases List.mem_cons.1 hp with rfl | hp
        · rw [hsame]
          rfl
        · have hother : sameName first.1 name = false := by
            rw [sameName_comm, ← sameName_congr_left hsame, sameName_comm]
            exact hfirst p hp
          rw [hother]
          exact ih hrest hp

/-! ## What a history of settings comes to -/

/-- The names that are given, in order and each once, spelled as they were the first time. -/
def firstNames (given : List (String × String)) : List String :=
  (given.map (·.1)).eraseDupsBy fun name earlier => sameName earlier name

/-- Of the pairs with this name, in whatever case, the last one has the value `value`. -/
def SaidLast (given : List (String × String)) (name value : String) : Prop :=
  ∃ before spelled after, given = before ++ (spelled, value) :: after ∧
    sameName spelled name = true ∧ ∀ p ∈ after, sameName p.1 name = false

theorem eraseDupsBy_loop_concat {α : Type} (same : α → α → Bool) (as : List α) (a : α) (kept : List α) :
    List.eraseDupsBy.loop same (as ++ [a]) kept =
      if (List.eraseDupsBy.loop same as kept).any (same a)
      then List.eraseDupsBy.loop same as kept
      else List.eraseDupsBy.loop same as kept ++ [a] := by
  induction as generalizing kept with
  | nil =>
      simp only [List.nil_append, List.eraseDupsBy.loop, List.any_reverse]
      cases kept.any (same a) <;> simp
  | cons first as ih =>
      rw [List.cons_append, List.eraseDupsBy.loop, List.eraseDupsBy.loop]
      cases kept.any (same first) with
      | true => exact ih kept
      | false => exact ih (first :: kept)

theorem firstNames_concat (given : List (String × String)) (p : String × String) :
    firstNames (given ++ [p]) =
      if (firstNames given).any (sameName · p.1) then firstNames given
      else firstNames given ++ [p.1] := by
  rw [firstNames, List.map_append]
  exact eraseDupsBy_loop_concat _ _ _ _

example : firstNames [("q", "1"), ("level", "2"), ("Q", "3")] = ["q", "level"] := rfl

/-- The pair that is given last decides for its own name, and for no other. -/
theorem saidLast_concat_iff : SaidLast (given ++ [p]) name value ↔
    (sameName p.1 name = true ∧ p.2 = value) ∨
      (sameName p.1 name = false ∧ SaidLast given name value) := by
  constructor
  · rintro ⟨before, spelled, after, hgiven, hsame, hafter⟩
    rcases List.eq_nil_or_concat' after with rfl | ⟨after, q, rfl⟩
    · obtain ⟨-, hlast⟩ := List.append_inj' hgiven rfl
      obtain rfl := List.singleton_inj.1 hlast
      exact .inl ⟨hsame, rfl⟩
    · rw [← List.cons_append, ← List.append_assoc] at hgiven
      obtain ⟨hfront, hlast⟩ := List.append_inj' hgiven rfl
      obtain rfl := List.singleton_inj.1 hlast
      rw [List.forall_mem_append, List.forall_mem_singleton] at hafter
      exact .inr ⟨hafter.2, before, spelled, after, hfront, hsame, hafter.1⟩
  · rintro (⟨hsame, rfl⟩ | ⟨hother, before, spelled, after, rfl, hsame, hafter⟩)
    · exact ⟨given, p.1, [], rfl, hsame, List.forall_mem_nil _⟩
    · refine ⟨before, spelled, after ++ [p], by simp, hsame, ?_⟩
      exact List.forall_mem_append.2 ⟨hafter, List.forall_mem_singleton.2 hother⟩

/-! ## Parameters that agree -/

/-- The names agree but for case, and the values are the same. -/
def SameParameter (p q : String × String) : Prop := sameName p.1 q.1 = true ∧ p.2 = q.2

/-- The second list can be put in an order in which its parameters agree with those of the first, one by
one. -/
def Matched (ps qs : List (String × String)) : Prop :=
  ∃ qs', qs'.Perm qs ∧ List.Forall₂ SameParameter ps qs'

/-- A parameter without what is ignored of it. -/
def folded (p : String × String) : List Char × String := (p.1.toList.map Char.toLower, p.2)

theorem sameParameter_iff {p q : String × String} : SameParameter p q ↔ folded p = folded q := by
  rw [SameParameter, sameName_iff, folded, folded, Prod.mk.injEq]

theorem forall₂_sameParameter_iff :
    List.Forall₂ SameParameter ps qs ↔ ps.map folded = qs.map folded := by
  induction ps generalizing qs with
  | nil => cases qs <;> simp
  | cons p ps ih => cases qs <;> simp [sameParameter_iff, ih]

theorem matched_iff_perm : Matched ps qs ↔ (ps.map folded).Perm (qs.map folded) := by
  constructor
  · rintro ⟨qs', hperm, hsame⟩
    rw [forall₂_sameParameter_iff.1 hsame]
    exact hperm.map folded
  · intro hperm
    have hfolded : List.Forall₂ (fun f q => f = folded q) (qs.map folded) qs :=
      List.forall₂_map_left_iff.2 (List.forall₂_same.2 fun _ _ => rfl)
    obtain ⟨qs', hsame, hqs'⟩ := List.perm_comp_forall₂ hperm hfolded
    exact ⟨qs', hqs', (List.forall₂_map_left_iff.1 hsame).imp fun _ _ => sameParameter_iff.2⟩

/-- Parameters with different names that are all found among as many are all there are. -/
theorem exists_matched (hps : DistinctNames ps) (hlength : ps.length = qs.length)
    (h : ∀ p ∈ ps, ∃ q ∈ qs, SameParameter p q) : Matched ps qs := by
  induction ps generalizing qs with
  | nil =>
      obtain rfl := List.eq_nil_of_length_eq_zero hlength.symm
      exact ⟨[], .nil, .nil⟩
  | cons p ps ih =>
      obtain ⟨hp, hrest⟩ := List.pairwise_cons.1 hps
      rw [List.forall_mem_cons] at h
      obtain ⟨⟨q, hq, hpq⟩, h⟩ := h
      have hperm : qs.Perm (q :: qs.erase q) := List.perm_cons_erase hq
      have hless : ps.length = (qs.erase q).length :=
        Nat.succ.inj (hlength.trans hperm.length_eq)
      -- The place of `q` is taken by `p`, whose name is not that of any parameter left over.
      have hleft : ∀ p' ∈ ps, ∃ q' ∈ qs.erase q, SameParameter p' q' := by
        intro p' hp'
        obtain ⟨q', hq', hpq'⟩ := h p' hp'
        refine ⟨q', (List.mem_erase_of_ne ?_).2 hq', hpq'⟩
        rintro rfl
        have hsame : sameName p.1 p'.1 = true := sameName_trans hpq.1 (sameName_comm _ _ ▸ hpq'.1)
        rw [hp p' hp'] at hsame
        cases hsame
      obtain ⟨qs', hqs', hmatched⟩ := ih hrest hless hleft
      exact ⟨q :: qs', (hqs'.cons q).trans hperm.symm, .cons hpq hmatched⟩

namespace MediaType

variable {m : MediaType} {typeName subtype : String}

theorem get?_eq_some_iff :
    m.get? name = some value ↔ ∃ p ∈ m.parameters, sameName p.1 name = true ∧ p.2 = value :=
  findParameter?_eq_some_iff m.distinct

/-! ## Histories -/

/-- The media type with `given` set one after the other. -/
def insertAll (m : MediaType) (given : List (String × String)) : MediaType :=
  given.foldl (fun m p => m.insert p.1 p.2) m

/-- The type, the subtype, and the parameters that `given` comes to if what was given last for a name
counts, in the place and the spelling in which the name was given first. -/
structure LastWins (typeName subtype : String) (given : List (String × String)) (m : MediaType) :
    Prop where
  typeName_eq : m.typeName = typeName
  subtype_eq : m.subtype = subtype
  distinct : DistinctNames m.parameters
  names : m.parameters.map (·.1) = firstNames given
  values : ∀ p ∈ m.parameters, SaidLast given p.1 p.2
  found : ∀ query value, m.get? query = some value ↔ SaidLast given query value
  missing : ∀ query, m.get? query = none ↔ ∀ p ∈ given, sameName p.1 query = false

theorem lastWins_new (typeName subtype : String) :
    LastWins typeName subtype [] (new typeName subtype) := by
  refine ⟨rfl, rfl, .nil, rfl, List.forall_mem_nil _, ?_, ?_⟩
  · intro query value
    refine iff_of_false nofun ?_
    rintro ⟨before, spelled, after, hgiven, -⟩
    cases before <;> cases hgiven
  · exact fun query => iff_of_true rfl (List.forall_mem_nil _)

theorem LastWins.insert (h : LastWins typeName subtype given m) (p : String × String) :
    LastWins typeName subtype (given ++ [p]) (m.insert p.1 p.2) := by
  have hfound : ∀ query value, (m.insert p.1 p.2).get? query = some value ↔
      SaidLast (given ++ [p]) query value := by
    intro query value
    rw [get?_insert, saidLast_concat_iff]
    split
    · next hsame => simp [hsame]
    · next hother => simp [hother, h.found]
  refine ⟨h.typeName_eq, h.subtype_eq, (m.insert p.1 p.2).distinct, ?_, ?_, hfound, ?_⟩
  · rw [firstNames_concat, ← h.names]
    exact (setIn_insertParameter p.1 p.2 m.parameters).names
  · intro q hq
    exact (hfound q.1 q.2).1 (get?_eq_some_iff.2 ⟨q, hq, sameName_refl q.1, rfl⟩)
  · intro query
    rw [get?_insert, List.forall_mem_append, List.forall_mem_singleton]
    split
    · next hsame => simp [hsame]
    · next hother => rw [h.missing, and_iff_left (Bool.eq_false_iff.2 hother)]

theorem LastWins.insertAll (h : LastWins typeName subtype given m)
    (further : List (String × String)) :
    LastWins typeName subtype (given ++ further) (m.insertAll further) := by
  induction further generalizing given m with
  | nil => rwa [List.append_nil]
  | cons p further ih =>
      rw [List.append_cons]
      exact ih (h.insert p)

/-- However parameters are set, all at once and then one by one, they are a map in which the last value
given for a name counts.  Setting one leaves the types and all other parameters alone. -/
theorem last_given_wins (typeName subtype : String) (first further : List (String × String)) :
    LastWins typeName subtype (first ++ further)
      ((ofList typeName subtype first).insertAll further) ∧
    ∀ (m : MediaType) (name value : String),
      (m.insert name value).typeName = m.typeName ∧ (m.insert name value).subtype = m.subtype ∧
        SetIn name value m.parameters (m.insert name value).parameters := by
  have hfirst : LastWins typeName subtype first (ofList typeName subtype first) :=
    (lastWins_new typeName subtype).insertAll first
  refine ⟨hfirst.insertAll further, ?_⟩
  intro m name value
  exact ⟨rfl, rfl, setIn_insertParameter name value m.parameters⟩

/-- A name that comes back in capitals keeps its place and its spelling. -/
theorem last_given_wins_in_capitals :
    let m := (ofList "text" "x" [("q", "1"), ("level", "2")]).insertAll [("Q", "3")]
    m.parameters = [("q", "3"), ("level", "2")] ∧
      SaidLast [("q", "1"), ("level", "2"), ("Q", "3")] "q" "3" ∧ m.get? "LEVEL" = some "2" ∧
      m.get? "x" = none := by
  intro m
  have hm := (last_given_wins "text" "x" [("q", "1"), ("level", "2")] [("Q", "3")]).1
  have hparameters : m.parameters = [("q", "3"), ("level", "2")] := by decide
  have hq : ("q", "3") ∈ m.parameters := by
    rw [hparameters]
    exact List.mem_cons_self
  refine ⟨hparameters, hm.values ("q", "3") hq, (hm.found "LEVEL" "2").2 ?_,
    (hm.missing "x").2 (by decide)⟩
  exact ⟨[("q", "1")], "level", [("Q", "3")], rfl, by decide, by decide⟩

/-! ## Comparing without order -/

theorem sameParameters_iff {a b : MediaType} :
    a.sameParameters b = true ↔ Matched a.parameters b.parameters := by
  simp only [sameParameters, Bool.and_eq_true, beq_iff_eq, List.all_eq_true, get?_eq_some_iff]
  constructor
  · rintro ⟨hlength, hfound⟩
    refine exists_matched a.distinct hlength fun p hp => ?_
    obtain ⟨q, hq, hname, hvalue⟩ := hfound p hp
    exact ⟨q, hq, sameName_comm q.1 p.1 ▸ hname, hvalue.symm⟩
  · intro hmatched
    have hperm := matched_iff_perm.1 hmatched
    refine ⟨by simpa using hperm.length_eq, fun p hp => ?_⟩
    obtain ⟨q, hq, hfolded⟩ := List.mem_map.1 (hperm.mem_iff.1 (List.mem_map_of_mem hp))
    exact ⟨q, hq, sameParameter_iff.2 hfolded⟩

/-- Two media types have the same parameters exactly if those of the second can be put in an order in
which they agree with those of the first, one by one; so that it does not matter which of the two is
the one that is looked through. -/
theorem sameParameters_regardless_of_order :
    (∀ a b : MediaType, a.sameParameters b = true ↔
      ∃ ps : List (String × String), ps.Perm b.parameters ∧
        List.Forall₂ (fun p q => sameName p.1 q.1 = true ∧ p.2 = q.2) a.parameters ps) ∧
    Equivalence fun a b : MediaType => a.sameParameters b = true := by
  refine ⟨fun a b => sameParameters_iff, ?_, ?_, ?_⟩
  · intro a
    rw [sameParameters_iff, matched_iff_perm]
  · intro a b hab
    rw [sameParameters_iff, matched_iff_perm] at hab ⊢
    exact hab.symm
  · intro a b c hab hbc
    rw [sameParameters_iff, matched_iff_perm] at hab hbc ⊢
    exact hab.trans hbc

end MediaType

end OData
