/-
# `OData.Proofs.Annotation.Specificity` — which pattern of a filter decides

A filter looks at its patterns one after the other and keeps a running verdict.  What it comes to
is a matter of which patterns there are and not of where they stand (`accepts_by_specificity`):

| | |
| :-- | :-- |
| `PatternTarget.Covers` | which names a pattern is about |
| `PatternTarget.LessSpecific` | which of two patterns yields to the other |
| `AnnotationFilter.accepts` | the name passes if an including pattern is about it to which every excluding one about it yields |

The first two say nothing of lengths in bytes or of ranks.  Two namespaces with the same name in
them are beginnings of one text, so that the one with more characters has more bytes too.
-/
import OData.Annotation.Filter
import OData.Proofs.Text.Split

namespace OData

open Text

/-! ## The order of specificity -/

namespace Specificity

variable {a b c : Specificity}

theorem lt_iff : a.lt b = true ↔
    a.rank.1 < b.rank.1 ∨ a.rank.1 = b.rank.1 ∧ a.rank.2 < b.rank.2 := by
  simp [lt]

theorem lt_irrefl (a : Specificity) : a.lt a = false := by
  rw [Bool.eq_false_iff, ne_eq, lt_iff]
  omega

theorem lt_trans (hab : a.lt b = true) (hbc : b.lt c = true) : a.lt c = true := by
  rw [lt_iff] at *
  omega

theorem lt_asymm (h : a.lt b = true) : b.lt a = false := by
  rw [Bool.eq_false_iff]
  intro hba
  have hloop := lt_trans h hba
  rw [lt_irrefl] at hloop
  cases hloop

theorem eq_of_rank_eq (h : a.rank = b.rank) : a = b := by
  cases a <;> cases b <;> simp_all [rank]

theorem lt_of_not_lt (h : ¬ a.lt b = true) (hne : a ≠ b) : b.lt a = true := by
  rw [lt_iff] at *
  have hrank : ¬ (a.rank.1 = b.rank.1 ∧ a.rank.2 = b.rank.2) :=
    fun heq => hne (eq_of_rank_eq (Prod.ext heq.1 heq.2))
  omega

end Specificity

/-! ## Patterns and names -/

namespace PatternTarget

/-- The names that a pattern is about. -/
def Covers : PatternTarget → String → Prop
  | all, _ => True
  | under space, name => ∃ rest, name = space ++ "." ++ rest
  | exact only, name => name = only

/-- The first pattern yields to the second. -/
def LessSpecific : PatternTarget → PatternTarget → Prop
  | all, under _ => True
  | all, exact _ => True
  | under space, under space' => space.length < space'.length
  | under _, exact _ => True
  | _, _ => False

/-- How specific a pattern is, whatever the name that it is about. -/
def specificity : PatternTarget → Specificity
  | all => .any
  | under space => .within (1 + space.utf8ByteSize)
  | exact _ => .exact

variable {name : String} {a b : PatternTarget}

/-- Of two beginnings of a text the longer one has more bytes. -/
theorem utf8ByteSize_lt_of_beginnings {s t : String} {cs : List Char} (hs : s.toList <+: cs)
    (ht : t.toList <+: cs) (h : s.length < t.length) : s.utf8ByteSize < t.utf8ByteSize := by
  have hlength : s.toList.length ≤ t.toList.length := by
    rw [String.length_toList, String.length_toList]
    exact Nat.le_of_lt h
  obtain ⟨more, hmore⟩ := List.prefix_of_prefix_length_le hs ht hlength
  have hst : t = s ++ String.ofList more := by
    rw [← String.ofList_toList (s := t), ← hmore, String.ofList_append, String.ofList_toList]
  have hpos : (String.ofList more).utf8ByteSize ≠ 0 := by
    intro hzero
    rw [hst, String.utf8ByteSize_eq_zero_iff.1 hzero, String.append_empty] at h
    exact Nat.lt_irrefl _ h
  rw [hst, String.utf8ByteSize_append]
  omega

@[inherit_doc utf8ByteSize_lt_of_beginnings]
theorem utf8ByteSize_lt_iff_of_beginnings {s t : String} {cs : List Char} (hs : s.toList <+: cs)
    (ht : t.toList <+: cs) : s.utf8ByteSize < t.utf8ByteSize ↔ s.length < t.length := by
  constructor
  · intro hbytes
    rcases Nat.lt_trichotomy s.length t.length with hlt | heq | hgt
    · exact hlt
    · have hlength : s.toList.length = t.toList.length := by
        rw [String.length_toList, String.length_toList, heq]
      have hsame := (List.prefix_of_prefix_length_le hs ht hlength.le).eq_of_length hlength
      rw [String.toList_inj.1 hsame] at hbytes
      exact absurd hbytes (Nat.lt_irrefl _)
    · exact absurd (utf8ByteSize_lt_of_beginnings ht hs hgt) (Nat.lt_asymm hbytes)
  · exact utf8ByteSize_lt_of_beginnings hs ht

theorem prefix_of_covers_under {space : String} (h : (under space).Covers name) :
    space.toList <+: name.toList := by
  obtain ⟨rest, rfl⟩ := h
  rw [String.append_assoc, String.toList_append]
  exact List.prefix_append ..

/-- On patterns about the same name the two orders agree. -/
theorem specificity_lt_iff (ha : a.Covers name) (hb : b.Covers name) :
    a.specificity.lt b.specificity = true ↔ a.LessSpecific b := by
  rw [Specificity.lt_iff]
  cases a with
  | under space =>
      cases b with
      | under space' =>
          have hbytes := utf8ByteSize_lt_iff_of_beginnings (prefix_of_covers_under ha)
            (prefix_of_covers_under hb)
          simpa [specificity, Specificity.rank, LessSpecific] using hbytes
      | _ => simp [specificity, Specificity.rank, LessSpecific]
  | _ => cases b <;> simp [specificity, Specificity.rank, LessSpecific]

end PatternTarget

namespace AnnotationPattern

variable {p : AnnotationPattern} {name : String} {s : Specificity}

theorem covers_under_iff {space : String} : (PatternTarget.under space).Covers name ↔
    ∃ rest, dropBeginning? space.toList name.toList = some ('.' :: rest) := by
  constructor
  · rintro ⟨rest, rfl⟩
    refine ⟨rest.toList, dropBeginning?_eq_some_iff.2 ?_⟩
    simp
  · rintro ⟨rest, h⟩
    refine ⟨String.ofList rest, String.toList_inj.1 ?_⟩
    rw [dropBeginning?_eq_some_iff] at h
    simp [h]

/-- A pattern has its specificity on the names that it is about, and on no others. -/
theorem specificity?_eq_some_iff :
    p.specificity? name = some s ↔ p.target.Covers name ∧ p.target.specificity = s := by
  rw [specificity?]
  split
  · next htarget => simp [htarget, PatternTarget.Covers, PatternTarget.specificity]
  · next space htarget =>
      rw [htarget, covers_under_iff]
      split
      · next rest hrest => simp [hrest, PatternTarget.specificity]
      · next hother => simpa using fun rest hrest => absurd hrest (hother rest)
  · next only htarget =>
      simp only [htarget, PatternTarget.Covers, PatternTarget.specificity]
      split
      · next heq => simp [heq]
      · next hne => simpa using fun heq => absurd heq.symm hne

theorem specificity?_eq_none_iff : p.specificity? name = none ↔ ¬ p.target.Covers name := by
  constructor
  · intro hnone hcovers
    rw [specificity?_eq_some_iff.2 ⟨hcovers, rfl⟩] at hnone
    cases hnone
  · intro hcovers
    cases hs : p.specificity? name with
    | none => rfl
    | some s => exact absurd (specificity?_eq_some_iff.1 hs).1 hcovers

end AnnotationPattern

/-! ## The running verdict -/

namespace AnnotationFilter

variable {name : String} {ps : List AnnotationPattern} {p : AnnotationPattern} {s : Specificity}
  {verdict : Verdict}

/-- Among the patterns there is an excluding one about the name that is as specific as `s`. -/
def Excluded (name : String) (ps : List AnnotationPattern) (s : Specificity) : Prop :=
  ∃ p ∈ ps, p.exclude = true ∧ p.target.Covers name ∧ p.target.specificity = s

theorem excluded_snoc_iff : Excluded name (ps ++ [p]) s ↔ Excluded name ps s ∨
    p.exclude = true ∧ p.target.Covers name ∧ p.target.specificity = s := by
  simp only [Excluded, List.mem_append, List.mem_singleton, or_and_right, exists_or, exists_eq_left]

/-- What the verdict says of the patterns that have been looked at. -/
inductive Decided (name : String) (ps : List AnnotationPattern) : Verdict → Prop
  | silent (h : ∀ p ∈ ps, ¬ p.target.Covers name) : Decided name ps Option.none
  | spoken {best : Specificity} {exclude : Bool}
      (reached : ∃ p ∈ ps, p.target.Covers name ∧ p.target.specificity = best)
      (greatest : ∀ p ∈ ps, p.target.Covers name → best.lt p.target.specificity = false)
      (excludes : exclude = true ↔ Excluded name ps best) :
      Decided name ps (some (best, exclude))

/-- A pattern about other names leaves the verdict as it is. -/
theorem Decided.other (h : Decided name ps verdict) (hp : ¬ p.target.Covers name) :
    Decided name (ps ++ [p]) verdict := by
  cases h with
  | silent h => exact .silent (List.forall_mem_append.2 ⟨h, List.forall_mem_singleton.2 hp⟩)
  | spoken reached greatest excludes =>
      obtain ⟨q, hq, hreached⟩ := reached
      refine .spoken ⟨q, List.mem_append_left _ hq, hreached⟩
        (List.forall_mem_append.2 ⟨greatest, ?_⟩) ?_
      · exact List.forall_mem_singleton.2 fun hcovers => absurd hcovers hp
      · rw [excludes, excluded_snoc_iff]
        exact (or_iff_left fun hexcluded => hp hexcluded.2.1).symm

/-- A pattern that is more specific than all before it decides alone. -/
theorem Decided.alone (hcovers : p.target.Covers name)
    (hbefore : ∀ q ∈ ps, q.target.Covers name →
      q.target.specificity.lt p.target.specificity = true) :
    Decided name (ps ++ [p]) (some (p.target.specificity, p.exclude)) := by
  refine .spoken ⟨p, List.mem_append_right _ List.mem_cons_self, hcovers, rfl⟩
    (List.forall_mem_append.2 ⟨?_, ?_⟩) ?_
  · exact fun q hq hq' => Specificity.lt_asymm (hbefore q hq hq')
  · exact List.forall_mem_singleton.2 fun _ => Specificity.lt_irrefl _
  · rw [excluded_snoc_iff]
    constructor
    · exact fun hexclude => .inr ⟨hexclude, hcovers, rfl⟩
    · rintro (⟨q, hq, -, hq', hsame⟩ | hexcluded)
      · have hloop := hbefore q hq hq'
        rw [hsame, Specificity.lt_irrefl] at hloop
        cases hloop
      · exact hexcluded.1

section Spoken

variable {best : Specificity} {exclude : Bool} (h : Decided name ps (some (best, exclude)))
include h

/-- A pattern that is less specific than what has been reached leaves the verdict as it is. -/
theorem Decided.weaker (hless : p.target.specificity.lt best = true) :
    Decided name (ps ++ [p]) (some (best, exclude)) := by
  cases h with
  | spoken reached greatest excludes =>
      obtain ⟨q, hq, hreached⟩ := reached
      refine .spoken ⟨q, List.mem_append_left _ hq, hreached⟩
        (List.forall_mem_append.2 ⟨greatest, ?_⟩) ?_
      · exact List.forall_mem_singleton.2 fun _ => Specificity.lt_asymm hless
      · rw [excludes, excluded_snoc_iff]
        refine (or_iff_left ?_).symm
        rintro ⟨-, -, hsame⟩
        rw [hsame, Specificity.lt_irrefl] at hless
        cases hless

/-- A pattern that is as specific as what has been reached has its say along with it. -/
theorem Decided.level (hcovers : p.target.Covers name) (hsame : p.target.specificity = best) :
    Decided name (ps ++ [p]) (some (best, exclude || p.exclude)) := by
  cases h with
  | spoken reached greatest excludes =>
      obtain ⟨q, hq, hreached⟩ := reached
      refine .spoken ⟨q, List.mem_append_left _ hq, hreached⟩
        (List.forall_mem_append.2 ⟨greatest, ?_⟩) ?_
      · exact List.forall_mem_singleton.2 fun _ => hsame ▸ Specificity.lt_irrefl _
      · rw [Bool.or_eq_true, excludes, excluded_snoc_iff]
        exact or_congr Iff.rfl ⟨fun hexclude => ⟨hexclude, hcovers, hsame⟩, And.left⟩

/-- A pattern that is more specific than what has been reached decides alone. -/
theorem Decided.stronger (hcovers : p.target.Covers name)
    (hmore : best.lt p.target.specificity = true) :
    Decided name (ps ++ [p]) (some (p.target.specificity, p.exclude)) := by
  cases h with
  | spoken reached greatest excludes =>
      refine .alone hcovers fun q hq hq' => ?_
      by_cases hsame : q.target.specificity = best
      · rwa [hsame]
      · have hless : q.target.specificity.lt best = true :=
          Specificity.lt_of_not_lt (Bool.eq_false_iff.1 (greatest q hq hq')) (Ne.symm hsame)
        exact Specificity.lt_trans hless hmore

end Spoken

/-- The verdict with one more pattern looked at is the verdict on one pattern more. -/
theorem Decided.consider (h : Decided name ps verdict) :
    Decided name (ps ++ [p]) (consider name verdict p) := by
  cases hs : p.specificity? name with
  | none =>
      have hsame : AnnotationFilter.consider name verdict p = verdict := by
        simp only [AnnotationFilter.consider, hs]
      rw [hsame]
      exact h.other (AnnotationPattern.specificity?_eq_none_iff.1 hs)
  | some s =>
      obtain ⟨hcovers, rfl⟩ := AnnotationPattern.specificity?_eq_some_iff.1 hs
      simp only [AnnotationFilter.consider, hs]
      match verdict with
      | Option.none =>
          cases h with
          | silent h => exact .alone hcovers fun q hq hq' => absurd hq' (h q hq)
      | some (best, exclude) =>
          dsimp only
          split
          · next hless => exact h.weaker hless
          · next hnotless =>
              split
              · next hsame => exact h.level hcovers hsame
              · next hne => exact h.stronger hcovers (Specificity.lt_of_not_lt hnotless hne)

theorem decided_foldl (name : String) (ps : List AnnotationPattern) :
    Decided name ps (ps.foldl (consider name) Option.none) := by
  -- From the end, since the last pattern is the one that is considered on top of a verdict.
  induction ps using List.reverseRecOn with
  | nil => exact .silent nofun
  | append_singleton ps p ih =>
      rw [List.foldl_append, List.foldl_cons, List.foldl_nil]
      exact ih.consider

/-! ## The decision -/

/-- The pattern is about the name, and every excluding pattern about it yields to this one. -/
def Prevails (name : String) (ps : List AnnotationPattern) (p : AnnotationPattern) : Prop :=
  p.target.Covers name ∧
    ∀ q ∈ ps, q.exclude = true → q.target.Covers name → q.target.LessSpecific p.target

theorem accepts_iff (f : AnnotationFilter) (name : String) :
    f.accepts name = true ↔ ∃ p ∈ f.patterns, p.exclude = false ∧ Prevails name f.patterns p := by
  have hdecided := decided_foldl name f.patterns
  rw [accepts]
  generalize f.patterns.foldl (consider name) Option.none = verdict at hdecided
  cases hdecided with
  | silent h =>
      refine iff_of_false nofun ?_
      rintro ⟨p, hp, -, hcovers, -⟩
      exact h p hp hcovers
  | @spoken best exclude reached greatest excludes =>
      rw [Bool.not_eq_true', Bool.eq_false_iff, ne_eq, excludes]
      constructor
      · intro hnone
        obtain ⟨p, hp, hcovers, hbest⟩ := reached
        refine ⟨p, hp, ?_, hcovers, ?_⟩
        · exact Bool.eq_false_iff.2 fun hexclude => hnone ⟨p, hp, hexclude, hcovers, hbest⟩
        · intro q hq hexclude hq'
          have hne : q.target.specificity ≠ best :=
            fun hsame => hnone ⟨q, hq, hexclude, hq', hsame⟩
          rw [← PatternTarget.specificity_lt_iff hq' hcovers, hbest]
          exact Specificity.lt_of_not_lt (Bool.eq_false_iff.1 (greatest q hq hq')) hne.symm
      · rintro ⟨p, hp, -, hcovers, hyield⟩ ⟨q, hq, hexclude, hq', hbest⟩
        have hless := (PatternTarget.specificity_lt_iff hq' hcovers).2 (hyield q hq hexclude hq')
        rw [hbest, greatest p hp hcovers] at hless
        cases hless

/-- A filter that has the including patterns of another, and no excluding ones besides, lets through
what the other does. -/
theorem accepts_mono {f g : AnnotationFilter}
    (hinclude : ∀ p ∈ f.patterns, p.exclude = false → p ∈ g.patterns)
    (hexclude : ∀ p ∈ g.patterns, p.exclude = true → p ∈ f.patterns)
    (h : f.accepts name = true) : g.accepts name = true := by
  rw [accepts_iff] at h ⊢
  obtain ⟨p, hp, hincludes, hcovers, hyield⟩ := h
  exact ⟨p, hinclude p hp hincludes, hincludes, hcovers,
    fun q hq hexcludes => hyield q (hexclude q hq hexcludes) hexcludes⟩

/-- A name passes exactly if an including pattern about it is more specific than every excluding one.
So the order of patterns and their repetition do not count, one more including pattern hides no name
and one more excluding pattern reveals none, wherever they are put in. -/
theorem accepts_by_specificity (f : AnnotationFilter) (name : String) :
    (f.accepts name = true ↔ ∃ p ∈ f.patterns, p.exclude = false ∧ p.target.Covers name ∧
      ∀ q ∈ f.patterns, q.exclude = true → q.target.Covers name →
        q.target.LessSpecific p.target) ∧
    (∀ g : AnnotationFilter, (∀ p, p ∈ g.patterns ↔ p ∈ f.patterns) →
      g.accepts name = f.accepts name) ∧
    ∀ before after p, f.patterns = before ++ after →
      let extended : AnnotationFilter := ⟨before ++ p :: after⟩
      (p.exclude = false → f.accepts name = true → extended.accepts name = true) ∧
      (p.exclude = true → extended.accepts name = true → f.accepts name = true) := by
  refine ⟨accepts_iff f name, ?_, ?_⟩
  · intro g hsame
    rw [Bool.eq_iff_iff]
    constructor
    · exact accepts_mono (fun p hp _ => (hsame p).1 hp) fun p hp _ => (hsame p).2 hp
    · exact accepts_mono (fun p hp _ => (hsame p).2 hp) fun p hp _ => (hsame p).1 hp
  · intro before after p hpatterns extended
    have hmem : ∀ q, q ∈ extended.patterns ↔ q = p ∨ q ∈ f.patterns := by
      intro q
      rw [hpatterns, List.mem_append, List.mem_append, List.mem_cons, or_left_comm]
    constructor
    · intro hincludes
      refine accepts_mono (fun q hq _ => (hmem q).2 (.inr hq)) ?_
      intro q hq hexcludes
      rcases (hmem q).1 hq with rfl | hq
      · rw [hincludes] at hexcludes
        cases hexcludes
      · exact hq
    · intro hexcludes
      refine accepts_mono ?_ fun q hq _ => (hmem q).2 (.inr hq)
      intro q hq hincludes
      rcases (hmem q).1 hq with rfl | hq
      · rw [hexcludes] at hincludes
        cases hincludes
      · exact hq

/-- A namespace is left out but for one name in it.  Another order with a repetition decides the same,
and an excluding pattern put in front reveals nothing. -/
theorem accepts_by_specificity_in_namespace :
    let f : AnnotationFilter := ⟨[⟨.all, false⟩, ⟨.under "a", true⟩, ⟨.exact "a.b", false⟩]⟩
    let shuffled : AnnotationFilter :=
      ⟨[⟨.exact "a.b", false⟩, ⟨.under "a", true⟩, ⟨.all, false⟩, ⟨.under "a", true⟩]⟩
    let extended : AnnotationFilter := ⟨[] ++ ⟨.exact "a.b", true⟩ :: f.patterns⟩
    f.accepts "a.b" = true ∧ shuffled.accepts "a.b" = f.accepts "a.b" ∧
      extended.accepts "c" = true ∧ f.accepts "c" = true := by
  intro f shuffled extended
  have hsame : ∀ p, p ∈ shuffled.patterns ↔ p ∈ f.patterns := by
    intro p
    simp only [shuffled, f, List.mem_cons, List.not_mem_nil, or_false]
    tauto
  have hextended : extended.accepts "c" = true := by decide
  refine ⟨by decide, (accepts_by_specificity f "a.b").2.1 shuffled hsame, hextended, ?_⟩
  exact ((accepts_by_specificity f "c").2.2 [] f.patterns ⟨.exact "a.b", true⟩ rfl).2 rfl hextended

end AnnotationFilter

end OData
