/-
# `OData.MediaType.Basic` — media types with ordered parameters

A media type is a type, a subtype and parameters in order, whose names are distinct even without
regard to case.  Two media types are equal only if their parameters are in the same order;
looking a parameter up regards neither order nor case.

Main statement: `get?_insert` says what a lookup finds after a parameter was set.
-/
import OData.Text.Ascii

namespace OData

/-- The names of parameters are pairwise distinct, also without regard to case. -/
def DistinctNames (parameters : List (String × String)) : Prop :=
  parameters.Pairwise fun p q => Text.sameName p.1 q.1 = false

/-- A media type. -/
structure MediaType where
  typeName : String
  subtype : String
  parameters : List (String × String)
  distinct : DistinctNames parameters
deriving DecidableEq

/-- The parameters with the value of `name` set: in its place if it has one, and otherwise at the end. -/
def insertParameter (name value : String) : List (String × String) → List (String × String)
  | [] => [(name, value)]
  | (n, v) :: rest =>
    if Text.sameName n name then (n, value) :: rest else (n, v) :: insertParameter name value rest

/-- The value of `name` among `parameters`. -/
def findParameter? (name : String) (parameters : List (String × String)) : Option String :=
  (parameters.find? fun p => Text.sameName p.1 name).map (·.2)

/-- Setting a parameter adds no name but its own. -/
theorem exists_of_mem_insertParameter {name value : String} {ps : List (String × String)}
    {p : String × String} (h : p ∈ insertParameter name value ps) :
    p.1 = name ∨ ∃ q ∈ ps, q.1 = p.1 := by
  induction ps with
  | nil => simp [insertParameter] at h; exact .inl (by rw [h])
  | cons q ps ih =>
    obtain ⟨n, v⟩ := q
    simp only [insertParameter] at h
    split at h
    · rcases List.mem_cons.1 h with rfl | h
      · exact .inr ⟨(n, v), by simp, rfl⟩
      · exact .inr ⟨p, by simp [h], rfl⟩
    · rcases List.mem_cons.1 h with rfl | h
      · exact .inr ⟨(n, v), by simp, rfl⟩
      · rcases ih h with h | ⟨q, hq, he⟩
        · exact .inl h
        · exact .inr ⟨q, by simp [hq], he⟩

theorem DistinctNames.insertParameter {ps : List (String × String)} (h : DistinctNames ps)
    (name value : String) : DistinctNames (insertParameter name value ps) := by
  induction ps with
  | nil => simp [OData.insertParameter, DistinctNames]
  | cons q ps ih =>
    obtain ⟨n, v⟩ := q
    obtain ⟨hq, hps⟩ := List.pairwise_cons.1 h
    simp only [OData.insertParameter]
    split
    · exact List.pairwise_cons.2 ⟨hq, hps⟩
    · next hn =>
      refine List.pairwise_cons.2 ⟨fun p hp => ?_, ih hps⟩
      rcases exists_of_mem_insertParameter hp with hp | ⟨r, hr, hp⟩
      · simpa [hp] using hn
      · have := hq r hr
        rwa [hp] at this

theorem findParameter?_insertParameter (name value query : String) (ps : List (String × String)) :
    findParameter? query (insertParameter name value ps) =
      if Text.sameName name query then some value else findParameter? query ps := by
  induction ps with
  | nil =>
    simp only [insertParameter, findParameter?, List.find?]
    split <;> simp_all
  | cons q ps ih =>
    obtain ⟨n, v⟩ := q
    simp only [findParameter?] at ih
    by_cases hn : Text.sameName n name = true
    · rw [← Text.sameName_congr_left hn query]
      cases hq : Text.sameName n query <;>
        simp [insertParameter, findParameter?, hn, List.find?, hq]
    · cases hq : Text.sameName n query
      · simpa [insertParameter, findParameter?, hn, List.find?, hq] using ih
      · have hnq : Text.sameName name query = false := by
          rw [Text.sameName_comm, ← Text.sameName_congr_left hq]
          simpa using hn
        simp [insertParameter, findParameter?, hn, List.find?, hq, hnq]

namespace MediaType

/-- A media type without parameters. -/
def new (typeName subtype : String) : MediaType := ⟨typeName, subtype, [], .nil⟩

/-- The media type with the value of the parameter `name` set. -/
def insert (m : MediaType) (name value : String) : MediaType :=
  { m with
    parameters := insertParameter name value m.parameters
    distinct := m.distinct.insertParameter name value }

/-- A media type with `parameters` set one after the other. -/
def ofList (typeName subtype : String) (parameters : List (String × String)) : MediaType :=
  parameters.foldl (fun m p => m.insert p.1 p.2) (new typeName subtype)

/-- The value of the parameter `name`, whatever its case. -/
def get? (m : MediaType) (name : String) : Option String :=
  findParameter? name m.parameters

/-- The types and the subtypes agree but for case. -/
def sameType (a b : MediaType) : Bool :=
  Text.sameName a.typeName b.typeName && Text.sameName a.subtype b.subtype

/-- As many parameters, and each of those of `a` has the same value in `b`. -/
def sameParameters (a b : MediaType) : Bool :=
  a.parameters.length == b.parameters.length &&
    a.parameters.all fun p => b.get? p.1 == some p.2

theorem get?_insert (m : MediaType) (name value query : String) :
    (m.insert name value).get? query =
      if Text.sameName name query then some value else m.get? query :=
  findParameter?_insertParameter name value query m.parameters

end MediaType

end OData
