/-
# `OData.Annotation.SeenNames` — names of annotations, each once for its owner

The collection and each link are owners of annotations, and a name may stand once on each of them.
`SeenNames` holds the names met so far in one pass over a payload; `insert` refuses one that its
owner has already.  A refusal leaves everything as it was, so that a pass may go on behind it
(`track`, `trackAll`).
-/
namespace OData

/-- What an annotation is attached to. -/
inductive AnnotationOwner where
  | collection
  /-- The link with this index. -/
  | link (index : Nat)
deriving DecidableEq, Repr

def AnnotationOwner.text : AnnotationOwner → String
  | collection => "the collection"
  | link index => s!"link {index}"

/-- A name that its owner has already. -/
structure RepeatedName where
  name : String
  owner : AnnotationOwner
deriving DecidableEq, Repr

def RepeatedName.message (r : RepeatedName) : String :=
  s!"duplicate instance annotation '{r.name}' on {r.owner.text}"

/-- The names seen so far, each with its owner and once. -/
structure SeenNames where
  entries : List (AnnotationOwner × String)
deriving DecidableEq, Repr

namespace SeenNames

/-- No name seen yet. -/
def empty : SeenNames := ⟨[]⟩

/-- The names of an owner. -/
def names (seen : SeenNames) (owner : AnnotationOwner) : List String :=
  (seen.entries.filter (·.1 == owner)).map (·.2)

/-- How many names of an owner were seen. -/
def count (seen : SeenNames) (owner : AnnotationOwner) : Nat := (seen.names owner).length

/-- What has been seen with `name` on `owner`, unless it was seen there before. -/
def insert (seen : SeenNames) (owner : AnnotationOwner) (name : String) :
    Except RepeatedName SeenNames :=
  if seen.entries.contains (owner, name) then .error ⟨name, owner⟩
  else .ok ⟨(owner, name) :: seen.entries⟩

/-- The outcome of tracking `name` on `owner`, and what has been seen behind it. -/
def track (seen : SeenNames) (owner : AnnotationOwner) (name : String) :
    Except RepeatedName Unit × SeenNames :=
  match seen.insert owner name with
  | .ok seen => (.ok (), seen)
  | .error fault => (.error fault, seen)

/-- The outcomes of tracking names one after the other, and what has been seen behind the last.  A name
that is refused does not end the run. -/
def trackAll (seen : SeenNames) :
    List (AnnotationOwner × String) → List (Except RepeatedName Unit) × SeenNames
  | [] => ([], seen)
  | (owner, name) :: calls =>
    let (outcome, seen) := seen.track owner name
    let (outcomes, seen) := seen.trackAll calls
    (outcome :: outcomes, seen)

variable {seen : SeenNames} {owner : AnnotationOwner} {name : String}

theorem insert_of_mem (h : (owner, name) ∈ seen.entries) :
    seen.insert owner name = .error ⟨name, owner⟩ := by
  simp [insert, h]

theorem insert_of_not_mem (h : (owner, name) ∉ seen.entries) :
    seen.insert owner name = .ok ⟨(owner, name) :: seen.entries⟩ := by
  simp [insert, h]

theorem track_of_mem (h : (owner, name) ∈ seen.entries) :
    seen.track owner name = (.error ⟨name, owner⟩, seen) := by
  rw [track, insert_of_mem h]

theorem track_of_not_mem (h : (owner, name) ∉ seen.entries) :
    seen.track owner name = (.ok (), ⟨(owner, name) :: seen.entries⟩) := by
  rw [track, insert_of_not_mem h]

theorem trackAll_cons (seen : SeenNames) (call : AnnotationOwner × String)
    (calls : List (AnnotationOwner × String)) :
    seen.trackAll (call :: calls) =
      ((seen.track call.1 call.2).1 :: ((seen.track call.1 call.2).2.trackAll calls).1,
        ((seen.track call.1 call.2).2.trackAll calls).2) :=
  rfl

end SeenNames

end OData
