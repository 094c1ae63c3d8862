/-
# `OData.Text.Split` — cutting text at a separator

Main statement: `eq_of_splitOnce_eq_some` says that the first cut takes one separator away and
nothing else.
-/
namespace OData.Text

/-- The text before and after the first `sep`. -/
def splitOnce (sep : Char) : List Char → Option (List Char × List Char)
  | [] => none
  | c :: cs =>
    if c = sep then some ([], cs)
    else (splitOnce sep cs).map fun (before, after) => (c :: before, after)

/-- The parts of a text between the separators; an empty text has one empty part. -/
def splitOn (sep : Char) : List Char → List (List Char)
  | [] => [[]]
  | c :: cs =>
    if c = sep then [] :: splitOn sep cs
    else match splitOn sep cs with
      | [] => [[c]]
      | part :: parts => (c :: part) :: parts

/-- The text of `parts` with `sep` written between neighbours. -/
def join (sep : Char) : List (List Char) → List Char
  | [] => []
  | [part] => part
  | part :: parts => part ++ sep :: join sep parts

/-- The text without the ending `tail`, if it has that ending. -/
def dropEnding? (tail cs : List Char) : Option (List Char) :=
  if cs.drop (cs.length - tail.length) = tail ∧ tail.length ≤ cs.length then
    some (cs.take (cs.length - tail.length))
  else none

/-- The text without the beginning `head`, if it has that beginning. -/
def dropBeginning? : (head cs : List Char) → Option (List Char)
  | [], cs => some cs
  | _ :: _, [] => none
  | h :: hs, c :: cs => if h = c then dropBeginning? hs cs else none

theorem eq_of_splitOnce_eq_some {sep : Char} {cs before after : List Char}
    (h : splitOnce sep cs = some (before, after)) : cs = before ++ sep :: after := by
  induction cs generalizing before with
  | nil => simp [splitOnce] at h
  | cons c cs ih =>
    simp only [splitOnce] at h
    split at h
    · next hc => cases h; simp [hc]
    · obtain ⟨⟨b, a⟩, hs, he⟩ := Option.map_eq_some_iff.1 h
      cases he; simp [← ih hs]

theorem splitOn_ne_nil (sep : Char) (cs : List Char) : splitOn sep cs ≠ [] := by
  cases cs with
  | nil => simp [splitOn]
  | cons c cs =>
    simp only [splitOn]
    split
    · simp
    · split <;> simp

theorem join_cons {sep : Char} {part : List Char} {parts : List (List Char)} (h : parts ≠ []) :
    join sep (part :: parts) = part ++ sep :: join sep parts := by
  cases parts with
  | nil => exact absurd rfl h
  | cons _ _ => rfl

end OData.Text
