/-! Dotted names: segments with full stops between them. Main statement: splitting and joining
undo each other. -/

namespace NameBinding.Dotted

/-- The parts of a text between its full stops. -/
def splitChars : List Char → List (List Char)
  | [] => [[]]
  | c :: rest =>
    if c = '.' then [] :: splitChars rest
    else match splitChars rest with
      | [] => [[c]]
      | part :: parts => (c :: part) :: parts

/-- The segments of a dotted name. A text without a full stop is one segment, also an empty one. -/
def split (dotted : String) : List String := (splitChars dotted.toList).map String.ofList

def joinChars : List (List Char) → List Char
  | [] => []
  | [part] => part
  | part :: parts => part ++ '.' :: joinChars parts

/-- The dotted name with the given segments. -/
def join (segments : List String) : String := String.ofList (joinChars (segments.map String.toList))

theorem splitChars_ne_nil (text : List Char) : splitChars text ≠ [] := by
  cases text with
  | nil => simp [splitChars]
  | cons c rest =>
    unfold splitChars
    split
    · simp
    · split <;> simp

theorem joinChars_cons_of_ne_nil (part : List Char) {parts : List (List Char)} (h : parts ≠ []) :
    joinChars (part :: parts) = part ++ '.' :: joinChars parts := by
  cases parts with
  | nil => exact absurd rfl h
  | cons p ps => rfl

theorem joinChars_splitChars (text : List Char) : joinChars (splitChars text) = text := by
  induction text with
  | nil => rfl
  | cons c rest ih =>
    have hne := splitChars_ne_nil rest
    by_cases hc : c = '.'
    · simp [splitChars, hc, joinChars_cons_of_ne_nil _ hne, ih]
    · cases hs : splitChars rest with
      | nil => exact absurd hs hne
      | cons part parts =>
        rw [hs] at ih
        cases parts with
        | nil => simpa [splitChars, hc, hs, joinChars] using ih
        | cons p ps => simpa [splitChars, hc, hs, joinChars] using ih

theorem splitChars_append {part : List Char} (h : '.' ∉ part) (rest : List Char) :
    splitChars (part ++ '.' :: rest) = part :: splitChars rest := by
  induction part with
  | nil => simp [splitChars]
  | cons c part ih =>
    have hc : ¬ c = '.' := fun hc => h (by simp [hc])
    have ih := ih fun hm => h (List.mem_cons_of_mem _ hm)
    simp [splitChars, hc, ih]

theorem splitChars_of_not_mem {part : List Char} (h : '.' ∉ part) : splitChars part = [part] := by
  induction part with
  | nil => rfl
  | cons c part ih =>
    have hc : ¬ c = '.' := fun hc => h (by simp [hc])
    have ih := ih fun hm => h (List.mem_cons_of_mem _ hm)
    simp [splitChars, hc, ih]

theorem splitChars_joinChars {parts : List (List Char)} (hne : parts ≠ [])
    (h : ∀ part ∈ parts, '.' ∉ part) : splitChars (joinChars parts) = parts := by
  induction parts with
  | nil => exact absurd rfl hne
  | cons part parts ih =>
    cases parts with
    | nil => exact splitChars_of_not_mem (h part (by simp))
    | cons p ps =>
      rw [joinChars_cons_of_ne_nil _ (by simp), splitChars_append (h part (by simp)),
        ih (by simp) fun q hq => h q (List.mem_cons_of_mem _ hq)]

theorem split_of_not_mem {segment : String} (h : '.' ∉ segment.toList) :
    split segment = [segment] := by
  simp [split, splitChars_of_not_mem h]

theorem split_join {segments : List String} (hne : segments ≠ [])
    (h : ∀ segment ∈ segments, '.' ∉ segment.toList) : split (join segments) = segments := by
  have hparts : splitChars (joinChars (segments.map String.toList)) = segments.map String.toList :=
    splitChars_joinChars (by simpa using hne) (by simpa using h)
  simp [split, join, hparts, Function.comp_def]

@[simp] theorem join_split (dotted : String) : join (split dotted) = dotted := by
  simp [join, split, Function.comp_def, joinChars_splitChars]

end NameBinding.Dotted
