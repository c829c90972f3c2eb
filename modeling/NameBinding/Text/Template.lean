/-! Message templates. A placeholder is an argument's number in braces. Arguments are filled in
one after another, so a placeholder that an argument brings in is filled by the ones after it. -/

namespace NameBinding.Template

/-- Replaces every occurrence of a pattern that is not empty, from the left and without overlap.
`skip` counts the characters that belong to an occurrence already replaced. -/
def replaceFrom (pattern replacement : List Char) : Nat → List Char → List Char
  | _, [] => []
  | skip + 1, _ :: rest => replaceFrom pattern replacement skip rest
  | 0, c :: rest =>
    if pattern.isPrefixOf (c :: rest) then
      replacement ++ replaceFrom pattern replacement (pattern.length - 1) rest
    else c :: replaceFrom pattern replacement 0 rest

def replace (text pattern replacement : String) : String :=
  String.ofList (replaceFrom pattern.toList replacement.toList 0 text.toList)

/-- The text that marks the place of argument `index`. -/
def placeholder (index : Nat) : String := "\x7b" ++ Nat.repr index ++ "\x7d"

/-- Fills in the arguments, the first of which has number `index`. -/
def fillFrom (index : Nat) (text : String) : List String → String
  | [] => text
  | arg :: args => fillFrom (index + 1) (replace text (placeholder index) arg) args

def fill (template : String) (args : List String) : String := fillFrom 0 template args

theorem replaceFrom_skip (pattern replacement : List Char) (skip : Nat) (text : List Char) :
    replaceFrom pattern replacement skip text =
      replaceFrom pattern replacement 0 (text.drop skip) := by
  induction skip generalizing text with
  | zero => rfl
  | succ skip ih =>
    cases text with
    | nil => rfl
    | cons c rest => exact ih rest

@[simp] theorem fill_nil (template : String) : fill template [] = template := rfl

end NameBinding.Template
