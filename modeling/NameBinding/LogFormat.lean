import NameBinding.Enumerated
import NameBinding.Text.Blank

/-! The form in which a log is written. -/

namespace NameBinding

inductive LogFormat where
  | text
  | tree
  | json
  deriving DecidableEq, Repr

namespace LogFormat

instance : Enumerated LogFormat where
  all := [.text, .tree, .json]
  name
    | .text => "Text"
    | .tree => "Tree"
    | .json => "Json"

/-- Reads the name of a format. Blanks at the ends and the case of letters do not matter, and a
name that is not known means plain text. Lowering ASCII letters is enough, since no other character
is the capital of a letter in these names. -/
def parse (value : String) : LogFormat :=
  let word := (Blank.strip value).toLower
  if word = "tree" then .tree else if word = "json" then .json else .text

end LogFormat

end NameBinding
