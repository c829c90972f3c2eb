/-! Finite types whose members have a written name and a fixed order. -/

namespace NameBinding

/-- `all` lists the members in their fixed order, and `name` is how a member is written. -/
class Enumerated (α : Type) where
  all : List α
  name : α → String

namespace Enumerated

/-- The member with a given written name. -/
def ofName? {α : Type} [Enumerated α] (text : String) : Option α :=
  (all : List α).find? fun a => name a == text

end Enumerated

end NameBinding
