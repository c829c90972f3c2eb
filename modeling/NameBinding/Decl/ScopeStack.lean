/-! Stacks of named scopes. -/

namespace NameBinding

/-- The open scopes with their names, innermost first. -/
structure ScopeStack (α : Type) where
  frames : List (α × String)
  deriving Repr

namespace ScopeStack

variable {α : Type}

def empty : ScopeStack α := ⟨[]⟩

def push (s : ScopeStack α) (scope : α) (name : String) : ScopeStack α :=
  ⟨(scope, name) :: s.frames⟩

/-- Closes the innermost scope. Nothing happens to an empty stack. -/
def pop (s : ScopeStack α) : ScopeStack α := ⟨s.frames.tail⟩

/-- The innermost scope. -/
def current (s : ScopeStack α) : Option α := s.frames.head?.map (·.1)

/-- The names from the outermost scope to the innermost. -/
def path (s : ScopeStack α) : List String := (s.frames.map (·.2)).reverse

/-- The path with full stops, without scopes that have no name. -/
def dottedPath (s : ScopeStack α) : String :=
  ".".intercalate (s.path.filter (!·.isEmpty))

def depth (s : ScopeStack α) : Nat := s.frames.length

def isEmpty (s : ScopeStack α) : Bool := s.frames.isEmpty

@[simp] theorem current_push (s : ScopeStack α) (scope : α) (name : String) :
    (s.push scope name).current = some scope := rfl

@[simp] theorem pop_push (s : ScopeStack α) (scope : α) (name : String) :
    (s.push scope name).pop = s := rfl

@[simp] theorem path_push (s : ScopeStack α) (scope : α) (name : String) :
    (s.push scope name).path = s.path ++ [name] := by simp [push, path]

@[simp] theorem depth_push (s : ScopeStack α) (scope : α) (name : String) :
    (s.push scope name).depth = s.depth + 1 := rfl

end ScopeStack

end NameBinding
