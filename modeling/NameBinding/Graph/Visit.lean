import Mathlib.Algebra.GroupWithZero.Nat
import NameBinding.Graph.Members

/-! Walks with a visitor. What is still to be visited stands in a queue, each element with the number of
steps that led to it. Elements can stand there more than once, and only the first time counts. -/

namespace NameBinding

namespace Walk

variable {α σ : Type}

/-- What is done at an element: the state changes, and the walk goes on or stops. -/
abbrev Visitor (σ α : Type) := σ → α → σ × Bool

/-- The visitor that goes on everywhere. -/
def Visitor.never : Visitor Unit α := fun _ _ => ((), false)

/-- Visits the elements of a list up to the first one, if any, at which the visitor stops. The visited
ones are returned, and the last state. -/
def visitList (visit : Visitor σ α) : List α → σ → List α × σ
  | [], s => ([], s)
  | a :: rest, s =>
    match visit s a with
    | (s, true) => ([a], s)
    | (s, false) =>
      let (visited, s) := visitList visit rest s
      (a :: visited, s)

/-- The number of ways that lead on from an element in at most the given number of steps. -/
def ways (next : α → List α) : Nat → α → Nat
  | 0, _ => 1
  | steps + 1, a => ((next a).map (ways next steps)).sum + 1

/-- What one step leads to, with the number of steps so far, unless the limit is reached. -/
def onward (next : α → List α) (limit : Nat) (a : α) (steps : Nat) : List (α × Nat) :=
  if steps < limit then (next a).map fun b => (b, steps + 1) else []

/-- The ways that are left from all that stands in a queue. -/
def load (next : α → List α) (limit : Nat) (queue : List (α × Nat)) : Nat :=
  (queue.map fun (a, steps) => ways next (limit - steps) a).sum

theorem load_append (next : α → List α) (limit : Nat) (first second : List (α × Nat)) :
    load next limit (first ++ second) = load next limit first + load next limit second := by
  simp [load]

/-- An element weighs more than all that it leads to. -/
theorem load_onward_lt (next : α → List α) (limit : Nat) (a : α) (steps : Nat) :
    load next limit (onward next limit a steps) < ways next (limit - steps) a := by
  unfold onward
  split
  · next h =>
    obtain ⟨more, hmore⟩ : ∃ more, limit - steps = more + 1 := ⟨limit - steps - 1, by omega⟩
    have hrest : limit - (steps + 1) = more := by omega
    simp [load, ways, hmore, hrest, Function.comp_def]
  · cases limit - steps <;> simp [load, ways]

variable [BEq α]

/-- Takes one element after the other from the queue and visits those that were not seen, until the
visitor stops or the queue is empty. Each step takes away more ways than it adds. -/
def tour (next : α → List α) (limit : Nat) (visit : Visitor σ α) :
    List (α × Nat) → List α → σ → List α × σ
  | [], _, s => ([], s)
  | (a, steps) :: queue, seen, s =>
    if seen.contains a then tour next limit visit queue seen s
    else
      match visit s a with
      | (s, true) => ([a], s)
      | (s, false) =>
        let (visited, s) := tour next limit visit (queue ++ onward next limit a steps) (a :: seen) s
        (a :: visited, s)
termination_by queue => load next limit queue
decreasing_by
  · have := load_onward_lt next limit a steps
    simp only [load, List.map_cons, List.sum_cons]
    omega
  · have := load_onward_lt next limit a steps
    rw [load_append]
    simp only [load, List.map_cons, List.sum_cons] at *
    omega

end Walk

namespace SymbolGraph

variable {σ : Type}

/-- Visits a type and its bases, down to a number of levels, until the visitor stops. -/
def walkHeritage (g : SymbolGraph) (depth : Nat) (id : SymbolId) (visit : Walk.Visitor σ SymbolId)
    (s : σ) : List SymbolId × σ :=
  Walk.tour g.extendedTypes depth visit [(id, 0)] [] s

end SymbolGraph

end NameBinding
