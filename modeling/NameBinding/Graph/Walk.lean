/-! Breadth-first walks. A walk goes level by level: each level holds what one step leads to from
the level before and what no earlier level holds. -/

namespace NameBinding.Walk

variable {α : Type} [BEq α]

/-- What one step leads to from a level and was not seen. -/
def nextLevel (next : α → List α) (seen level : List α) : List α :=
  ((level.flatMap next).filter (!seen.contains ·)).eraseDups

/-- Goes on from a level for at most the given number of steps. -/
def levels (next : α → List α) : Nat → List α → List α → List α
  | 0, seen, _ => seen
  | steps + 1, seen, level =>
    let fresh := nextLevel next seen level
    if fresh.isEmpty then seen else levels next steps (seen ++ fresh) fresh

/-- What can be reached from the roots in at most the given number of steps, nearest first and each
once. -/
def reach (next : α → List α) (steps : Nat) (roots : List α) : List α :=
  levels next steps roots.eraseDups roots.eraseDups

/-- The walk up to its first stop. -/
def untilStop (stop : α → Bool) : List α → List α
  | [] => []
  | a :: rest => if stop a then [a] else a :: untilStop stop rest

theorem mem_nextLevel [LawfulBEq α] {next : α → List α} {seen level : List α} {a : α} :
    a ∈ nextLevel next seen level ↔ (∃ b ∈ level, a ∈ next b) ∧ a ∉ seen := by
  simp [nextLevel]

end NameBinding.Walk
