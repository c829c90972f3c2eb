import NameBinding.Proofs.Resolve.Rest
import NameBinding.Proofs.Resolve.Steps

/-! # Looking up names keeps the graph

Looking a name up only resolves the aliases on the way. -/

namespace NameBinding.ResolveM

open SymbolGraph

variable {g₀ : SymbolGraph} {setting : Setting}

section Search

variable {aliasTarget : SymbolId → ResolveM SymbolId}

theorem keeps_walkMembers (h : ∀ id, Keeps (Resolution.From setting g₀) (aliasTarget id))
    (meaning : Meaning) (current : SymbolId) (segments : List String) :
    Keeps (Resolution.From setting g₀) (walkMembers aliasTarget meaning current segments) := by
  induction segments generalizing current with
  | nil => exact Keeps.pure True.intro
  | cons segment rest ih =>
      have hgo : ∀ holder, Keeps (Resolution.From setting g₀)
          (walkOn aliasTarget meaning segment rest holder) := by
        refine fun holder => keeps_graph.bind fun g _ => ?_
        cases (g.publicMembers holder).find? (g.admits segment (meaning.atSegment rest)) with
        | none => exact Keeps.pure True.intro
        | some next => exact ih next
      rw [walkMembers_cons]
      refine keeps_graph.bind fun g _ => ?_
      split
      · exact (h current).bind fun holder _ => hgo holder
      · exact hgo current

theorem keeps_lookupAmong (h : ∀ id, Keeps (Resolution.From setting g₀) (aliasTarget id))
    (candidates : List SymbolId) (segments : List String) (meaning : Meaning) :
    Keeps (Resolution.From setting g₀) (lookupAmong aliasTarget candidates segments meaning) := by
  unfold lookupAmong
  cases segments with
  | nil => exact Keeps.pure True.intro
  | cons first rest =>
      exact keeps_graph.bind fun g _ =>
        Keeps.findSomeM? True.intro _ fun id _ => keeps_walkMembers h meaning id rest

theorem keeps_lookupFrom (h : ∀ id, Keeps (Resolution.From setting g₀) (aliasTarget id))
    (segments : List String) (meaning : Meaning) (anchor : SymbolId) :
    Keeps (Resolution.From setting g₀) (lookupFrom aliasTarget segments meaning anchor) := by
  unfold lookupFrom
  exact keeps_graph.bind fun g _ => keeps_lookupAmong h _ segments meaning

theorem keeps_lookupPath (h : ∀ id, Keeps (Resolution.From setting g₀) (aliasTarget id))
    (segments : List String) (context : List SymbolId) (enclosing : Option DeclId)
    (meaning : Meaning) : Keeps (Resolution.From setting g₀)
      (lookupPath aliasTarget setting segments context enclosing meaning) := by
  unfold lookupPath
  split
  · exact Keeps.pure True.intro
  · refine Keeps.bind (Keeps.findSomeM? True.intro _ fun anchor _ =>
      keeps_lookupFrom h segments meaning anchor) fun found _ => ?_
    cases found with
    | none => exact keeps_lookupAmong h _ segments meaning
    | some found => exact Keeps.pure True.intro

end Search

/-! ### Aliases -/

theorem keeps_settledTarget (id : SymbolId) : Keeps (Resolution.From setting g₀) (settledTarget id) := by
  unfold settledTarget
  exact keeps_graph.bind fun _ _ => Keeps.pure True.intro

theorem keeps_settle {resolve : SymbolId → ResolveM SymbolId}
    (h : ∀ id, Keeps (Resolution.From setting g₀) (resolve id)) (id : SymbolId) :
    Keeps (Resolution.From setting g₀) (settle resolve id) := by
  unfold settle
  refine keeps_graph.bind fun g _ => ?_
  split
  · exact keeps_settledTarget id
  · exact h id

theorem keeps_requiredModule (site : DeclSite) (reference : NodeRef) :
    Keeps (Resolution.From setting g₀) (requiredModule setting site reference) := by
  unfold requiredModule
  refine keeps_graph.bind fun g _ => ?_
  split
  · exact Keeps.pure True.intro
  · exact (keeps_report _).bind fun _ _ => Keeps.pure True.intro

theorem keeps_namedTarget {resolve : SymbolId → ResolveM SymbolId}
    (h : ∀ id, Keeps (Resolution.From setting g₀) (resolve id)) (id : SymbolId) (site : DeclSite)
    (reference : NodeRef) :
    Keeps (Resolution.From setting g₀) (namedTarget setting resolve id site reference) := by
  unfold namedTarget
  have hmissing : ∀ d, Keeps (Resolution.From setting g₀)
      (do report d; return WellKnown.error : ResolveM SymbolId) := fun d =>
    (keeps_report d).bind fun _ _ => Keeps.pure True.intro
  refine (keeps_lookupPath (keeps_settle h) _ _ _ _).bind fun found _ => ?_
  cases found with
  | none => exact hmissing _
  | some found =>
      dsimp only
      split
      · exact hmissing _
      · refine keeps_graph.bind fun g _ => ?_
        split
        · exact h found
        · exact Keeps.pure True.intro

theorem keeps_declaredTarget {resolve : SymbolId → ResolveM SymbolId}
    (h : ∀ id, Keeps (Resolution.From setting g₀) (resolve id)) (id : SymbolId) :
    Keeps (Resolution.From setting g₀) (declaredTarget setting resolve id) := by
  unfold declaredTarget
  refine (keeps_firstSite id).bind fun site? _ => ?_
  cases site? with
  | none => exact Keeps.pure True.intro
  | some site =>
      dsimp only
      split
      · split
        · exact keeps_requiredModule site _
        · exact keeps_namedTarget h id site _
      · exact Keeps.pure True.intro

/-- By induction on the aliases that may still be followed. -/
theorem keeps_resolveAliasWithin (hops : Nat) (id : SymbolId) :
    Keeps (Resolution.From setting g₀) (resolveAliasWithin setting hops id) := by
  induction hops generalizing id with
  | zero =>
      rw [resolveAliasWithin]
      refine (keeps_begin id).bind fun b _ => ?_
      split
      · exact (keeps_setSingle id _ rfl (by decide)).bind fun _ _ => Keeps.pure True.intro
      · exact keeps_settledTarget id
  | succ hops ih =>
      rw [resolveAliasWithin]
      refine (keeps_begin id).bind fun b _ => ?_
      split
      · exact (keeps_declaredTarget ih id).bind fun target _ =>
          (keeps_setSingle id target rfl (by decide)).bind fun _ _ => Keeps.pure True.intro
      · exact keeps_settledTarget id

theorem keeps_resolveAlias (id : SymbolId) : Keeps (Resolution.From setting g₀) (resolveAlias setting id) :=
  keeps_resolveAliasWithin Limits.aliasDepth id

theorem keeps_aliasTarget (id : SymbolId) : Keeps (Resolution.From setting g₀) (aliasTarget setting id) :=
  keeps_settle keeps_resolveAlias id

theorem keeps_findPath (segments : List String) (context : List SymbolId)
    (enclosing : Option DeclId) (meaning : Meaning) :
    Keeps (Resolution.From setting g₀) (findPath setting segments context enclosing meaning) :=
  keeps_lookupPath keeps_aliasTarget segments context enclosing meaning

theorem keeps_typeDenoted (denoted : SymbolId) :
    Keeps (Resolution.From setting g₀) (typeDenoted denoted) := by
  unfold typeDenoted
  refine keeps_graph.bind fun g _ => ?_
  split
  · exact Keeps.pure True.intro
  · split
    · exact Keeps.pure True.intro
    · exact Keeps.throw _
  · exact Keeps.pure True.intro
  · exact Keeps.throw _

theorem keeps_asType (symbol : SymbolId) :
    Keeps (Resolution.From setting g₀) (asType setting symbol) := by
  rw [asType_eq]
  refine keeps_graph.bind fun g _ => ?_
  split
  · exact (keeps_aliasTarget symbol).bind fun denoted _ => keeps_typeDenoted denoted
  · exact keeps_typeDenoted symbol

end NameBinding.ResolveM
