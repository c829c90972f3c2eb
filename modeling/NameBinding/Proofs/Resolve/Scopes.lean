import Mathlib.Data.List.Basic
import NameBinding.Proofs.Resolve.Lookup

/-! # Scopes in order

The scopes that a lookup goes through one after the other, each only once, put the same symbols before
the same others as one list of all that is in scope. Main statement: what a name denotes is where the
first symbol in this list leads from which the rest of the name leads on. -/

namespace NameBinding

open SymbolGraph

/-! ### First matches -/

section FirstMatch

variable {α β γ : Type} (f : α → Option β)

theorem findSome?_filter_eq (p : α → Bool) (as : List α) :
    (as.filter p).findSome? f = as.findSome? fun a => if p a then f a else none := by
  rw [← List.head?_filterMap, List.filterMap_filter, List.head?_filterMap]

theorem findSome?_flatMap_eq (g : γ → List α) (cs : List γ) :
    (cs.flatMap g).findSome? f = cs.findSome? fun c => (g c).findSome? f := by
  induction cs with
  | nil => rfl
  | cons c cs ih =>
      rw [List.flatMap_cons, List.findSome?_append, ih, List.findSome?_cons]
      cases (g c).findSome? f <;> rfl

/-- What leads nowhere can be left out. -/
theorem findSome?_filter_of_none {p : α → Bool} {as : List α}
    (h : ∀ a ∈ as, p a = false → f a = none) : (as.filter p).findSome? f = as.findSome? f := by
  rw [findSome?_filter_eq, ← List.head?_filterMap, ← List.head?_filterMap]
  refine congrArg List.head? (List.filterMap_congr fun a ha => ?_)
  by_cases hp : p a
  · simp [hp]
  · simp [hp, h a ha (by simpa using hp)]

/-- By induction on the length. An element that leads nowhere does so again later. -/
theorem findSome?_eraseDups [BEq α] [LawfulBEq α] (as : List α) :
    as.eraseDups.findSome? f = as.findSome? f := by
  induction hn : as.length using Nat.strongRecOn generalizing as with
  | ind n ih =>
      cases as with
      | nil => rfl
      | cons a as =>
          rw [List.eraseDups_cons, List.findSome?_cons, List.findSome?_cons]
          cases hfa : f a with
          | some b => rfl
          | none =>
              have hlen : (as.filter fun b => !b == a).length < n := by
                have hle := List.length_filter_le (fun b => !b == a) as
                simp only [List.length_cons] at hn
                omega
              refine (ih _ hlen _ rfl).trans (findSome?_filter_of_none f fun b _ hb => ?_)
              obtain rfl : b = a := by simpa using hb
              exact hfa

end FirstMatch

/-! ### Declarations from the inside out -/

namespace Program

/-- The declaration that is some steps further out than the one where the way begins. -/
def outward? (p : Program) : Nat → Option DeclId → Option Decl
  | 0, d => d.bind p.decl?
  | steps + 1, d => (d.bind p.decl?).bind fun inner => p.outward? steps inner.parent

theorem exists_decl?_of_outward? {p : Program} {steps : Nat} {d : Option DeclId} {e : Decl}
    (h : p.outward? steps d = some e) : ∃ id, p.decl? id = some e := by
  induction steps generalizing d with
  | zero =>
      obtain ⟨id, -, he⟩ := Option.bind_eq_some_iff.mp h
      exact ⟨id, he⟩
  | succ steps ih =>
      obtain ⟨inner, -, he⟩ := Option.bind_eq_some_iff.mp h
      exact ih he

/-- By induction on the number of declarations that are searched. -/
theorem enclosingSymbols_eq (p : Program) (depth : Nat) (enclosing : Option DeclId) :
    p.enclosingSymbols depth enclosing =
      (List.range depth).filterMap fun steps => (p.outward? steps enclosing).bind (·.symbol) := by
  induction depth generalizing enclosing with
  | zero => rfl
  | succ depth ih =>
      have hnone : ∀ {d}, d.bind p.decl? = none → ((List.range (depth + 1)).filterMap fun steps =>
          (p.outward? steps d).bind (·.symbol)) = [] := by
        intro d hd
        refine List.filterMap_eq_nil_iff.mpr fun steps _ => ?_
        cases steps <;> simp [outward?, hd]
      cases enclosing with
      | none => exact (hnone rfl).symm
      | some d =>
          rw [enclosingSymbols]
          cases hd : p.decl? d with
          | none => exact (hnone (d := some d) hd).symm
          | some decl =>
              dsimp only
              rw [List.range_succ_eq_map, List.filterMap_cons, List.filterMap_map, ih decl.parent]
              simp only [outward?, Option.bind_some, hd]
              cases decl.symbol <;> simp [outward?, hd]

end Program

/-! ### All that is in scope -/

namespace Setting

variable (setting : Setting) (g : SymbolGraph) (context : List SymbolId)
  (enclosing : Option DeclId)

/-- The symbols whose names are in scope at a place: a context, and then the declarations around the
place from the inside out, as many as are searched. -/
def surrounding : List SymbolId :=
  context ++ (List.range setting.options.maxScopePathDepth).filterMap fun steps =>
    (setting.program.outward? steps enclosing).bind (·.symbol)

/-- What can be named at a place, in the order of the search: the names in scope, and last the global
ones in the order of the documents. -/
def inScope (name : String) : List SymbolId :=
  (setting.surrounding context enclosing).flatMap g.scopeChildren ++
    setting.program.units.flatMap (·.topLevelSymbols name)

/-- The symbols in scope that fit the first segment of a name. -/
def candidates (meaning : Meaning) (first : String) (rest : List String) : List SymbolId :=
  (setting.inScope g context enclosing first).filter (g.admits first (meaning.atSegment rest))

variable {setting g context enclosing}

theorem lookup?_cons (meaning : Meaning) (candidates : List SymbolId) (first : String)
    (rest : List String) : g.lookup? meaning candidates (first :: rest) =
      candidates.findSome? fun x =>
        if g.admits first (meaning.atSegment rest) x then g.walk? meaning x rest else none :=
  findSome?_filter_eq _ _ _

/-- A name leads from the first candidate from which its other segments lead on. -/
theorem denoted?_cons (first : String) (rest : List String) (meaning : Meaning) :
    setting.denoted? g (first :: rest) context enclosing meaning =
      (setting.candidates g context enclosing meaning first rest).findSome?
        (g.walk? meaning · rest) := by
  rw [candidates, findSome?_filter_eq, inScope, List.findSome?_append, findSome?_flatMap_eq,
    surrounding, List.findSome?_append, ← Program.enclosingSymbols_eq, denoted?, scopes,
    List.findSome?_append, Program.lexicalScopes, findSome?_eraseDups]
  simp only [lookup?_cons, List.head?_cons, Option.getD_some, Program.globalSymbols,
    findSome?_eraseDups]

/-- A name of one segment denotes the first symbol in scope that fits. -/
theorem denoted?_single (name : String) (meaning : Meaning) :
    setting.denoted? g [name] context enclosing meaning =
      (setting.inScope g context enclosing name).find? (g.admits name meaning) := by
  rw [denoted?_cons, candidates, ← List.head?_filter, Meaning.atSegment_nil]
  cases (setting.inScope g context enclosing name).filter (g.admits name meaning) <;> rfl

theorem mem_inScope_iff {name : String} {x : SymbolId} :
    x ∈ setting.inScope g context enclosing name ↔
      (∃ scope ∈ setting.surrounding context enclosing, x ∈ g.scopeChildren scope) ∨
        x ∈ setting.program.globalSymbols name := by
  rw [inScope, List.mem_append, List.mem_flatMap, Program.globalSymbols, List.mem_eraseDups]

theorem mem_surrounding_nil_iff {x : SymbolId} : x ∈ setting.surrounding [] enclosing ↔
    ∃ steps < setting.options.maxScopePathDepth, ∃ decl,
      setting.program.outward? steps enclosing = some decl ∧ decl.symbol = some x := by
  simp [surrounding, Option.bind_eq_some_iff]

/-- Resolving aliases brings nothing into scope and takes nothing away. -/
theorem candidates_eq {g' : SymbolGraph} (h : g.Advances setting g') (hg : g.WellFormed)
    (meaning : Meaning) (first : String) (rest : List String) :
    setting.candidates g' context enclosing meaning first rest =
      setting.candidates g context enclosing meaning first rest := by
  have hchildren : g'.scopeChildren = g.scopeChildren := funext (h.scopeChildren_eq hg)
  rw [candidates, candidates, inScope, inScope, hchildren, h.admits_eq]

end Setting

end NameBinding
