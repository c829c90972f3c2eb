import Mathlib.Data.List.Find
import NameBinding.Program.Lookup
import NameBinding.Proofs.Workspace.Collapse

/-! # Both ways to look up a dotted name agree

A name can be looked up from outside all documents without resolving anything, which follows aliases
as far as they are resolved. Main statement: when all declared aliases are resolved, resolving a name
from outside gives the same answer and changes nothing. -/

namespace NameBinding

open SymbolGraph ResolveM

namespace SymbolGraph

variable {g : SymbolGraph} {x : SymbolId} {name : String} {meaning : Meaning}

/-- For symbols that are declared, both lookups ask the same. -/
theorem isNamed_eq_admits (hx : g.declarations x ≠ []) :
    g.isNamed name meaning x = g.admits name meaning x := by
  unfold isNamed admits
  cases hs : g.get? x with
  | none => rfl
  | some s =>
      have hdecl : s.isDeclared := by simpa [declarations, hs, Symbol.isDeclared] using hx
      simp [hdecl]

theorem publicMembers_eq_nil {kind : SymbolKind} (hk : g.kind? x = some kind)
    (hm : kind.hasMembers = false) : g.publicMembers x = [] := by
  simp [publicMembers, listFor, hk, hm]

end SymbolGraph

namespace Workspace

variable {w : Workspace} {x m : SymbolId} {name : String} {meaning : Meaning}

/-! ### Members -/

/-- No declaration puts anything into a symbol that is there from the start. -/
theorem Reachable.publicMembers_eq_nil_of_initial (h : w.Reachable) (hx : x < WellKnown.count) :
    w.graph.publicMembers x = [] := by
  obtain ⟨c, hc⟩ := h.exists_surveyed
  obtain ⟨hlabel, hplace⟩ := hc.initial hx
  have hstart : ∀ x < WellKnown.count, WellKnown.graph.has x .wellKnown := by decide
  refine List.eq_nil_iff_forall_not_mem.mpr fun m hm => ?_
  have he := h.sound.graph.mem_targets_iff.mp (mem_of_mem_listFor hm)
  rcases hc.anchored he rfl with hj | ⟨hsyn, -⟩
  · exact absurd hj.placed.1 (by simp [hplace])
  · exact (isSynthesized_iff.mp hsyn).2 ((has_congr hlabel .wellKnown).trans (hstart x hx))

/-- Members of what is declared are declared. -/
theorem Reachable.declarations_of_mem_publicMembers (h : w.Reachable) (hx : w.graph.IsPlain x)
    (hm : m ∈ w.graph.publicMembers x) : w.graph.declarations m ≠ [] := by
  obtain ⟨c, hc⟩ := h.exists_surveyed
  rcases hx with hlt | ⟨hdecl, -⟩
  · rw [h.publicMembers_eq_nil_of_initial hlt] at hm
    exact absurd hm List.not_mem_nil
  · have he := h.sound.graph.mem_targets_iff.mp (mem_of_mem_listFor hm)
    rcases hc.anchored he rfl with hj | ⟨hsyn, -⟩
    · obtain ⟨q, hq⟩ := Option.isSome_iff_exists.mp hj.placed.2
      exact hc.declarations_ne_nil hq
    · obtain ⟨d, hd⟩ := List.exists_mem_of_ne_nil _ hdecl
      exact absurd (isSynthesized_iff.mp hsyn).1 (h.sound.graph.declarable hd).1

/-- An alias that is not resolved has no members, and neither has the error symbol. -/
theorem Reachable.publicMembers_followAlias (h : w.Reachable) (x : SymbolId) :
    w.graph.publicMembers (w.graph.followAlias x) = w.graph.publicMembers (w.graph.holder x) := by
  by_cases hk : w.graph.kind? x = some .alias
  · have halias : w.graph.publicMembers x = [] := publicMembers_eq_nil hk rfl
    have herror := h.publicMembers_eq_nil_of_initial (x := WellKnown.error) (by decide)
    simp only [followAlias, holder, hk, standsFor, beq_self_eq_true, if_true]
    cases w.graph.firstTarget x .typedAs with
    | some t => rfl
    | none => exact halias.trans herror.symm
  · simp [followAlias, holder, hk]

theorem Reachable.isPlain_holder (h : w.Reachable) (hx : w.graph.declarations x ≠ []) :
    w.graph.IsPlain (w.graph.holder x) := by
  unfold holder
  split
  · next hk => exact h.searchable.isPlain_standsFor hk
  · next hk => exact .inr ⟨hx, hk⟩

/-- By induction on the segments. All that is passed on the way is declared. -/
theorem Reachable.memberAlong?_eq_walk? (h : w.Reachable) (hx : w.graph.declarations x ≠ [])
    (segments : List String) :
    w.graph.memberAlong? meaning x segments = w.graph.walk? meaning x segments := by
  induction segments generalizing x with
  | nil => rfl
  | cons segment rest ih =>
      have hmembers : ∀ m ∈ w.graph.publicMembers (w.graph.holder x),
          w.graph.declarations m ≠ [] := fun m hm =>
        h.declarations_of_mem_publicMembers (h.isPlain_holder hx) hm
      have hfind : (w.graph.publicMembers (w.graph.holder x)).find?
            (w.graph.isNamed segment (meaning.atSegment rest)) =
          (w.graph.publicMembers (w.graph.holder x)).find?
            (w.graph.admits segment (meaning.atSegment rest)) :=
        List.find?_congr fun m hm => isNamed_eq_admits (hmembers m hm)
      rw [memberAlong?, walk?, h.publicMembers_followAlias, hfind]
      cases hnext : (w.graph.publicMembers (w.graph.holder x)).find?
          (w.graph.admits segment (meaning.atSegment rest)) with
      | none => rfl
      | some next => exact ih (of_admits (List.find?_some hnext)).2

/-! ### Global names -/

/-- What is listed under a name has the name. -/
theorem Reachable.name_of_global (h : w.Reachable) (hx : x ∈ w.program.globalSymbols name) :
    w.graph.name x = name := by
  obtain ⟨c, hc⟩ := h.exists_surveyed
  obtain ⟨q, hq⟩ := hc.exists_place (h.declarations_ne_nil_of_global hx)
  obtain ⟨u, hu, hlisted⟩ := List.mem_flatMap.mp (List.mem_eraseDups.mp hx)
  rw [hc.charted.name hq]
  exact ((hc.charted.listed hu hlisted).2 q hq).2

/-- Both lookups begin with the same global symbols. -/
theorem Reachable.admits_of_global (h : w.Reachable) (hx : x ∈ w.program.globalSymbols name) :
    ((w.graph.kind? x).map meaning.admits).getD false = w.graph.admits name meaning x := by
  have hname := h.name_of_global hx
  rw [← isNamed_eq_admits (h.declarations_ne_nil_of_global hx), isNamed]
  unfold SymbolGraph.kind?
  unfold SymbolGraph.name at hname
  cases hs : w.graph.get? x with
  | none => rfl
  | some s => simp_all

/-- What is found without resolving is what the name denotes. -/
theorem Reachable.find?_eq_denoted? (h : w.Reachable) (segments : List String)
    (meaning : Meaning) :
    w.program.find? w.graph segments meaning =
      w.setting.denoted? w.graph segments [] none meaning := by
  have hscopes : w.setting.scopes [] none = [] := by
    unfold Setting.scopes Program.lexicalScopes
    cases w.setting.options.maxScopePathDepth <;> rfl
  rw [Setting.denoted?, hscopes, List.findSome?_nil, Option.none_or]
  cases segments with
  | nil => rfl
  | cons first rest =>
      change ((w.program.globalSymbols first).filter _).findSome? _ = _
      rw [lookup?, List.filter_congr fun x hx => h.admits_of_global hx, ← List.head?_filterMap,
        ← List.head?_filterMap]
      refine congrArg List.head? (List.filterMap_congr fun x hx => ?_)
      exact h.memberAlong?_eq_walk? (of_admits (List.mem_filter.mp hx).2).2 rest

/-- When all declared aliases are resolved, a name that is resolved from outside all documents is
found as it is without resolving, and nothing changes. -/
theorem Reachable.run_path_eq_find? (h : w.Reachable) (hall : w.graph.Collapsed)
    (segments : List String) (meaning : Meaning) :
    (Request.demand (.path segments [] none meaning)).run w =
      .ok (.symbol (w.program.find? w.graph segments meaning)) w := by
  obtain ⟨found, r, ⟨hsearch, hanswer, -⟩, hrun⟩ := exists_run_of_returns
    (d := .path segments [] none meaning) (finds_findPath h.searchable segments [] none meaning)
  have hidle := hsearch.idle hall
  subst hidle
  have hfound : found = w.setting.denoted? w.graph segments [] none meaning :=
    hanswer w.graph (.refl h.searchable)
  rw [h.find?_eq_denoted?]
  subst hfound
  exact hrun

/-- A module that has a second name by way of an alias in another document, and two aliases for
nothing. All aliases are resolved. -/
def aliasedModule : Workspace := (ofOptions {}).after
  [.setStatements "one.ts" do
      let v ← Build.singleVariable "v" (Flags.single .exported) none none
      let n ← Build.moduleDecl "N" (Flags.single .exported) [v]
      return [← Build.moduleDecl "M" ∅ [n], ← Build.importEquals "B" ∅ "B"],
    .setStatements "two.ts" do
      let b ← Build.importEquals "B" ∅ "A.M"
      return [← Build.importEquals "A" ∅ "M.N", b],
    .demand (.symbol 11), .demand (.symbol 12), .demand (.symbol 13)]

/-- The variable is found by way of the alias, whichever way it is looked up. -/
theorem run_path_eq_find?_aliasedModule : aliasedModule.Reachable ∧
    aliasedModule.graph.Collapsed ∧ aliasedModule.graph.kind? 12 = some .alias ∧
    aliasedModule.program.find? aliasedModule.graph ["A", "v"] .any = some 10 ∧
    (Request.demand (.path ["A", "v"] [] none .any)).run aliasedModule =
      .ok (.symbol (aliasedModule.program.find? aliasedModule.graph ["A", "v"] .any))
        aliasedModule := by
  have hreach : aliasedModule.Reachable := ⟨_, _, rfl⟩
  have hbelow : ∀ a < aliasedModule.graph.size, aliasedModule.graph.kind? a = some .alias →
      aliasedModule.graph.isResolved a := by
    decide +kernel
  have hall : aliasedModule.graph.Collapsed := fun a ha _ => hbelow a (lt_size_of_kind? ha) ha
  exact ⟨hreach, hall, by decide +kernel, by decide +kernel,
    hreach.run_path_eq_find? hall ["A", "v"] .any⟩

end Workspace

end NameBinding
