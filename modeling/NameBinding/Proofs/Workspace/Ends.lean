import NameBinding.Proofs.Resolve.Approximation
import NameBinding.Proofs.Workspace.Failure

/-! # Resolving ends

Main statement: over documents in which no node is below itself, and whatever was requested before,
every demand comes to an end, and the bounds on the ways down decide nothing. -/

namespace NameBinding

open SymbolGraph ResolveM

namespace Workspace

variable {w : Workspace} {d : Demand} {e : BindError}

/-- Resolving comes to an end by itself. A bound that was used up would be a failure, which no step
hides, and larger bounds give the same. -/
structure Ends (w : Workspace) : Prop where
  /-- No bound is used up on any way down, be it through bases or through type nodes. -/
  demand : ∀ d : Demand, ∀ e ∈ (Request.demand d).error? w, ¬e.isEndless
  /-- The levels of a dotted name. -/
  name : ∀ u ∈ w.program.units, ∀ r depth, u.tree.size < depth →
    u.tree.segmentsWithin depth r = u.tree.segmentsWithin (u.tree.size + 1) r
  /-- The levels of a type node. -/
  typeNode : ∀ u ∈ w.program.units, ∀ r context enclosing levels, u.tree.size < levels →
    typeWithin w.setting ⟨u.tree, u.path, context, enclosing⟩ levels r ⟨w.graph, w.diagnostics⟩ =
      typeAt w.setting ⟨u.tree, u.path, context, enclosing⟩ r ⟨w.graph, w.diagnostics⟩
  /-- The types that are bases of each other. -/
  bases : ∀ type types, w.graph.size < types →
    pullWithin w.setting types type ⟨w.graph, w.diagnostics⟩ =
      pull w.setting type ⟨w.graph, w.diagnostics⟩

theorem Reachable.not_isEndless (h : w.Reachable) (htrees : w.program.HasTrees)
    (herror : (Request.demand d).error? w = some e) : ¬e.isEndless := by
  intro he
  cases hf : d.failure? w.setting w.graph with
  | some failure =>
      have hsome := (h.error?_of_failure hf).1.symm.trans herror
      exact (Demand.failure?_cases hf).1 (Option.some.inj hsome ▸ he)
  | none =>
      have hmeets := d.meets_run h.answerable
      rw [hf] at hmeets
      obtain ⟨answer, w', hr, -⟩ := exists_run_demand htrees hmeets.succeeds
      rw [Request.error?, hr] at herror
      exact absurd herror (by simp)

/-- Bases and aliases that come back to where they started, also on the way to a dotted name, and type
nodes of any depth come to an end: a type is marked before its bases are resolved and an alias before
its target is, so that each is begun once, and type nodes only lead further down. -/
theorem ends_after (options : Options) (requests : List Request)
    (h : ∀ request ∈ requests, request.SetsTree) : ((ofOptions options).after requests).Ends := by
  have hreach : ((ofOptions options).after requests).Reachable := ⟨options, requests, rfl⟩
  have htrees := hasTrees_after options h
  have ha := hreach.answerable
  generalize (ofOptions options).after requests = w at hreach htrees ha ⊢
  refine ⟨fun d e he => hreach.not_isEndless htrees he, fun u hu r depth hlt => ?_,
    fun u hu r context enclosing levels hlt => ?_, fun type types hlt => ?_⟩
  · exact (htrees u hu).segmentsWithin_eq hlt r
  · have htype : Succeeds w.setting w.graph
        (typeAt w.setting ⟨u.tree, u.path, context, enclosing⟩ r) fun type g => g.DenotesType type :=
      answersType_typeAt ⟨u, hu, rfl⟩ r w.graph ha
    unfold typeAt at htype ⊢
    exact (approximates_typeWithin hlt r).eq_of_succeeds htype htrees
  · rw [run_pull]
    exact (approximates_pullWithin hlt type).eq_of_succeeds (succeeds_pullWithin_size ha type) htrees

/-- Bases that come back to where they started, aliases whose names go through each other, and a type
node of several levels. -/
def knots : List Request :=
  [.setStatements "one.ts" do
      let a ← Build.classDecl "A" ∅ [← Build.typeReference "B"] [← Build.typeReference "I"] []
      let b ← Build.classDecl "B" ∅ [← Build.typeReference "A"] [] []
      let i ← Build.interfaceDecl "I" ∅ [← Build.typeReference "I", ← Build.typeReference "A"] []
      let x ← Build.importEquals "X" ∅ "Y.z"
      let y ← Build.importEquals "Y" ∅ "X.z"
      let field ← Build.propertySignature "q" ∅ (← Build.typeReference "X.z")
      let parameter ← Build.parameter "p" ∅ (← Build.typeLiteral [field])
      let result ← Build.arrayType (← Build.typeReference "A")
      let function ← Build.functionType [parameter] result
      let v ← Build.singleVariable "v" ∅ (← Build.arrayType function) none
      return [a, b, i, x, y, v],
    .demand (.symbol 8)]

/-- Everything ends nonetheless. -/
theorem ends_after_knots : (∀ request ∈ knots, request.SetsTree) ∧
    ((ofOptions {}).after knots).graph.declarations 15 ≠ [] ∧ ((ofOptions {}).after knots).Ends := by
  have hordered : ∀ request ∈ knots, ∀ tree ∈ request.tree?, tree.Ordered := by decide +kernel
  have htrees : ∀ request ∈ knots, request.SetsTree := fun request hr tree ht =>
    (hordered request hr tree ht).isTree
  exact ⟨htrees, by decide +kernel, ends_after {} knots htrees⟩

end Workspace

end NameBinding
