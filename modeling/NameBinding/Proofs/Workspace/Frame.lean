import NameBinding.Proofs.Workspace.Invalidation

/-! # What demands leave alone

Main statement: a demand changes nothing that was bound. What it makes are synthesized types, and
array types of what was there. -/

namespace NameBinding.Workspace

open SymbolGraph

/-- The second workspace has what is bound in the first one, and besides that only what was made for
types. -/
structure KeepsBound (w w' : Workspace) : Prop where
  program : w'.program = w.program
  /-- Symbols keep their names, kinds, flags and declarations. -/
  label? : ∀ {id}, id < w.graph.size → w'.graph.label? id = w.graph.label? id
  hasEdge_iff : ∀ {e : Edge}, ¬e.kind.isResolution → e.source < w.graph.size →
    e.target < w.graph.size → (w'.graph.hasEdge e ↔ w.graph.hasEdge e)
  /-- A new edge stands between new synthesized symbols, or leads from a new array type to its
  element type. -/
  made : ∀ {e : Edge}, ¬e.kind.isResolution → w'.graph.hasEdge e → ¬w.graph.hasEdge e →
    w.graph.size ≤ e.source ∧ w'.graph.isSynthesized e.source ∧
      ((w.graph.size ≤ e.target ∧ w'.graph.isSynthesized e.target) ∨
        (e.kind = .arrayOf ∧ w'.graph.kind? e.source = some .array))

variable {w : Workspace}

/-- What resolving makes is synthesized. -/
theorem isSynthesized_of_resolves {setting : Setting} {g₀ g : SymbolGraph} {x : SymbolId}
    (h : g₀.Resolves setting g) (hx : g₀.size ≤ x) (hlt : x < g.size) : g.isSynthesized x :=
  isSynthesized_iff.mpr ⟨h.has_synthesized hx hlt, h.not_has_wellKnown hx⟩

theorem keepsBound_of_resolves {g : SymbolGraph} {diagnostics : List Diagnostic}
    (h : w.graph.Resolves w.setting g) (hw : w.graph.WellFormed) (hc : w.graph.Composed) :
    w.KeepsBound { w with graph := g, diagnostics } where
  program := rfl
  label? hid := h.label? hid
  hasEdge_iff {e} hk hs ht := by
    refine ⟨fun he => ?_, h.hasEdge_of_bound hw hk⟩
    rcases h.hasEdge hw he with he | hr | ⟨-, hge⟩ | ⟨-, hge, -⟩
    · exact he
    · exact absurd hr hk
    · exact absurd hs (Nat.not_lt.mpr hge)
    · exact absurd hs (Nat.not_lt.mpr hge)
  made {e} hk he hnew := by
    obtain ⟨hs, ht⟩ := (h.wellFormed hw).lt_size he
    rcases h.hasEdge hw he with hold | hr | ⟨harray, hge⟩ | ⟨-, hge, hge'⟩
    · exact absurd hold hnew
    · exact absurd hr hk
    · exact ⟨hge, isSynthesized_of_resolves h hge hs,
        .inr ⟨harray, (h.composed hw hc).array he harray⟩⟩
    · exact ⟨hge, isSynthesized_of_resolves h hge hs,
        .inl ⟨hge', isSynthesized_of_resolves h hge' ht⟩⟩

/-- Whatever is demanded, and whether or not the demand is met, all that was bound stays. -/
theorem keepsBound_demand (hw : w.Reachable) (d : Demand) :
    w.KeepsBound ((Request.demand d).apply w) := by
  have hwf : w.graph.WellFormed := hw.sound.graph.toWellFormed
  obtain ⟨g, diagnostics, hg, heq⟩ := exists_apply_demand hwf d
  rw [heq]
  exact keepsBound_of_resolves hg hwf hw.composed

/-- A class, and a variable whose type is an array type of a type literal that names the class. -/
def arrayOfLiteral : Workspace := (ofOptions {}).after
  [.setStatements "use.ts" do
    let c ← Build.classDecl "C" ∅ [] [] []
    let m ← Build.propertySignature "m" ∅ (← Build.typeReference "C")
    let v ← Build.singleVariable "v" ∅ (← Build.arrayType (← Build.typeLiteral [m])) none
    return [c, v]]

theorem keepsBound_demand_arrayOfLiteral :
    arrayOfLiteral.Reachable ∧
      arrayOfLiteral.KeepsBound ((Request.demand (.symbol 10)).apply arrayOfLiteral) :=
  have hr : arrayOfLiteral.Reachable := ⟨_, _, rfl⟩
  ⟨hr, keepsBound_demand hr (.symbol 10)⟩

/-- The type literal, its field and the array type are new, and the field has its edge back. -/
example : let w' := (Request.demand (.symbol 10)).apply arrayOfLiteral
    w'.graph.size = arrayOfLiteral.graph.size + 3 ∧
      w'.graph.outgoing 12 = [⟨12, 11, .containedBy⟩, ⟨12, 9, .typedAs⟩] ∧
      w'.graph.outgoing 13 = [⟨13, 11, .arrayOf⟩] := by
  decide +kernel

end NameBinding.Workspace
