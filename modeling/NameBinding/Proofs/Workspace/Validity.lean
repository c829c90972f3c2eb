import NameBinding.Proofs.Workspace.Sound
import NameBinding.Workspace.Validation

/-! # Validation of reachable workspaces

Main statement: whatever is requested, validation finds nothing wrong but symbols that have edges
and no declaration. -/

namespace NameBinding

open SymbolGraph

namespace Violation

/-- A symbol that has edges and no declaration. Resolving a symbol that lost its declarations can
leave it so. -/
def isOrphan : Violation → Bool
  | .orphan .. => true
  | _ => false

end Violation

namespace SymbolGraph.Sound

variable {g : SymbolGraph} {id : SymbolId} {s : Symbol}

theorem outgoingViolations_eq_nil (h : g.Sound) (hs : g.get? id = some s) :
    g.outgoingViolations id s = [] := by
  have hout : g.outgoing id = s.outgoing := by simp [outgoing, hs]
  refine List.flatMap_eq_nil_iff.mpr fun e he => ?_
  obtain ⟨rfl, he⟩ := h.mem_outgoing_iff.mp (hout ▸ he)
  have hlisted : g.isListedAtTarget e :=
    List.contains_iff_mem.mpr (h.mem_incoming_iff.mpr ⟨rfl, he⟩)
  by_cases hm : e.kind.isMembership
  · have hp : g.isPaired e.source e.target := beq_iff_eq.mpr (h.isPaired hm he)
    simp [hlisted, hp]
  · simp [hlisted, hm]

theorem incomingViolations_eq_nil (h : g.Sound) (hs : g.get? id = some s) :
    g.incomingViolations s = [] := by
  have hin : g.incoming id = s.incoming := by simp [incoming, hs]
  refine List.flatMap_eq_nil_iff.mpr fun e he => ?_
  rw [if_pos (h.mem_incoming_iff.mp (hin ▸ he)).2]

theorem classViolations_eq_nil (h : g.Sound) (hs : g.get? id = some s) :
    g.classViolations id s = [] := by
  unfold classViolations
  by_cases hc : s.kind = .classType ∧ s.isDeclared
  · have hk : g.kind? id = some .classType := by simp [kind?, hs, hc.1]
    obtain ⟨d, hd⟩ : ∃ d, d ∈ g.declarations id := by
      refine List.exists_mem_of_ne_nil _ fun hnil => ?_
      simp [SymbolGraph.declarations, hs] at hnil
      simp [Symbol.isDeclared, hnil] at hc
    obtain ⟨inst, he⟩ := h.hasSide hk hd
    have hinst := (h.isSide he).2.1
    have hne : inst ≠ id := by
      rintro rfl
      simp [hk] at hinst
    have ht : s.targets .instanceType = [inst] := by
      simpa [targets, hs] using h.sides.targets_eq h.toMirrored he
    have hdual : g.isDualClass id s := by simp [isDualClass, ht, hne, hinst]
    simp [hdual]
  · rw [if_neg]
    simp only [Bool.and_eq_true, beq_iff_eq]
    exact fun hn => hc hn.1

theorem arrayViolations_eq_nil (h : g.Sound) (hs : g.get? id = some s) :
    arrayViolations id s = [] := by
  have hle := h.arrays.length_sources_le h.toMirrored id
  have hsources : g.sources id .arrayOf = s.sources .arrayOf := by simp [sources, hs]
  rw [hsources] at hle
  exact if_neg (Nat.not_lt.mpr hle)

theorem isOrphan_of_mem_orphanViolations {v : Violation} (hv : v ∈ orphanViolations id s) :
    v.isOrphan := by
  unfold orphanViolations at hv
  split at hv
  · rw [List.mem_singleton.mp hv]
    rfl
  · exact absurd hv List.not_mem_nil

end SymbolGraph.Sound

namespace Workspace

variable {w : Workspace}

theorem Sound.declarationViolations_eq_nil (h : w.Sound) {id : SymbolId} {s : Symbol}
    (hs : w.graph.get? id = some s) : w.declarationViolations id s = [] := by
  refine List.flatMap_eq_nil_iff.mpr fun d hd => if_neg ?_
  have hmem : d ∈ w.graph.declarations id := by simpa [SymbolGraph.declarations, hs] using hd
  simpa using Option.isSome_iff_ne_none.mp (h.known hmem)

theorem Sound.unitViolations_eq_nil (h : w.Sound) {u : CompilationUnit}
    (hu : u ∈ w.program.units) : w.unitViolations u = [] := by
  refine List.flatMap_eq_nil_iff.mpr fun d hd => ?_
  have hdecl : w.program.decl? d.id = some d := h.program.decl?_id hu hd
  split
  · next symbol hsymbol =>
    exact if_pos (List.contains_iff_mem.mpr (h.listed hdecl hsymbol))
  · rfl

theorem Sound.isOrphan_of_mem_violations (h : w.Sound) {v : Violation} (hv : v ∈ w.violations) :
    v.isOrphan := by
  rcases List.mem_append.mp hv with hv | hv
  · obtain ⟨id, -, hv⟩ := List.mem_flatMap.mp hv
    unfold symbolViolations at hv
    split at hv
    · exact absurd hv List.not_mem_nil
    · next s hs =>
      rw [h.graph.outgoingViolations_eq_nil hs, h.graph.incomingViolations_eq_nil hs,
        h.graph.classViolations_eq_nil hs, h.graph.arrayViolations_eq_nil hs,
        h.declarationViolations_eq_nil hs] at hv
      exact SymbolGraph.Sound.isOrphan_of_mem_orphanViolations (by simpa using hv)
  · obtain ⟨u, hu, hv⟩ := List.mem_flatMap.mp hv
    rw [h.unitViolations_eq_nil hu] at hv
    exact absurd hv List.not_mem_nil

/-- Validation reports no one-sided edge, no unpaired membership, no broken class, no second array
type and no declaration that its symbol does not know or the other way round: in no workspace that
edits and demands of any kind lead to. -/
theorem violations_after_all_isOrphan (options : Options) (requests : List Request) :
    ((ofOptions options).after requests).violations.all Violation.isOrphan := by
  rw [List.all_eq_true]
  intro v hv
  exact ((sound_ofOptions options).after requests).isOrphan_of_mem_violations hv

end Workspace

end NameBinding
