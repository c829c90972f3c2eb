import NameBinding.Proofs.Resolve.Change
import NameBinding.Resolve.Path

/-! # What resolving leaves as it is

What was there before names are resolved keeps its label, and its edges from declarations in their
order. So whatever is read from these is the same at all times. -/

namespace NameBinding

/-- The edges that declarations make, in their order. -/
def boundEdges (edges : List Edge) : List Edge := edges.filter (·.kind.isStructural)

theorem boundEdges_append (edges edges' : List Edge) :
    boundEdges (edges ++ edges') = boundEdges edges ++ boundEdges edges' := List.filter_append _ _

theorem boundEdges_of_not_isStructural {e : Edge} (h : ¬e.kind.isStructural) :
    boundEdges [e] = [] := by
  simp [boundEdges, h]

/-- Edges of such kinds are found among them. -/
theorem filter_boundEdges {p : Edge → Bool} (hp : ∀ e, p e → e.kind.isStructural)
    (edges : List Edge) : (boundEdges edges).filter p = edges.filter p := by
  rw [boundEdges, List.filter_filter]
  refine List.filter_congr fun e _ => ?_
  cases h : p e with
  | false => rfl
  | true => simp [hp e h]

theorem EdgeKind.not_isStructural_of_isResolution {kind : EdgeKind} (h : kind.isResolution) :
    ¬kind.isStructural := by
  simp [isStructural, h]

namespace SymbolGraph

variable {setting : Setting} {g₀ g g' : SymbolGraph} {n : Nat} {e : Edge} {x : SymbolId}

/-! ### The edges from declarations -/

/-- An edge that no declaration makes is not seen. -/
theorem boundEdges_addEdge (hk : ¬e.kind.isStructural) (x : SymbolId) :
    boundEdges ((g.addEdge e).outgoing x) = boundEdges (g.outgoing x) ∧
      boundEdges ((g.addEdge e).incoming x) = boundEdges (g.incoming x) := by
  have hm : e.kind.isMembership = false := by
    cases hkind : e.kind <;>
      simp_all [EdgeKind.isStructural, EdgeKind.isMembership, EdgeKind.isResolution]
  have happend : ∀ es, boundEdges (es ++ [e]) = boundEdges es := fun es => by
    rw [boundEdges_append, boundEdges_of_not_isStructural hk, List.append_nil]
  simp only [addEdge, hm, Bool.false_eq_true, if_false, outgoing_insertEdge, incoming_insertEdge]
  constructor
  · split
    · exact happend _
    · rfl
  · split
    · exact happend _
    · rfl

theorem boundEdges_removeEdge (hg : g.Mirrored) (hk : e.kind.isResolution) (x : SymbolId) :
    boundEdges ((g.removeEdge e).outgoing x) = boundEdges (g.outgoing x) ∧
      boundEdges ((g.removeEdge e).incoming x) = boundEdges (g.incoming x) := by
  have hstays : ∀ es : List Edge, boundEdges (es.filter (!g.fallsWith e ·)) = boundEdges es := by
    intro es
    rw [boundEdges, boundEdges, List.filter_filter]
    refine List.filter_congr fun y _ => ?_
    cases hy : y.kind.isStructural with
    | false => rfl
    | true =>
        have hfalls : ¬g.fallsWith e y := by
          rw [fallsWith_iff_of_plain (EdgeKind.not_isMembership_of_isResolution hk)
            (EdgeKind.ne_containedBy_of_isResolution hk)]
          rintro ⟨-, rfl⟩
          exact EdgeKind.not_isStructural_of_isResolution hk hy
        simp [hfalls]
  rw [outgoing_removeEdge hg, incoming_removeEdge hg]
  exact ⟨hstays _, hstays _⟩

/-- The lists of other symbols stay. -/
theorem edges_addEdge_of_ne (hs : x ≠ e.source) (ht : x ≠ e.target) :
    (g.addEdge e).outgoing x = g.outgoing x ∧ (g.addEdge e).incoming x = g.incoming x := by
  unfold addEdge
  split
  · simp [outgoing_insertEdge, incoming_insertEdge, Edge.backward, hs, ht]
  · simp [outgoing_insertEdge, incoming_insertEdge, hs, ht]

theorem Change.boundEdges_eq (h : Change setting n g g') (hg : g.WellFormed) (hx : x < n) :
    boundEdges (g'.outgoing x) = boundEdges (g.outgoing x) ∧
      boundEdges (g'.incoming x) = boundEdges (g.incoming x) := by
  cases h with
  | mark id => simp
  | make name kind flags => simp
  | point e hk => exact boundEdges_addEdge (EdgeKind.not_isStructural_of_isResolution hk) x
  | drop e hk => exact boundEdges_removeEdge hg.toMirrored hk x
  | array e hk => exact boundEdges_addEdge (by simp [hk, EdgeKind.isStructural]) x
  | part e hk hs ht hns hnt =>
      obtain ⟨hout, hin⟩ := edges_addEdge_of_ne (g := g) (Nat.ne_of_lt (Nat.lt_of_lt_of_le hx hns))
        (Nat.ne_of_lt (Nat.lt_of_lt_of_le hx hnt))
      rw [hout, hin]
      exact ⟨rfl, rfl⟩

theorem admits_congr (h : g'.label? x = g.label? x) (name : String) (meaning : Meaning) :
    g'.admits name meaning x = g.admits name meaning x := by
  have hadmits : ∀ g : SymbolGraph, g.admits name meaning x = ((g.label? x).map fun s =>
      s.name == name && s.isDeclared && meaning.admits s.kind).getD false := by
    intro g
    rw [admits, label?]
    cases g.get? x <;> rfl
  rw [hadmits, hadmits, h]

/-- What is admitted has the name and is declared. -/
theorem of_admits {name : String} {meaning : Meaning} (h : g.admits name meaning x) :
    g.name x = name ∧ g.declarations x ≠ [] := by
  unfold admits at h
  cases hx : g.get? x with
  | none => simp [hx] at h
  | some y =>
      simp only [hx, Bool.and_eq_true, beq_iff_eq] at h
      exact ⟨by simpa [SymbolGraph.name, hx] using h.1.1,
        by simpa [SymbolGraph.declarations, hx, Symbol.isDeclared] using h.1.2⟩

/-! ### What is read of a symbol -/

namespace Resolves

section Reads

variable (h : Resolves setting g₀ g) (h₀ : g₀.WellFormed) (hx : x < g₀.size)

include h h₀ hx

/-- By induction on the changes. -/
theorem boundEdges_eq : boundEdges (g.outgoing x) = boundEdges (g₀.outgoing x) ∧
    boundEdges (g.incoming x) = boundEdges (g₀.incoming x) := by
  induction h with
  | refl => exact ⟨rfl, rfl⟩
  | tail h hc ih =>
      obtain ⟨hout, hin⟩ := hc.boundEdges_eq (wellFormed h h₀) hx
      exact ⟨hout.trans ih.1, hin.trans ih.2⟩

theorem filter_outgoing {p : Edge → Bool} (hp : ∀ e, p e → e.kind.isStructural) :
    (g.outgoing x).filter p = (g₀.outgoing x).filter p := by
  rw [← filter_boundEdges hp, (h.boundEdges_eq h₀ hx).1, filter_boundEdges hp]

theorem filter_incoming {p : Edge → Bool} (hp : ∀ e, p e → e.kind.isStructural) :
    (g.incoming x).filter p = (g₀.incoming x).filter p := by
  rw [← filter_boundEdges hp, (h.boundEdges_eq h₀ hx).2, filter_boundEdges hp]

theorem targets_eq {kind : EdgeKind} (hk : kind.isStructural) :
    g.targets x kind = g₀.targets x kind := by
  rw [SymbolGraph.targets_eq, SymbolGraph.targets_eq, h.filter_outgoing h₀ hx]
  intro e he
  rwa [beq_iff_eq.mp he]

theorem sources_eq {kind : EdgeKind} (hk : kind.isStructural) :
    g.sources x kind = g₀.sources x kind := by
  rw [SymbolGraph.sources_eq, SymbolGraph.sources_eq, h.filter_incoming h₀ hx]
  intro e he
  rwa [beq_iff_eq.mp he]

theorem instanceType?_eq : g.instanceType? x = g₀.instanceType? x :=
  congrArg List.head? (h.targets_eq h₀ hx rfl)

theorem classOfInstance?_eq : g.classOfInstance? x = g₀.classOfInstance? x :=
  congrArg List.head? (h.sources_eq h₀ hx rfl)

theorem publicMembers_eq : g.publicMembers x = g₀.publicMembers x := by
  rw [publicMembers, publicMembers, listFor, listFor, kind?_congr (h.label? hx),
    h.targets_eq h₀ hx rfl]

theorem parameters_eq : g.parameters x = g₀.parameters x := by
  rw [parameters, parameters, listFor, listFor, kind?_congr (h.label? hx), h.targets_eq h₀ hx rfl]

theorem members_eq : g.members x = g₀.members x := by
  rw [members, members, listFor, listFor, kind?_congr (h.label? hx), h.filter_outgoing h₀ hx]
  intro e he
  cases hk : e.kind <;> simp_all [EdgeKind.isMembership, EdgeKind.isStructural, EdgeKind.isResolution]

/-- What is inside a class is inside of it or of its instance side. -/
theorem scopeChildren_eq : g.scopeChildren x = g₀.scopeChildren x := by
  have hchildren : ∀ {y}, y < g₀.size → g.children y = g₀.children y := fun hy =>
    h.sources_eq h₀ hy rfl
  rw [scopeChildren, scopeChildren, hchildren hx, h.instanceType?_eq h₀ hx]
  cases hinst : g₀.instanceType? x with
  | none => rfl
  | some y =>
      have he : g₀.hasEdge ⟨x, y, .instanceType⟩ := h₀.mem_targets_iff.mp (List.mem_of_head? hinst)
      rw [Option.map_some, Option.map_some, hchildren (h₀.lt_size he).2]

theorem callSignatures_eq : g.callSignatures x = g₀.callSignatures x := by
  have hdefinition : ∀ y ∈ g₀.targets x .callSignature, g.isDefinition y = g₀.isDefinition y := by
    intro y hy
    exact has_congr (h.label? (h₀.lt_size (h₀.mem_targets_iff.mp hy)).2) .definition
  rw [callSignatures, callSignatures, listFor, listFor, kind?_congr (h.label? hx),
    orderedSignatures, orderedSignatures, h.targets_eq h₀ hx rfl,
    List.filter_congr fun y hy => congrArg (!·) (hdefinition y hy), List.filter_congr hdefinition]

theorem container?_eq : g.container? x = g₀.container? x := by
  have hfind : ∀ es : List Edge, es.find? (fun e => e.kind.isSignature || e.kind == .parameter) =
      (es.filter fun e => e.kind.isSignature || e.kind == .parameter).head? := fun es =>
    List.head?_filter.symm
  rw [container?, container?, firstTarget, firstTarget, firstSource, firstSource,
    h.targets_eq h₀ hx rfl, h.sources_eq h₀ hx rfl, hfind, hfind, h.filter_incoming h₀ hx]
  intro e he
  cases hk : e.kind <;> simp_all [EdgeKind.isSignature, EdgeKind.isStructural, EdgeKind.isResolution]

end Reads

end Resolves

end SymbolGraph

end NameBinding
