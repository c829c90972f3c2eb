import NameBinding.Proofs.Resolve.Change

/-! # What holds synthesized types together

A part of a synthesized type belongs to one thing only, so the way from a part to the type around it
is the one that was taken when the part was made. -/

namespace NameBinding

namespace SymbolGraph

variable {setting : Setting} {g g' g₀ : SymbolGraph} {n : Nat} {x y z : SymbolId}

/-- What every step of resolving keeps of synthesized types. -/
structure Composed (g : SymbolGraph) : Prop where
  /-- Nothing belongs to two things. -/
  sole : ∀ {x y z}, g.has z .synthesized → g.IsAround x z → g.IsAround y z → x = y
  array : ∀ {e : Edge}, g.hasEdge e → e.kind = .arrayOf → g.kind? e.source = some .array

/-- The container is around the symbol. -/
theorem isAround_of_container? (h : g.Mirrored) (hx : g.container? x = some y) :
    g.IsAround y x := by
  rw [container?, Option.or_eq_some_iff, Option.or_eq_some_iff] at hx
  rcases hx with hx | ⟨-, hx | ⟨-, hx⟩⟩
  · exact .inl (h.mem_targets_iff.mp (List.mem_of_head? hx))
  · exact .inr ⟨_, rfl, h.mem_sources_iff.mp (List.mem_of_head? hx)⟩
  · obtain ⟨e, he, rfl⟩ := Option.map_eq_some_iff.mp hx
    obtain ⟨rfl, hedge⟩ := h.mem_incoming_iff.mp (List.mem_of_find?_eq_some he)
    refine .inr ⟨e.kind, ?_, hedge⟩
    have hk := List.find?_some he
    cases hkind : e.kind <;> simp_all [EdgeKind.isSole, EdgeKind.isSignature]

theorem IsAround.isSome_container? (h : g.Mirrored) (ha : g.IsAround y x) :
    (g.container? x).isSome := by
  simp only [container?, Option.isSome_or, Bool.or_eq_true, Option.isSome_map, firstTarget,
    firstSource, List.isSome_head?]
  rcases ha with he | ⟨kind, hk, he⟩
  · exact .inl (List.ne_nil_of_mem (h.mem_targets_iff.mpr he))
  · right
    by_cases hside : kind = .instanceType
    · subst hside
      exact .inl (List.ne_nil_of_mem (h.mem_sources_iff.mpr he))
    · refine .inr (List.find?_isSome.mpr ⟨_, h.mem_incoming_iff.mpr ⟨rfl, he⟩, ?_⟩)
      cases kind <;> simp_all [EdgeKind.isSole, EdgeKind.isSignature]

namespace Composed

/-- A part of a synthesized type knows what it belongs to. -/
theorem container?_eq (hc : g.Composed) (h : g.Mirrored) (hx : g.has x .synthesized)
    (ha : g.IsAround y x) : g.container? x = some y := by
  obtain ⟨z, hz⟩ := Option.isSome_iff_exists.mp (ha.isSome_container? h)
  rw [hz, hc.sole hx (isAround_of_container? h hz) ha]

/-- A graph with no more edges at what is synthesized. -/
theorem of_edges (h : g.Composed) (haround : ∀ {x y}, g'.has y .synthesized → g'.IsAround x y →
      g.has y .synthesized ∧ g.IsAround x y)
    (harray : ∀ {e : Edge}, g'.hasEdge e → e.kind = .arrayOf →
      g.hasEdge e ∧ g'.kind? e.source = g.kind? e.source) : g'.Composed where
  sole hz hx hy := by
    obtain ⟨hz', hx⟩ := haround hz hx
    exact h.sole hz' hx (haround hz hy).2
  array he hk := by
    obtain ⟨he, hkind⟩ := harray he hk
    exact hkind.trans (h.array he hk)

end Composed

/-- A change that adds no edge around a symbol and no array type keeps what is composed. -/
theorem Change.composed (h : Change setting n g g') (hg : g.WellFormed) (hc : g.Composed) :
    g'.Composed := by
  have hlabel : ∀ {x}, x < g.size → g'.label? x = g.label? x := fun hx => h.label? hx
  have hsame : ∀ {x}, x < g.size → g'.has x .synthesized = g.has x .synthesized := fun hx =>
    has_congr (hlabel hx) _
  have hkeep (hedge : ∀ {e : Edge}, ¬e.kind.isResolution → g'.hasEdge e → g.hasEdge e) :
      g'.Composed := by
    have hback : ∀ {x y}, g'.IsAround x y → g.IsAround x y := fun ha =>
      ha.of_edges fun hk _ => hedge hk
    refine hc.of_edges (fun hy ha => ?_) fun he hk => ?_
    · have hlt := ((hback ha).lt_size hg.toMirrored).2
      exact ⟨(hsame hlt).symm.trans hy, hback ha⟩
    · have hold := hedge (by simp [hk, EdgeKind.isResolution]) he
      exact ⟨hold, kind?_congr (hlabel (hg.lt_size hold).1)⟩
  cases h with
  | mark id => exact hkeep fun _ he => by simpa [SymbolGraph.hasEdge] using he
  | make name kind flags => exact hkeep fun _ he => by simpa [SymbolGraph.hasEdge] using he
  | point e hk hs ht =>
      refine hkeep fun hk' he => ?_
      obtain he | rfl | ⟨hm, -⟩ := (hasEdge_addEdge hs ht).mp he
      · exact he
      · exact absurd hk hk'
      · exact absurd hm (EdgeKind.not_isMembership_of_isResolution hk)
  | drop e hk => exact hkeep fun _ he => (hg.hasEdge_removeEdge.mp he).1
  | array e hk hs ht hn hfirst harray =>
      have hm : ¬e.kind.isMembership := by simp [hk, EdgeKind.isMembership]
      have hedge {e' : Edge} (he : (g.addEdge e).hasEdge e') : g.hasEdge e' ∨ e' = e :=
        (hasEdge_addEdge_of_plain hs ht hm).mp he
      have hback {x y : SymbolId} (ha : (g.addEdge e).IsAround x y) : g.IsAround x y :=
        ha.of_edges fun _ hk' he => (hedge he).resolve_right fun heq => hk' (heq ▸ hk)
      constructor
      · intro x y z hz hx hy
        have hlt := ((hback hx).lt_size hg.toMirrored).2
        exact hc.sole ((hsame hlt).symm.trans hz) (hback hx) (hback hy)
      · intro e' he hk'
        rw [kind?_congr (label?_addEdge g e e'.source)]
        rcases hedge he with he | rfl
        · exact hc.array he hk'
        · exact harray
  | part e hk hs ht hns hnt hfree =>
      have hedge {e' : Edge} (he : (g.addEdge e).hasEdge e') :
          g.hasEdge e' ∨ e' = e ∨ (e.kind.isMembership ∧ e' = e.backward) :=
        (hasEdge_addEdge hs ht).mp he
      have hback {x y : SymbolId} (ha : (g.addEdge e).IsAround x y) :
          g.IsAround x y ∨ x = e.source ∧ y = e.target := ha.of_addEdge hk hs ht
      constructor
      · intro x y z hz hx hy
        rcases hback hx with hx | ⟨rfl, rfl⟩ <;> rcases hback hy with hy | ⟨rfl, hyt⟩
        · have hlt := (hx.lt_size hg.toMirrored).2
          exact hc.sole ((hsame hlt).symm.trans hz) hx hy
        · exact absurd (hyt ▸ hx) (hfree x)
        · exact absurd hy (hfree y)
        · rfl
      · intro e' he hk'
        rw [kind?_congr (label?_addEdge g e e'.source)]
        rcases hedge he with he | rfl | ⟨-, rfl⟩
        · exact hc.array he hk'
        · simp [hk', EdgeKind.isPart] at hk
        · simp [Edge.backward] at hk'

/-- By induction on the changes. -/
theorem Resolves.composed (h : Resolves setting g₀ g) (h₀ : g₀.WellFormed) (hc : g₀.Composed) :
    g.Composed := by
  induction h with
  | refl => exact hc
  | tail h hchange ih => exact hchange.composed (wellFormed h h₀) ih

end SymbolGraph

end NameBinding
