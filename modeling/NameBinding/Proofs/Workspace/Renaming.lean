import NameBinding.Proofs.Workspace.Shape

/-! # Snapshots up to the positions of symbols

Two workspaces whose symbols are matched, so that matched symbols have the same labels and edges to
matched symbols, have the same shape. -/

namespace NameBinding

open SymbolGraph

/-- Each symbol of the first graph has one counterpart in the second one, with the same label and
with edges to the counterparts of the same symbols. -/
structure SymbolGraph.Embeds (R : SymbolId → SymbolId → Prop) (g g' : SymbolGraph) : Prop where
  total : ∀ {x}, x < g.size → ∃ y, R x y
  unique : ∀ {x y z}, R x y → R x z → y = z
  label : ∀ {x y}, R x y → g'.label? y = g.label? x
  edge : ∀ {e : Edge} {y}, g.hasEdge e → R e.source y → ∃ z, R e.target z ∧
    g'.hasEdge ⟨y, z, e.kind⟩

namespace Workspace

variable {w w' : Workspace} {R : SymbolId → SymbolId → Prop} {x y : SymbolId}

/-- Dead symbols are not in the snapshot. -/
theorem kindOf?_snapshot_of_not_live (h : ¬w.IsLive x) : w.snapshot.kindOf? x = none := by
  have hnone : w.graph.views.reverse.find? (fun v => v.id == x) = none := by
    refine List.find?_eq_none.mpr fun v hv hid => h ?_
    obtain ⟨s, hs, hlive, -⟩ := mem_views_iff.mp (List.mem_reverse.mp hv)
    rw [beq_iff_eq] at hid
    exact ⟨s, hid ▸ hs, hlive⟩
  exact congrArg (Option.map SymbolView.kind) hnone

/-- What makes a symbol live. -/
theorem isLive_iff_label (hw : w.graph.Mirrored) : w.IsLive x ↔
    (∃ s, w.graph.label? x = some s ∧ (s.isDeclared ∨ s.has .wellKnown)) ∨
      ∃ e : Edge, w.graph.hasEdge e ∧ e.source = x := by
  have hedges : ∀ {s}, w.graph.get? x = some s → w.graph.outgoing x = s.outgoing := by
    intro s hs
    rw [outgoing, hs]
    rfl
  constructor
  · rintro ⟨s, hs, hlive⟩
    have hlabel : w.graph.label? x = some s.label := by
      rw [label?, hs, Option.map_some]
    simp only [isLive, Bool.or_eq_true, Bool.not_eq_true', List.isEmpty_eq_false_iff] at hlive
    rcases hlive with (hdecl | hout) | hwk
    · exact .inl ⟨s.label, hlabel, .inl hdecl⟩
    · obtain ⟨e, he⟩ := List.exists_mem_of_ne_nil _ hout
      obtain ⟨hsource, hedge⟩ := hw.mem_outgoing_iff.mp (hedges hs ▸ he)
      exact .inr ⟨e, hedge, hsource.symm⟩
    · exact .inl ⟨s.label, hlabel, .inr hwk⟩
  · rintro (⟨t, ht, hlive⟩ | ⟨e, he, rfl⟩)
    · obtain ⟨s, hs, rfl⟩ := Option.map_eq_some_iff.mp ht
      refine ⟨s, hs, ?_⟩
      rw [isLive, Bool.or_eq_true, Bool.or_eq_true]
      exact hlive.imp .inl id
    · have hmem := hw.mem_outgoing_iff.mpr ⟨rfl, he⟩
      obtain ⟨s, hs⟩ := Option.isSome_iff_exists.mp
        ((isSome_get? w.graph e.source).trans (decide_eq_true (hw.lt_size he).1))
      refine ⟨s, hs, ?_⟩
      rw [hedges hs] at hmem
      simp [isLive, List.ne_nil_of_mem hmem]

/-- The symbols of the two workspaces are matched. -/
structure Matches (R : SymbolId → SymbolId → Prop) (w w' : Workspace) : Prop where
  left : w.graph.Mirrored
  right : w'.graph.Mirrored
  embeds : SymbolGraph.Embeds R w.graph w'.graph
  embedsBack : SymbolGraph.Embeds (flip R) w'.graph w.graph

namespace Matches

theorem flip (h : Matches R w w') : Matches (flip R) w' w :=
  ⟨h.right, h.left, h.embedsBack, h.embeds⟩

theorem isLive (h : Matches R w w') (hxy : R x y) (hx : w.IsLive x) : w'.IsLive y := by
  rw [isLive_iff_label h.left] at hx
  rw [isLive_iff_label h.right, h.embeds.label hxy]
  refine hx.imp_right ?_
  rintro ⟨e, he, rfl⟩
  obtain ⟨z, -, he'⟩ := h.embeds.edge he hxy
  exact ⟨_, he', rfl⟩

theorem kindOf?_eq (h : Matches R w w') (hxy : R x y) :
    w.snapshot.kindOf? x = w'.snapshot.kindOf? y := by
  by_cases hx : w.IsLive x
  · rw [kindOf?_snapshot hx, kindOf?_snapshot (h.isLive hxy hx), kind?_eq, kind?_eq,
      h.embeds.label hxy]
  · have hy : ¬w'.IsLive y := fun hy => hx (h.flip.isLive hxy hy)
    rw [kindOf?_snapshot_of_not_live hx, kindOf?_snapshot_of_not_live hy]

/-- The edges of matched symbols have the same lines, up to their order. -/
theorem perm_edgeLines (h : Matches R w w') (hxy : R x y) :
    ((w.graph.outgoing x).map fun e =>
        w.snapshot.edgeLine ⟨e.kind, e.target, w.graph.name e.target⟩).Perm
      ((w'.graph.outgoing y).map fun e =>
        w'.snapshot.edgeLine ⟨e.kind, e.target, w'.graph.name e.target⟩) := by
  refine perm_map_of_matching (R := fun e e' => e.source = x ∧ e'.source = y ∧
    e'.kind = e.kind ∧ R e.target e'.target) (h.left.nodup_outgoing x) (h.right.nodup_outgoing y)
    (fun e he => ?_) (fun e' he' => ?_) ?_ ?_ ?_
  · obtain ⟨rfl, hedge⟩ := h.left.mem_outgoing_iff.mp he
    obtain ⟨z, hz, he'⟩ := h.embeds.edge hedge hxy
    exact ⟨_, h.right.mem_outgoing_iff.mpr ⟨rfl, he'⟩, rfl, rfl, rfl, hz⟩
  · obtain ⟨rfl, hedge⟩ := h.right.mem_outgoing_iff.mp he'
    obtain ⟨z, hz, he⟩ := h.embedsBack.edge hedge hxy
    exact ⟨_, h.left.mem_outgoing_iff.mpr ⟨rfl, he⟩, rfl, rfl, rfl, hz⟩
  · rintro ⟨s, t, k⟩ ⟨s₁, t₁, k₁⟩ ⟨s₂, t₂, k₂⟩ ⟨-, hs₁, hk₁, ht₁⟩ ⟨-, hs₂, hk₂, ht₂⟩
    simp only [Edge.mk.injEq]
    exact ⟨hs₁.trans hs₂.symm, h.embeds.unique ht₁ ht₂, hk₁.trans hk₂.symm⟩
  · rintro ⟨s₁, t₁, k₁⟩ ⟨s₂, t₂, k₂⟩ ⟨s, t, k⟩ ⟨hs₁, -, hk₁, ht₁⟩ ⟨hs₂, -, hk₂, ht₂⟩
    simp only [Edge.mk.injEq]
    exact ⟨hs₁.trans hs₂.symm, h.embedsBack.unique ht₁ ht₂, hk₁.symm.trans hk₂⟩
  · rintro e - e' - ⟨-, -, hkind, htarget⟩
    simp only [Snapshot.edgeLine, h.kindOf?_eq htarget, hkind, name_eq, h.embeds.label htarget]

theorem symbolLine_eq (h : Matches R w w') (hxy : R x y) {s s' : Symbol}
    (hs : w.graph.get? x = some s) (hs' : w'.graph.get? y = some s') :
    w.snapshot.symbolLine (w.graph.view x s) = w'.snapshot.symbolLine (w'.graph.view y s') := by
  have hlabel : s'.label = s.label := by
    have hsame := h.embeds.label hxy
    rw [label?, label?, hs, hs', Option.map_some, Option.map_some] at hsame
    exact Option.some.inj hsame
  have hfield : ∀ {α : Type} (field : Symbol → α), field s'.label = field s.label := fun field =>
    congrArg field hlabel
  have hkind : s'.kind = s.kind := hfield Symbol.kind
  have hname : s'.name = s.name := hfield Symbol.name
  have hflags : s'.flags = s.flags := hfield Symbol.flags
  have hdecls : s'.declarations = s.declarations := hfield Symbol.declarations
  have hlines := Snapshot.sortLines_eq_iff.mpr (h.perm_edgeLines hxy)
  simp only [outgoing, hs, hs', Option.map_some, Option.getD_some] at hlines
  simp only [Snapshot.symbolLine, view, hkind, hname, hflags, hdecls, List.map_map,
    Function.comp_def, hlines]

theorem exists_view (h : Matches R w w') {v : SymbolView} (hv : v ∈ w.graph.views) :
    ∃ v' ∈ w'.graph.views, R v.id v'.id := by
  obtain ⟨s, hs, hlive, -⟩ := mem_views_iff.mp hv
  have hlt : v.id < w.graph.size := by
    have hsome := isSome_get? w.graph v.id
    rw [hs] at hsome
    simpa using hsome.symm
  obtain ⟨y, hy⟩ := h.embeds.total hlt
  obtain ⟨s', hs', hlive'⟩ := h.isLive hy ⟨s, hs, hlive⟩
  exact ⟨w'.graph.view y s', mem_views_iff.mpr ⟨s', hs', hlive', rfl⟩, hy⟩

/-- The shape does not depend on positions. -/
theorem shape_eq (h : Matches R w w') : w.snapshot.shape = w'.snapshot.shape := by
  refine Snapshot.sortLines_eq_iff.mpr (perm_map_of_matching
    (R := fun v v' => v ∈ w.graph.views ∧ v' ∈ w'.graph.views ∧ R v.id v'.id)
    w.graph.nodup_views w'.graph.nodup_views (fun v hv => ?_) (fun v' hv' => ?_) ?_ ?_ ?_)
  · obtain ⟨v', hv', hR⟩ := h.exists_view hv
    exact ⟨v', hv', hv, hv', hR⟩
  · obtain ⟨v, hv, hR⟩ := h.flip.exists_view hv'
    exact ⟨v, hv, hv, hv', hR⟩
  · rintro v v₁ v₂ ⟨-, hv₁, hR₁⟩ ⟨-, hv₂, hR₂⟩
    exact eq_of_mem_views hv₁ hv₂ (h.embeds.unique hR₁ hR₂)
  · rintro v₁ v₂ v ⟨hv₁, -, hR₁⟩ ⟨hv₂, -, hR₂⟩
    exact eq_of_mem_views hv₁ hv₂ (h.embedsBack.unique hR₁ hR₂)
  · rintro v hv v' hv' ⟨-, -, hR⟩
    obtain ⟨s, hs, -, hview⟩ := mem_views_iff.mp hv
    obtain ⟨s', hs', -, hview'⟩ := mem_views_iff.mp hv'
    rw [hview, hview']
    exact h.symbolLine_eq hR hs hs'

end Matches

end Workspace

end NameBinding
