import NameBinding.Proofs.Resolve.Honest
import NameBinding.Proofs.Workspace.Adding

/-! # Edits resolve nothing

Edits take answers away and never give one. So what is declared and counts as resolved after an edit
was declared and resolved before, and stands for the same symbols. -/

namespace NameBinding

open SymbolGraph

namespace SymbolGraph

/-- Declared symbols are resolved in the second graph only if they were in the first one, and to the
same symbols. -/
structure Recalls (g g' : SymbolGraph) : Prop where
  edge : ∀ {e : Edge}, g'.hasEdge e → e.kind.isResolution → g'.declarations e.source ≠ [] →
    g.hasEdge e ∧ g.declarations e.source ≠ [] ∧
      g'.kind? e.source = g.kind? e.source ∧ g'.kind? e.target = g.kind? e.target
  resolved : ∀ {x}, g'.declarations x ≠ [] → g'.isResolved x →
    g.declarations x ≠ [] ∧ g.isResolved x ∧ g'.kind? x = g.kind? x ∧
      ∀ {e : Edge}, g.hasEdge e → e.source = x → e.kind.isResolution → g'.hasEdge e

namespace Recalls

variable {g g' g'' : SymbolGraph} {x : SymbolId}

theorem refl (g : SymbolGraph) : g.Recalls g :=
  ⟨fun he _ hdecl => ⟨he, hdecl, rfl, rfl⟩, fun hdecl hr => ⟨hdecl, hr, rfl, fun he _ _ => he⟩⟩

theorem trans (h : g.Recalls g') (h' : g'.Recalls g'') : g.Recalls g'' where
  edge he hk hdecl := by
    obtain ⟨he', hdecl', hsource', htarget'⟩ := h'.edge he hk hdecl
    obtain ⟨he, hdecl, hsource, htarget⟩ := h.edge he' hk hdecl'
    exact ⟨he, hdecl, hsource'.trans hsource, htarget'.trans htarget⟩
  resolved hdecl hr := by
    obtain ⟨hdecl', hr', hkind', hedge'⟩ := h'.resolved hdecl hr
    obtain ⟨hdecl, hr, hkind, hedge⟩ := h.resolved hdecl' hr'
    exact ⟨hdecl, hr, hkind'.trans hkind, fun he hs hk => hedge' (hedge he hs hk) hs hk⟩

theorem invalidateAll (h : g.Recalls g') (ids : List SymbolId) :
    g.Recalls (g'.invalidateAll ids) := by
  have hlabel := label?_invalidateAll g' ids
  refine h.trans ⟨fun {e} he _ hdecl => ?_, fun {x} hdecl hr => ?_⟩
  · rw [declarations_congr (hlabel _)] at hdecl
    exact ⟨(Workspace.hasEdge_invalidateAll _ _ e).mp he, hdecl, kind?_congr (hlabel _),
      kind?_congr (hlabel _)⟩
  · rw [declarations_congr (hlabel _)] at hdecl
    exact ⟨hdecl, (isResolved_invalidateAll.mp hr).1, kind?_congr (hlabel _),
      fun he _ _ => (Workspace.hasEdge_invalidateAll _ _ _).mpr he⟩

theorem erroneous (h : g.Recalls g') (hx : g'.Erroneous x) : g.Erroneous x := by
  obtain ⟨hdecl, hr, kind, hmem, he⟩ := hx
  obtain ⟨hdecl', hr', -, -⟩ := h.resolved hdecl hr
  have hk : kind.isResolution := by
    revert hmem
    cases kind <;> simp [EdgeKind.isResolution]
  exact ⟨hdecl', hr', kind, hmem, (h.edge he hk hdecl).1⟩

theorem orderly (h : g.Recalls g') (hg : g.Orderly) : g'.Orderly where
  fits he hk hdecl := by
    obtain ⟨hold, hdecl', hsource, -⟩ := h.edge he hk hdecl
    rw [hsource]
    exact hg.fits hold hk hdecl'
  straight {e} he hk ha hdecl := by
    obtain ⟨hold, hdecl', hsource, htarget⟩ := h.edge he (hk ▸ rfl) hdecl
    rw [htarget]
    exact hg.straight hold hk (hsource ▸ ha) hdecl'
  settled ha hdecl hr := by
    obtain ⟨hdecl', hr', hkind, hedge⟩ := h.resolved hdecl hr
    obtain ⟨target, he⟩ := hg.settled (hkind ▸ ha) hdecl' hr'
    exact ⟨target, hedge he rfl rfl⟩

end Recalls

end SymbolGraph

namespace Workspace

variable {c : Chart} {w : Workspace} {path : String} {tree : DocTree} {root : NodeRef}

theorem recalls_detach (hs : w.Sound) (u : CompilationUnit) :
    w.graph.Recalls (w.detach u).graph := by
  have hkind : ∀ x, (w.detach u).graph.kind? x = w.graph.kind? x := fun x => by
    rw [kind?_congr (label?_detach w u x), kind?_forgetUnit]
  have hdeclared : ∀ {x}, (w.detach u).graph.declarations x ≠ [] → w.graph.declarations x ≠ [] := by
    intro x hx hnil
    rw [declarations_detach, hnil] at hx
    exact hx rfl
  refine ⟨fun {e} he _ hdecl => ?_, fun {x} hdecl hr => ?_⟩
  · exact ⟨((hasEdge_detach hs u e).mp he).1, hdeclared hdecl, hkind _, hkind _⟩
  · obtain ⟨d, hd⟩ := List.exists_mem_of_ne_nil _ hdecl
    obtain ⟨hr', -, hout⟩ := of_isResolved_detach hs hd hr
    refine ⟨hdeclared hdecl, hr', hkind x, fun {e} he hsource hk => ?_⟩
    refine (hasEdge_detach hs u e).mpr ⟨he, hsource ▸ not_mem_dyingWith hs hd, ?_⟩
    exact hout (hs.graph.mem_outgoing_iff.mpr ⟨hsource.symm, he⟩)
      (EdgeKind.ne_containedBy_of_isResolution hk)

theorem recalls_detachPath (hs : w.Sound) (path : String) :
    w.graph.Recalls (w.detachPath path).graph := by
  unfold detachPath
  cases w.program.unit? path with
  | none => exact .refl _
  | some u => exact recalls_detach hs u

/-- No declaration revives an old symbol, and binding resolves nothing, also if it fails. -/
theorem Surveyed.contract_bindUnit_recalls (h : Surveyed c w) (hs : w.Sound)
    (hpath : path ∉ w.program.paths) (tree : DocTree) (root : NodeRef) :
    Contract (· = ⟨w.graph, (w.addCollected path tree root).program⟩)
      (BindM.bindUnit (w.collectedUnit path tree root).id)
      (fun _ b => w.graph.Recalls b.graph) fun b => w.graph.Recalls b.graph := by
  have hrecalls : ∀ {b : Binding} {c' documents},
      Binding.Appended ⟨w.graph, (w.addCollected path tree root).program⟩
        (w.collectedUnit path tree root).id b →
      Leads c w documents c'
        { w.addCollected path tree root with graph := b.graph, program := b.program } →
      w.graph.Recalls b.graph := by
    intro b c' documents ha hl
    have hdeclared : ∀ {x}, x < w.graph.size → b.graph.declarations x ≠ [] →
        w.graph.declarations x ≠ [] := fun hx hdecl hnil => hdecl (ha.undeclared hx hnil)
    refine ⟨fun {e} he hk hdecl => ?_, fun {x} hdecl hr => ?_⟩
    · obtain ⟨hold, hsame⟩ := hl.kept he (.inl (by simp [EdgeKind.isStructural, hk]))
      exact ⟨hold, hdeclared (hs.graph.lt_size hold).1 hdecl, (hsame _ (.inl rfl)).1,
        (hsame _ (.inr rfl)).1⟩
    · rw [ha.resolved x] at hr
      have hx : x < w.graph.size := lt_size_of_isResolved hr
      refine ⟨hdeclared hx hdecl, hr, ?_, fun {e} he hsource _ => ?_⟩
      · rw [← kind?_forgetUnit b.graph (w.collectedUnit path tree root).id x]
        exact kind?_congr (ha.label hx)
      · have hmem := hs.graph.mem_outgoing_iff.mpr ⟨hsource.symm, he⟩
        rw [← ha.outgoing hx] at hmem
        rw [hasEdge_iff, hsource]
        exact List.mem_of_mem_filter hmem
  refine (Contract.both (hs.appends_bindUnit hpath tree root)
    (h.contract_bindUnit hs hpath tree root)).weaken (fun _ hb => hb) ?_ ?_
  · rintro _ b ⟨ha, c', hl⟩
    exact hrecalls ha hl
  · rintro b ⟨ha, c', hl⟩
    exact hrecalls ha hl

/-- Whatever edit comes, what is resolved afterwards was so before. -/
theorem Reachable.recalls_apply (h : w.Reachable) {request : Request}
    (hedit : request.isEdit) : w.graph.Recalls (request.apply w).graph := by
  obtain ⟨c, hc⟩ := h.exists_surveyed
  cases request with
  | setUnit path tree root =>
      obtain ⟨c', hl⟩ := hc.detachPath h.sound path
      obtain ⟨hs, hpath⟩ := h.sound.detachPath path
      have hfirst := recalls_detachPath h.sound path
      refine apply_setUnit_of (P := fun w' => w.graph.Recalls w'.graph) (contract_attach_of ?_
        fun w' unit hw' => hw'.invalidateAll _)
      exact (hl.surveyed.contract_bindUnit_recalls hs hpath tree root).weaken (fun _ hb => hb)
        (fun _ _ hb => hfirst.trans hb) fun _ hb => hfirst.trans hb
  | removeUnit path =>
      rw [apply_removeUnit]
      exact recalls_detachPath h.sound path
  | reset =>
      exact ⟨fun he => absurd he (not_hasEdge_ofOptions w.options _),
        fun _ hr => absurd hr (not_isResolved_ofOptions w.options _)⟩
  | takeDiagnostics => exact .refl _
  | demand d => exact absurd hedit (by simp [Request.isEdit])

end Workspace

end NameBinding
