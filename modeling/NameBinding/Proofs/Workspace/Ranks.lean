import NameBinding.Proofs.Bind.Parameters
import NameBinding.Proofs.Program.Preorder
import NameBinding.Proofs.Resolve.Bound
import NameBinding.Proofs.Workspace.Survey

/-! # Signatures stand in order

Units are numbered in the order in which they come, and their declarations in the order in which they
stand. Main statement: in a workspace that requests lead to, the declarations of a function, its
signatures and their parameters stand in this order, and no function has two definitions. -/

namespace NameBinding

open SymbolGraph

/-- Resolving makes signatures and parameters inside synthesized types only. -/
theorem SymbolGraph.Resolves.calm {setting : Setting} {g₀ g : SymbolGraph} {edge : EdgeKind}
    {kinds : SymbolKind → Bool} (h : Resolves setting g₀ g) (h₀ : g₀.WellFormed)
    (hedge : edge.isStructural) : Calm edge kinds g₀ g where
  wellFormed := h.wellFormed h₀
  size_le := h.size_le
  kind? hx := kind?_congr (h.label? hx)
  has f hx := has_congr (h.label? hx) f
  targets hx := h.targets_eq h₀ hx hedge
  made {x} hx t ht := by
    have he := (h.wellFormed h₀).mem_targets_iff.mp ht
    rcases h.hasEdge h₀ he with hold | hr | ⟨ha, -⟩ | ⟨-, -, htarget⟩
    · exact absurd (h₀.lt_size hold).1 (Nat.not_lt.mpr hx)
    · exact absurd hedge (EdgeKind.not_isStructural_of_isResolution hr)
    · simp [EdgeKind.isStructural, show edge = .arrayOf from ha] at hedge
    · exact ⟨htarget, h.has_synthesized hx ((h.wellFormed h₀).lt_size he).1⟩
  declarations _ := h.declarations _

/-- What a declaration lists stands in the order of the document. -/
theorem Workspace.IsCollected.pairwise_children {limit : Nat} {u : CompilationUnit}
    (h : Workspace.IsCollected limit u) {i : Nat} {d : Decl} (hd : u.decls[i]? = some d) :
    d.children.Pairwise DeclId.Before := by
  obtain ⟨-, hpre⟩ := CompilationUnit.preordered_collect u.id u.path u.tree u.root limit
  have hdecls : u.decls.map Decl.unbind = ((CompilationUnit.ofTree u.id u.path u.tree u.root).collect
      limit).decls.map Decl.unbind := congrArg CompilationUnit.decls h
  have hget := congrArg (·[i]?) hdecls
  simp only [Array.getElem?_map, hd, Option.map_some] at hget
  obtain ⟨e, he, hunbind⟩ := Option.map_eq_some_iff.mp hget.symm
  have hchildren : e.unbind.children = d.unbind.children := by rw [hunbind]
  change d.unbind.children.Pairwise DeclId.Before
  rw [← hchildren]
  refine (hpre.increasing i e he).imp_of_mem fun {x y} hx hy hlt => .inr ⟨?_, hlt⟩
  obtain ⟨_, hx⟩ := Option.isSome_iff_exists.mp (hpre.child i e x he hx)
  obtain ⟨_, hy⟩ := Option.isSome_iff_exists.mp (hpre.child i e y he hy)
  rw [(CompilationUnit.decl?_eq_some hx).1, (CompilationUnit.decl?_eq_some hy).1]

namespace Workspace

variable {c : Chart} {w : Workspace} {u : CompilationUnit}

/-! ### One request -/

/-- The declarations of a new unit come after all that are listed. -/
theorem Surveyed.ranks_bindUnit (h : Surveyed c w) (hranks : w.graph.RanksSignatures)
    {path : String} (hpath : path ∉ w.program.paths) (tree : DocTree) (root : NodeRef) :
    Contract (· = ⟨w.graph, (w.addCollected path tree root).program⟩)
      (BindM.bindUnit (w.collectedUnit path tree root).id)
      (fun _ b => b.graph.RanksSignatures) fun b => b.graph.RanksSignatures := by
  have hmem : w.collectedUnit path tree root ∈ (w.addCollected path tree root).program.units :=
    List.mem_append_right _ (List.mem_singleton_self _)
  have hcharted := h.charted_addCollected hpath tree root
  have hold : ∀ {x e}, e ∈ w.graph.declarations x →
      e.unit < (w.collectedUnit path tree root).id := by
    intro x e he
    obtain ⟨q, hq⟩ := h.exists_place (List.ne_nil_of_mem he)
    obtain ⟨v, hv, hid, -⟩ := h.charted.authored ((h.charted.declarations hq e).mp he)
    rw [← hid, (w.sound_collectedUnit path tree root).id_eq]
    exact h.charted.program.lt_next v hv
  have hsorted : ∀ d ∈ (w.collectedUnit path tree root).decls.toList,
      d.children.Pairwise DeclId.Before := by
    intro d hd
    obtain ⟨i, hi⟩ := List.mem_iff_getElem?.mp hd
    rw [Array.getElem?_toList] at hi
    exact (w.isCollected_collectedUnit path tree root).pairwise_children hi
  have hordered := Binding.ordered_bindUnit hmem hsorted hcharted.program hcharted.wellFormed
    hranks hold
  exact (Contract.both hordered (h.charts_bindUnit hpath tree root)).weaken (fun _ hb => hb)
    (fun _ _ hb => hb.1) fun _ hb => hb.2.2 ▸ hranks

theorem ranksSignatures_invalidateAll {g : SymbolGraph} (h : g.RanksSignatures)
    (ids : List SymbolId) : (g.invalidateAll ids).RanksSignatures := by
  have hlabel := label?_invalidateAll g ids
  refine h.thin (fun x edge => ?_) (fun x => kind?_congr (hlabel x))
    (fun x f => has_congr (hlabel x) f) fun x => ?_
  · rw [targets_eq, targets_eq, outgoing_invalidateAll]
  · rw [declarations_congr (hlabel x)]

theorem ranksSignatures_detachPath (h : w.graph.RanksSignatures) (hs : w.Sound) (path : String) :
    (w.detachPath path).graph.RanksSignatures := by
  unfold Workspace.detachPath
  cases w.program.unit? path with
  | none => exact h
  | some u =>
      have hlabel := label?_detach w u
      refine h.thin (fun x edge => ?_) (fun x => ?_) (fun x f => ?_) fun x => ?_
      · rw [targets_eq, targets_eq, outgoing_detach hs]
        exact (List.filter_sublist.filter _).map _
      · rw [kind?_congr (hlabel x), kind?_forgetUnit]
      · rw [has_congr (hlabel x), has_forgetUnit]
      · rw [declarations_detach]
        exact List.filter_sublist

/-- There are no edges and no declarations at the start. -/
theorem ranksSignatures_ofOptions (options : Options) :
    (ofOptions options).graph.RanksSignatures := by
  have htargets : ∀ x edge, (ofOptions options).graph.targets x edge = [] := by
    refine fun x edge => List.eq_nil_iff_forall_not_mem.mpr fun t ht => ?_
    exact not_hasEdge_ofOptions options _
      ((sound_ofOptions options).graph.mem_targets_iff.mp ht)
  have hdecl : ∀ x, (ofOptions options).graph.declarations x = [] := WellKnown.declarations_graph
  exact {
    overloads := {
      functions := fun _ => by simp [hdecl]
      signatures := fun x => by simp [htargets]
      definitions := fun _ _ => by simp [htargets] }
    parameters := fun x => by simp [htargets] }

theorem ranksSignatures_apply (h : w.graph.RanksSignatures) (hw : w.Reachable)
    (request : Request) : (request.apply w).graph.RanksSignatures := by
  obtain ⟨c, hc⟩ := hw.exists_surveyed
  have hdetached := ranksSignatures_detachPath h hw.sound
  cases request with
  | setUnit path tree root =>
      obtain ⟨c', hl⟩ := hc.detachPath hw.sound path
      obtain ⟨-, hpath⟩ := hw.sound.detachPath path
      exact apply_setUnit_of (P := fun w' => w'.graph.RanksSignatures) (contract_attach_of
        (hl.surveyed.ranks_bindUnit (hdetached path) hpath tree root)
        fun w' unit hw' => ranksSignatures_invalidateAll hw' _)
  | removeUnit path =>
      rw [apply_removeUnit]
      exact hdetached path
  | reset => exact ranksSignatures_ofOptions w.options
  | takeDiagnostics => exact h
  | demand d =>
      have hwell := hc.charted.wellFormed
      obtain ⟨g, diagnostics, hg, heq⟩ := exists_apply_demand hwell d
      rw [heq]
      exact h.calm hwell (hg.calm hwell rfl) (hg.calm hwell rfl)

/-! ### Main statement -/

/-- By induction on the requests. -/
theorem Reachable.ranksSignatures (h : w.Reachable) : w.graph.RanksSignatures := by
  obtain ⟨options, requests, rfl⟩ := h
  induction requests using List.reverseRecOn with
  | nil => exact ranksSignatures_ofOptions options
  | append_singleton requests request ih =>
      rw [after_append]
      exact ranksSignatures_apply ih ⟨options, requests, rfl⟩ request

end Workspace

end NameBinding
