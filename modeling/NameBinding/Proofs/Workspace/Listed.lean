import NameBinding.Proofs.Bind.Listed
import NameBinding.Proofs.Workspace.Survey

/-! # Global names are declared

Main statement: in a workspace that requests lead to, a unit lists at its top only symbols that it
declares. So no global name stands for a symbol without declarations. -/

namespace NameBinding.Workspace

open SymbolGraph

variable {w : Workspace}

/-- Every unit declares what it lists at its top. -/
def ListsDeclared (w : Workspace) : Prop :=
  ∀ u ∈ w.program.units, ∀ name, ∀ x ∈ u.topLevelSymbols name,
    ∃ d ∈ w.graph.declarations x, d.unit = u.id

theorem listed_iff (unit : UnitId) :
    Binding.Listed unit [] ⟨w.graph, w.program⟩ ↔ w.ListsDeclared := by
  simp [Binding.Listed, ListsDeclared]

/-- The same units stand over symbols with the same declarations. -/
theorem ListsDeclared.congr (h : w.ListsDeclared) {w' : Workspace} (hp : w'.program = w.program)
    (hd : ∀ x, w'.graph.declarations x = w.graph.declarations x) : w'.ListsDeclared := by
  intro u hu name x hx
  rw [hp] at hu
  rw [hd]
  exact h u hu name x hx

/-- A new unit lists nothing before it is bound. -/
theorem ListsDeclared.addCollected (h : w.ListsDeclared) (path : String) (tree : DocTree)
    (root : NodeRef) : (w.addCollected path tree root).ListsDeclared := by
  intro u hu name x hx
  rcases List.mem_append.mp hu with hu | hu
  · exact h u hu name x hx
  · obtain rfl : u = w.collectedUnit path tree root := List.mem_singleton.mp hu
    have hnone := (w.sound_collectedUnit path tree root).unlisted
    rw [CompilationUnit.topLevelSymbols, hnone] at hx
    exact absurd hx List.not_mem_nil

theorem ListsDeclared.contract_bindUnit (h : w.ListsDeclared) {c : Chart} (hc : Surveyed c w)
    {path : String} (hpath : path ∉ w.program.paths) (tree : DocTree) (root : NodeRef) :
    Contract (· = ⟨w.graph, (w.addCollected path tree root).program⟩)
      (BindM.bindUnit (w.collectedUnit path tree root).id)
      (fun _ b => ListsDeclared
        { w.addCollected path tree root with graph := b.graph, program := b.program })
      fun b => ListsDeclared
        { w.addCollected path tree root with graph := b.graph, program := b.program } := by
  have hmem : w.collectedUnit path tree root ∈ (w.addCollected path tree root).program.units :=
    List.mem_append_right _ (List.mem_singleton_self _)
  have hadded := h.addCollected path tree root
  have hlisted := Binding.listed_bindUnit hmem (hc.charted_addCollected hpath tree root).program
    ((listed_iff _).mpr hadded)
  exact (Contract.both hlisted (hc.charts_bindUnit hpath tree root)).weaken (fun _ hb => hb)
    (fun _ _ hb => (listed_iff _).mp hb.1) fun _ hb => hb.2.2 ▸ hadded

theorem ListsDeclared.detach (h : w.ListsDeclared) (hp : w.program.WellFormed)
    {u : CompilationUnit} (hu : u ∈ w.program.units) : (w.detach u).ListsDeclared := by
  intro v hv name x hx
  obtain ⟨hv, hpath⟩ := List.mem_filter.mp hv
  obtain ⟨d, hd, hunit⟩ := h v hv name x hx
  refine ⟨d, ?_, hunit⟩
  rw [declarations_detach, List.mem_filter]
  refine ⟨hd, ?_⟩
  have hne : v.id ≠ u.id := by
    intro hid
    have hsame := hp.unitById?_eq_some_iff.mpr ⟨hv, hid⟩
    rw [hp.unitById?_eq_some_iff.mpr ⟨hu, rfl⟩] at hsame
    simp [Option.some.inj hsame] at hpath
  simpa [hunit] using hne

theorem ListsDeclared.detachPath (h : w.ListsDeclared) (hp : w.program.WellFormed)
    (path : String) : (w.detachPath path).ListsDeclared := by
  unfold Workspace.detachPath
  cases hu : w.program.unit? path with
  | none => exact h
  | some u => exact h.detach hp (List.mem_of_find?_eq_some hu)

theorem ListsDeclared.apply (h : w.ListsDeclared) (hw : w.Reachable) (request : Request) :
    (request.apply w).ListsDeclared := by
  obtain ⟨c, hc⟩ := hw.exists_surveyed
  have hdetached := h.detachPath hc.charted.program
  cases request with
  | setUnit path tree root =>
      obtain ⟨c', hl⟩ := hc.detachPath hw.sound path
      obtain ⟨-, hpath⟩ := hw.sound.detachPath path
      refine apply_setUnit_of (contract_attach_of
        ((hdetached path).contract_bindUnit hl.surveyed hpath tree root) fun w' unit hw' => ?_)
      exact hw'.congr rfl fun x => declarations_congr (label?_invalidateAll _ _ x)
  | removeUnit path =>
      rw [apply_removeUnit]
      exact hdetached path
  | reset => exact fun u hu => absurd hu List.not_mem_nil
  | takeDiagnostics => exact h
  | demand d =>
      obtain ⟨g, diagnostics, hg, heq⟩ := exists_apply_demand hc.charted.wellFormed d
      rw [heq]
      exact h.congr rfl hg.declarations

/-- By induction on the requests. -/
theorem Reachable.listsDeclared (h : w.Reachable) : w.ListsDeclared := by
  obtain ⟨options, requests, rfl⟩ := h
  induction requests using List.reverseRecOn with
  | nil => exact fun u hu => absurd hu List.not_mem_nil
  | append_singleton requests request ih =>
      rw [after_append]
      exact ih.apply ⟨options, requests, rfl⟩ request

/-- No global name stands for a symbol without declarations. -/
theorem Reachable.declarations_ne_nil_of_global (h : w.Reachable) {name : String} {x : SymbolId}
    (hx : x ∈ w.program.globalSymbols name) : w.graph.declarations x ≠ [] := by
  obtain ⟨u, hu, hx⟩ := List.mem_flatMap.mp (List.mem_eraseDups.mp hx)
  obtain ⟨d, hd, -⟩ := h.listsDeclared u hu name x hx
  exact List.ne_nil_of_mem hd

end NameBinding.Workspace
