import NameBinding.Proofs.Bind.Declarations
import NameBinding.Proofs.Program.Collect
import NameBinding.Proofs.Resolve.Demand
import NameBinding.Graph.Reach
import NameBinding.Workspace.Request

/-! # Reachable workspaces are sound

Main statement: every request keeps a workspace sound, also a request that fails. Collecting and
binding only add to the program. A unit that goes takes its declarations along, and the symbols that
die with it have none left. -/

namespace NameBinding

open SymbolGraph

namespace SymbolGraph

variable {g : SymbolGraph}

/-- Giving up the state of symbols keeps labels and edges. -/
theorem invalidateAll_induction {P : SymbolGraph → Prop} (h : ∀ g id, P g → P (g.invalidate id))
    (ids : List SymbolId) (hg : P g) : P (g.invalidateAll ids) := by
  induction ids generalizing g with
  | nil => exact hg
  | cons id ids ih =>
      refine ih (g := g.invalidateUpward id) ?_
      unfold invalidateUpward
      generalize Walk.reach g.coveredBy g.size [id] = covered
      induction covered generalizing g with
      | nil => exact hg
      | cons x covered ih' => exact ih' (h g x hg)

theorem Sound.invalidateAll (h : g.Sound) (ids : List SymbolId) : (g.invalidateAll ids).Sound :=
  invalidateAll_induction (fun _ id hg => hg.invalidate id) ids h

theorem declarations_invalidateAll (g : SymbolGraph) (ids : List SymbolId) (x : SymbolId) :
    (g.invalidateAll ids).declarations x = g.declarations x :=
  invalidateAll_induction (P := fun g' => g'.declarations x = g.declarations x)
    (fun g' id hg => (declarations_congr (label?_invalidate g' id x)).trans hg) ids rfl

/-- What dies with the orphans of a sound graph has no declarations. -/
theorem declarations_of_mem_dying (h : g.Sound) (ids : List SymbolId) {id : SymbolId}
    (hid : id ∈ g.dying (g.orphans ids)) : g.declarations id = [] := by
  have horphan : ∀ r ∈ g.orphans ids, g.declarations r = [] := by
    intro r hr
    have hp := (List.mem_filter.mp hr).2
    cases hs : g.get? r with
    | none => simp [hs] at hp
    | some s => simp_all [declarations, Symbol.isDeclared]
  have hmade : ∀ a, ∀ x ∈ g.synthesizedOver a, g.declarations x = [] := by
    intro a x hx
    have hsyn := (List.mem_filter.mp hx).2
    rw [isSynthesized, isSynthesized_eq, Bool.and_eq_true] at hsyn
    exact List.eq_nil_iff_forall_not_mem.mpr fun d hd => (h.declarable hd).1 hsyn.1
  obtain ⟨r, hr, hw⟩ := Walk.mem_reach_iff.mp hid
  have hroot := horphan r hr
  clear hid hr
  generalize g.size = steps at hw
  induction hw with
  | here => exact hroot
  | step hb _ ih => exact ih (hmade _ _ hb)

theorem sound_foldl_unlinkAll (h : g.Sound) (dead : List SymbolId)
    (hdead : ∀ id ∈ dead, g.declarations id = []) :
    (dead.foldl unlinkAll g).Sound ∧
      ∀ x, (dead.foldl unlinkAll g).declarations x = g.declarations x := by
  induction dead generalizing g with
  | nil => exact ⟨h, fun _ => rfl⟩
  | cons id dead ih =>
      have hd : ∀ x, (g.unlinkAll id).declarations x = g.declarations x := fun x =>
        declarations_congr (label?_unlinkAll g id x)
      obtain ⟨hs, hx⟩ := ih (h.unlinkAll (hdead id List.mem_cons_self)) fun x hx =>
        (hd x).trans (hdead x (List.mem_cons_of_mem id hx))
      exact ⟨hs, fun x => (hx x).trans (hd x)⟩

end SymbolGraph

namespace WellKnown

/-- What symbols that are made one after another keep. -/
theorem graph_induction {P : SymbolGraph → Prop} (hempty : P .empty)
    (halloc : ∀ g name kind flags, P g → P (g.alloc name kind flags)) : P graph := by
  unfold graph
  refine halloc _ _ _ _ ?_
  generalize SymbolGraph.empty = g at hempty ⊢
  induction keywords generalizing g with
  | nil => exact hempty
  | cons kind kinds ih => exact ih _ (halloc g _ _ _ hempty)

theorem sound_graph : graph.Sound :=
  graph_induction .empty fun _ name kind flags hg => hg.alloc name kind flags

theorem declarations_graph (id : SymbolId) : graph.declarations id = [] :=
  graph_induction (P := fun g => g.declarations id = []) rfl fun g name kind flags hg =>
    (declarations_alloc g name kind flags id).trans hg

end WellKnown

namespace Workspace

/-- The program and the graph of the workspace are sound. -/
def Sound (w : Workspace) : Prop := Binding.Sound ⟨w.graph, w.program⟩

variable {w : Workspace}

theorem sound_ofOptions (options : Options) : (ofOptions options).Sound where
  program := .empty
  graph := WellKnown.sound_graph
  known hd := by
    rw [ofOptions, WellKnown.declarations_graph] at hd
    exact absurd hd List.not_mem_nil
  listed hx := by simp [ofOptions, Program.decl?, Program.unitById?] at hx

namespace Sound

/-! ### Units come -/

theorem addCollected (h : w.Sound) {path : String} (hpath : path ∉ w.program.paths)
    (tree : DocTree) (root : NodeRef) : (w.addCollected path tree root).Sound := by
  have hu := CompilationUnit.sound_collect w.options.maxCollectDepth w.program.nextUnit path tree root
  have hnew : path ∉ w.program.paths := hpath
  exact Binding.Sound.addUnit h hu.id_eq (hu.path_eq ▸ hnew) hu.numbered hu.unbound

theorem afterBinding (h : w.Sound) (unit : UnitId) : (w.afterBinding unit).Sound :=
  Binding.Sound.setGraph h (h.graph.invalidateAll _) (declarations_invalidateAll _ _)

/-! ### Units go -/

theorem detach (h : w.Sound) {u : CompilationUnit} (hu : u ∈ w.program.units) :
    (w.detach u).Sound := by
  have hb := Binding.Sound.removeUnit h hu
  obtain ⟨hs, hd⟩ := sound_foldl_unlinkAll hb.graph _ fun id hid =>
    declarations_of_mem_dying hb.graph (w.graph.declaredIn u.id) hid
  exact hb.setGraph (hs.invalidateAll _) fun x => (declarations_invalidateAll _ _ x).trans (hd x)

theorem detachPath (h : w.Sound) (path : String) :
    (w.detachPath path).Sound ∧ path ∉ (w.detachPath path).program.paths := by
  unfold Workspace.detachPath
  cases hu : w.program.unit? path with
  | none =>
      refine ⟨h, fun hp => ?_⟩
      obtain ⟨u, hm, hpath⟩ := List.mem_map.mp hp
      exact absurd (beq_iff_eq.mpr hpath) (List.find?_eq_none.mp hu u hm)
  | some u =>
      have hm : u ∈ w.program.units := List.mem_of_find?_eq_some hu
      have hpath : u.path = path := by simpa using List.find?_some hu
      refine ⟨h.detach hm, fun hp => ?_⟩
      obtain ⟨v, hv, hvp⟩ := List.mem_map.mp hp
      exact (Program.mem_remove.mp hv).2 (hvp.trans hpath.symm)

end Sound

end Workspace

/-! ### Requests -/

namespace WorkspaceM

theorem contract_ofBind {α : Type} {step : BindM α} (h : ∀ b : Binding, b.Sound → b.Binds step) :
    Contract Workspace.Sound (ofBind step) (fun _ w => w.Sound) Workspace.Sound := by
  intro w hw
  have hstep := h ⟨w.graph, w.program⟩ hw _ rfl
  unfold ofBind
  cases hs : step ⟨w.graph, w.program⟩ <;> rw [hs] at hstep
  · exact hstep.1
  · exact hstep

theorem keeps_attach {path : String} (tree : DocTree) (root : NodeRef) :
    Contract (fun w => w.Sound ∧ path ∉ w.program.paths) (attach path tree root)
      (fun _ w => w.Sound) Workspace.Sound := by
  unfold attach
  refine Contract.get_bind fun w hw => ?_
  refine Contract.bind (Q := fun _ => Workspace.Sound) ?_ fun _ => ?_
  · exact Contract.modify fun _ h => h ▸ hw.1.addCollected hw.2 tree root
  · refine Contract.bind (Q := fun _ => Workspace.Sound) (contract_ofBind fun b hb =>
      Binding.binds_bindUnit hb _) fun _ => ?_
    refine Contract.bind (Q := fun _ => Workspace.Sound) ?_ fun _ => Contract.pure _ fun _ h => h
    exact Contract.modify fun w h => h.afterBinding _

theorem keeps_setUnit (path : String) (tree : DocTree) (root : NodeRef) :
    Keeps Workspace.Sound (setUnit path tree root) := by
  unfold setUnit
  refine Contract.bind (Q := fun _ w => w.Sound ∧ path ∉ w.program.paths) ?_ fun _ => ?_
  · exact Contract.modify fun w hw => hw.detachPath path
  · exact (keeps_attach tree root).weaken (fun _ h => h) (fun _ _ h => ⟨h, True.intro⟩) fun _ h => h

theorem keeps_removeUnit (path : String) : Keeps Workspace.Sound (removeUnit path) := by
  unfold removeUnit
  refine Keeps.get_bind fun w hw => ?_
  dsimp only
  split
  · exact Keeps.throw _
  · exact Keeps.modify fun w hw => (hw.detachPath path).1

theorem keeps_ofResolve {α : Type} {step : Setting → ResolveM α}
    (h : ∀ (g₀ : SymbolGraph) (setting : Setting), g₀.WellFormed →
      Keeps (Resolution.From setting g₀) (step setting)) : Keeps Workspace.Sound (ofResolve step) := by
  intro w hw
  have hstep := h w.graph w.setting hw.graph.toWellFormed ⟨w.graph, w.diagnostics⟩ (.refl _ _)
  have hback : ∀ r : Resolution, Resolution.From w.setting w.graph r →
      Workspace.Sound { w with graph := r.graph, diagnostics := r.diagnostics } := fun r hr =>
    Binding.Sound.setGraph hw (Resolves.sound hr hw.graph) (Resolves.declarations hr)
  unfold ofResolve
  cases hs : step w.setting ⟨w.graph, w.diagnostics⟩ <;> rw [hs] at hstep
  · exact ⟨hback _ hstep.1, True.intro⟩
  · exact hback _ hstep

end WorkspaceM

/-- Every request keeps a workspace sound, also one that fails. -/
theorem Request.keeps_run (request : Request) : Keeps Workspace.Sound request.run := by
  cases request with
  | setUnit path tree root =>
      exact (WorkspaceM.keeps_setUnit path tree root).bind fun _ _ => Keeps.pure True.intro
  | removeUnit path =>
      exact (WorkspaceM.keeps_removeUnit path).bind fun _ _ => Keeps.pure True.intro
  | reset =>
      refine (Keeps.modify fun w _ => Workspace.sound_ofOptions w.options).bind fun _ _ =>
        Keeps.pure True.intro
  | takeDiagnostics => exact Contract.modifyGet fun w hw => ⟨hw, True.intro⟩
  | demand d =>
      exact (WorkspaceM.keeps_ofResolve fun g₀ setting h₀ => d.keeps_run h₀).bind fun _ _ =>
        Keeps.pure True.intro

namespace Workspace

theorem Sound.apply {w : Workspace} (h : w.Sound) (request : Request) :
    (request.apply w).Sound := by
  have hrun := request.keeps_run w h
  unfold Request.apply
  cases hr : request.run w <;> rw [hr] at hrun
  · exact hrun.1
  · exact hrun

/-- Whatever is requested, the workspace is sound. -/
theorem Sound.after {w : Workspace} (h : w.Sound) (requests : List Request) :
    (w.after requests).Sound := by
  induction requests generalizing w with
  | nil => exact h
  | cons request requests ih => exact ih (h.apply request)

theorem Reachable.sound {w : Workspace} (h : w.Reachable) : w.Sound := by
  obtain ⟨options, requests, rfl⟩ := h
  exact (sound_ofOptions options).after requests

end Workspace

end NameBinding
