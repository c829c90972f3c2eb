import NameBinding.Proofs.Bind.Bare
import NameBinding.Proofs.Program.Dotted
import NameBinding.Proofs.Workspace.Admission

/-! # Modules with dotted names in a session

Main statement: a document with a dotted module and the one with modules inside each other have the
same declarations, and make the same graph of any session. -/

namespace NameBinding

namespace Workspace

variable {w : Workspace} {path : String} {tree tree' : DocTree} {root root' : NodeRef}

theorem bare_addCollected (w : Workspace) (path : String) (tree : DocTree) (root : NodeRef) :
    (w.addCollected path tree root).program.bare =
      { w.program.bare with nextUnit := w.program.nextUnit + 1 }.add
        ((CompilationUnit.ofTree w.program.nextUnit path tree root).collect
          w.options.maxCollectDepth).bare :=
  Program.bare_add ..

theorem graph_afterBinding_congr {w w' : Workspace} (h : w.graph = w'.graph) (unit : UnitId) :
    (w.afterBinding unit).graph = (w'.afterBinding unit).graph := by
  unfold afterBinding
  dsimp only
  rw [h]

/-- Documents that are collected alike, but for their nodes, are set alike. -/
theorem setUnit_of_bare_eq (hbare : ∀ id,
    ((CompilationUnit.ofTree id path tree root).collect w.options.maxCollectDepth).bare =
      ((CompilationUnit.ofTree id path tree' root').collect w.options.maxCollectDepth).bare) :
    (Request.setUnit path tree root).succeeds w = (Request.setUnit path tree' root').succeeds w ∧
      ((Request.setUnit path tree root).apply w).graph =
        ((Request.setUnit path tree' root').apply w).graph := by
  let v := w.detachPath path
  have hprogram : (v.addCollected path tree root).program.bare =
      (v.addCollected path tree' root').program.bare := by
    rw [bare_addCollected, bare_addCollected, options_detachPath, hbare]
  have hbound : BindM.bareOutcome (w.bindingOf path tree root) =
      BindM.bareOutcome (w.bindingOf path tree' root') :=
    (BindM.overlooks_bindUnit v.program.nextUnit).bareOutcome_eq
      (congrArg (Binding.mk v.graph) hprogram)
  have hgraph : ∀ {b b' : Binding}, b.bare = b'.bare → b.graph = b'.graph := fun h => by
    have hbare := congrArg Binding.graph h
    exact hbare
  unfold Request.succeeds Request.apply
  rw [run_setUnit, run_setUnit]
  cases hb : w.bindingOf path tree root <;> cases hb' : w.bindingOf path tree' root' <;>
    rw [hb, hb'] at hbound
  · exact ⟨rfl, graph_afterBinding_congr (hgraph (EStateM.Result.ok.inj hbound).2) _⟩
  · exact absurd hbound (by simp [BindM.bareOutcome])
  · exact absurd hbound (by simp [BindM.bareOutcome])
  · exact ⟨rfl, hgraph (EStateM.Result.error.inj hbound).2⟩

end Workspace

namespace ModuleSite

/-- A module with a dotted name declares what modules one inside the other declare, and makes the
same symbols of it. -/
theorem Sealed.expands {s : ModuleSite} (h : s.Sealed) (path : String) :
    (∀ id limit, s.Fits limit →
      ((CompilationUnit.ofTree id path s.dotted s.root).collect limit).decls.map Decl.bare =
        ((CompilationUnit.ofTree id path s.nested s.root).collect limit).decls.map Decl.bare) ∧
    ∀ w : Workspace, s.Fits w.options.maxCollectDepth →
      (Request.setUnit path s.dotted s.root).succeeds w =
        (Request.setUnit path s.nested s.root).succeeds w ∧
      ((Request.setUnit path s.dotted s.root).apply w).graph =
        ((Request.setUnit path s.nested s.root).apply w).graph := by
  refine ⟨fun id limit hfits => ?_, fun w hfits => ?_⟩
  · have hunits := congrArg CompilationUnit.decls (h.bare_collect id path hfits)
    exact hunits
  · exact Workspace.setUnit_of_bare_eq fun id => h.bare_collect id path hfits

/-- A module with an empty segment in its name, around an interface. -/
def emptySegment : ModuleSite where
  file := "a.ts"
  before := [.interfaceDecl "I" (Flags.single .exported) [] []]
  segment := "A"
  segments := ["", "B"]
  modifiers := Flags.single .ambient
  body := [some 1]
  after := [.sourceFile [some 7]]
  root := some 8

theorem expands_emptySegment :
    ((CompilationUnit.ofTree 0 "a.ts" emptySegment.dotted (some 8)).collect 9).decls.map Decl.bare =
      ((CompilationUnit.ofTree 0 "a.ts" emptySegment.nested (some 8)).collect 9).decls.map
        Decl.bare ∧
    ((Request.setUnit "a.ts" emptySegment.dotted (some 8)).apply (.ofOptions {})).graph =
      ((Request.setUnit "a.ts" emptySegment.nested (some 8)).apply (.ofOptions {})).graph := by
  have h : emptySegment.Sealed := by decide +kernel
  exact ⟨(h.expands "a.ts").1 0 9 (by decide +kernel),
    ((h.expands "a.ts").2 (.ofOptions {}) (by decide +kernel)).2⟩

example : ((CompilationUnit.ofTree 0 "a.ts" emptySegment.dotted (some 8)).collect 9).decls.map
    (·.name) = #["a.ts", "A", "", "B", "I"] := by
  decide +kernel

end ModuleSite

end NameBinding
