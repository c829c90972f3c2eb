import NameBinding.Proofs.Bind.Total
import NameBinding.Proofs.Program.Scopes
import NameBinding.Proofs.Workspace.Log

/-! # Documents are admitted

Whatever a document looks like, its declarations list declarations that exist, so it can be bound as
soon as it has a root. The root is declared before anything else, unless it is left out itself: a
source file under a limit of no levels.

Main statement: in every reachable workspace a document is collected under a script and bound without
an error exactly if it is not such a source file. In either case one unit has its path. -/

namespace NameBinding

namespace CompilationUnit

/-- The root declaration exists, and is a script. -/
def HasScript (u : CompilationUnit) : Prop :=
  ∃ d, u.decl? u.rootDecl = some d ∧ d.kind = .script

/-- The first declaration of the unit is a script. -/
def StartsWithScript (u : CompilationUnit) : Prop :=
  ∃ d, u.decls[0]? = some d ∧ d.kind = .script

theorem StartsWithScript.addDecl {u : CompilationUnit} (h : u.StartsWithScript) (d : Decl) :
    (u.addDecl d).StartsWithScript := by
  obtain ⟨x, hx, hk⟩ := h
  have hpos : 0 ≠ u.decls.size := Nat.ne_of_lt (Array.getElem?_eq_some_iff.mp hx).1
  refine ⟨withChild u.id d 0 x, ?_, by rw [kind_withChild, hk]⟩
  rw [getElem?_addDecl, Array.getElem?_push, if_neg hpos, hx, Option.map_some]

theorem scoped_startsWithScript : Collect.Scoped fun _ c => c.unit.StartsWithScript where
  declare _ _ _ _ _ hc := hc.addDecl _
  close _ hc := hc
  leaveOut {_ c} limit node hc := by
    change (if c.truncated then c else _ : Collection).unit.StartsWithScript
    split
    · exact hc
    · exact hc

/-- Only a source file can be left out itself. -/
theorem hasScript_collect_iff (limit : Nat) (id : UnitId) (path : String) (tree : DocTree)
    (root : NodeRef) : ((ofTree id path tree root).collect limit).HasScript ↔
      ¬(limit = 0 ∧ tree.kind? root = some .sourceFile) := by
  let u := ofTree id path tree root
  have hid : (u.collect limit).id = id := (sound_collect limit id path tree root).id_eq
  have hroot : (u.collect limit).rootDecl = ⟨id, 0⟩ := rootDecl_collect limit id path tree root
  have hiff : (u.collect limit).HasScript ↔ (u.collect limit).StartsWithScript := by
    rw [HasScript, hroot, decl?, if_pos hid.symm]
    rfl
  have hstart : (Collect.declareRoot u).unit.StartsWithScript := by
    refine ⟨.fresh ⟨id, 0⟩ path .script ∅ (tree.span root) none root, ?_, rfl⟩
    rfl
  have h := scoped_startsWithScript.visitRoot limit hstart
  rw [hiff]
  split at h
  · next hout =>
    refine iff_of_false ?_ (not_not.mpr hout)
    rintro ⟨d, hd, -⟩
    have hempty : (u.collect limit).decls = #[] := congrArg (·.unit.decls) h
    rw [hempty] at hd
    simp at hd
  · next hin => exact iff_of_true h hin

end CompilationUnit

namespace Workspace

variable {w : Workspace}

/-- The document is collected under a script and bound without an error, and one unit has its path. -/
def Admits (w : Workspace) (path : String) (tree : DocTree) (root : NodeRef) : Prop :=
  ((CompilationUnit.ofTree w.program.nextUnit path tree root).collect
    w.options.maxCollectDepth).HasScript ∧
  ∃ unit w', (Request.setUnit path tree root).run w = .ok (.unit unit) w' ∧
    w'.program.paths.count path = 1

theorem options_detachPath (w : Workspace) (path : String) :
    (w.detachPath path).options = w.options := by
  unfold detachPath
  split <;> rfl

section Collected

variable {path : String} (tree : DocTree) (root : NodeRef)

theorem mem_units_addCollected (w : Workspace) (path : String) :
    w.collectedUnit path tree root ∈ (w.addCollected path tree root).program.units :=
  List.mem_append_right _ (List.mem_singleton_self _)

/-- From a sound workspace without the path, a document that has a root is bound. -/
theorem Sound.exists_bindUnit_eq_ok (h : w.Sound) (hpath : path ∉ w.program.paths)
    (hroot : ((w.collectedUnit path tree root).decl?
      (w.collectedUnit path tree root).rootDecl).isSome) :
    ∃ b, BindM.bindUnit w.program.nextUnit
      ⟨w.graph, (w.addCollected path tree root).program⟩ = .ok () b := by
  have hu := w.sound_collectedUnit path tree root
  obtain ⟨_, b, hb, -⟩ := Binding.finishes_bindUnit (h.addCollected hpath tree root)
    (w.mem_units_addCollected tree root path) hu.nested hroot
  have hid : (w.collectedUnit path tree root).id = w.program.nextUnit := hu.id_eq
  rw [hid] at hb
  exact ⟨b, hb⟩

/-- All that can go wrong is that the document has no root. -/
theorem Sound.eq_unknownDecl_of_bindUnit (h : w.Sound) (hpath : path ∉ w.program.paths)
    {e : BindError} {b : Binding} (hrun : BindM.bindUnit w.program.nextUnit
      ⟨w.graph, (w.addCollected path tree root).program⟩ = .error e b) :
    e = .unknownDecl (w.collectedUnit path tree root).rootDecl := by
  by_cases hroot : ((w.collectedUnit path tree root).decl?
      (w.collectedUnit path tree root).rootDecl).isSome
  · obtain ⟨b', hb⟩ := h.exists_bindUnit_eq_ok tree root hpath hroot
    rw [hb] at hrun
    exact absurd hrun (by simp)
  · rw [Bool.not_eq_true, Option.isSome_eq_false_iff, Option.isNone_iff_eq_none] at hroot
    have hid : (w.collectedUnit path tree root).id = w.program.nextUnit :=
      (w.sound_collectedUnit path tree root).id_eq
    have herror := Binding.bindUnit_eq_error
      (b := ⟨w.graph, (w.addCollected path tree root).program⟩)
      (h.addCollected hpath tree root).program (w.mem_units_addCollected tree root path) hroot
    rw [hid] at herror
    exact (EStateM.Result.error.inj (hrun.symm.trans herror)).1

end Collected

/-- The document is in the program also when it could not be bound. -/
theorem Reachable.count_paths_setUnit (h : w.Reachable) (path : String) (tree : DocTree)
    (root : NodeRef) :
    ((Request.setUnit path tree root).apply w).program.paths.count path = 1 := by
  have hmem : path ∈ ((Request.setUnit path tree root).apply w).program.paths :=
    (mem_paths_apply h _).mpr ⟨_, List.mem_append_right _ (List.mem_singleton_self _), rfl⟩
  exact List.count_eq_one_of_mem (h.apply _).sound.program.nodup_paths hmem

theorem Reachable.admits_iff_hasScript (h : w.Reachable) (path : String) (tree : DocTree)
    (root : NodeRef) : w.Admits path tree root ↔
      ((CompilationUnit.ofTree w.program.nextUnit path tree root).collect
        w.options.maxCollectDepth).HasScript := by
  refine ⟨fun hadmits => hadmits.1, fun hscript => ⟨hscript, ?_⟩⟩
  obtain ⟨hsound, hpath⟩ := h.sound.detachPath path
  have hnext : (w.detachPath path).program.nextUnit = w.program.nextUnit := by
    unfold detachPath
    split <;> rfl
  have hroot : (((w.detachPath path).collectedUnit path tree root).decl?
      ((w.detachPath path).collectedUnit path tree root).rootDecl).isSome := by
    obtain ⟨d, hd, -⟩ := hscript
    rw [← hnext, ← options_detachPath w path] at hd
    exact Option.isSome_iff_exists.mpr ⟨d, hd⟩
  obtain ⟨b, hb⟩ := hsound.exists_bindUnit_eq_ok tree root hpath hroot
  have hrun := run_setUnit w path tree root
  have hcount := h.count_paths_setUnit path tree root
  rw [bindingOf, hb] at hrun
  dsimp only at hrun
  rw [Request.apply, hrun] at hcount
  exact ⟨_, _, hrun, hcount⟩

/-- Every document gets a script and is bound, except for a source file under a limit of no levels.
A unit has its path in any case. -/
theorem Reachable.admits_iff (h : w.Reachable) (path : String) (tree : DocTree) (root : NodeRef) :
    (∀ id limit, ((CompilationUnit.ofTree id path tree root).collect limit).HasScript ↔
      ¬(limit = 0 ∧ tree.kind? root = some .sourceFile)) ∧
    (w.Admits path tree root ↔
      ¬(w.options.maxCollectDepth = 0 ∧ tree.kind? root = some .sourceFile)) ∧
    ((Request.setUnit path tree root).apply w).program.paths.count path = 1 := by
  refine ⟨fun id limit => CompilationUnit.hasScript_collect_iff limit id path tree root, ?_,
    h.count_paths_setUnit path tree root⟩
  rw [h.admits_iff_hasScript, CompilationUnit.hasScript_collect_iff]

/-- A class that is its own member, next to members and statements that are missing. -/
def knottedClass : DocTree × NodeRef :=
  let (root, b) := StateT.run (m := Id) (do
    let c ← Build.classDecl "C" ∅ [] [] [some 1, some 77]
    Build.sourceFile [c, none]) { path := "a.ts" }
  (b.finish root, root)

theorem admits_iff_knottedClass : (ofOptions { maxCollectDepth := 5 }).Reachable ∧
    (ofOptions { maxCollectDepth := 5 }).Admits "a.ts" knottedClass.1 knottedClass.2 := by
  have h := reachable_ofOptions { maxCollectDepth := 5 }
  exact ⟨h, (h.admits_iff "a.ts" knottedClass.1 knottedClass.2).2.1.mpr (by simp [ofOptions])⟩

/-- A source file with one variable. -/
def oneVariable : DocTree × NodeRef :=
  let (root, b) := StateT.run (m := Id)
    (do Build.sourceFile [← Build.singleVariable "v" ∅ none none]) { path := "a.ts" }
  (b.finish root, root)

/-- Under a limit of no levels the file is left out itself, and so it cannot be bound. -/
theorem not_admits : ¬∀ (options : Options) (requests : List Request) (path : String)
    (tree : DocTree) (root : NodeRef),
    ((ofOptions options).after requests).Admits path tree root := by
  intro h
  have hscript := (h { maxCollectDepth := 0 } [] "a.ts" oneVariable.1 oneVariable.2).1
  exact (CompilationUnit.hasScript_collect_iff 0 0 "a.ts" oneVariable.1 oneVariable.2).mp hscript
    ⟨rfl, by decide +kernel⟩

end Workspace

end NameBinding
