import NameBinding.Proofs.Bind.Appended
import NameBinding.Proofs.Workspace.Survivors

/-! # Units that come and go again

A new unit makes symbols and adds declarations to old ones. Every edge that it adds has a new symbol
at one end, and every new symbol lives by the new unit alone.

Main statement: if a unit is removed right after it was added, all that was there before is there
again, in the same order. -/

namespace NameBinding

open SymbolGraph

namespace Request

variable {request : Request} {w : Workspace}

/-- The request does not fail. -/
def succeeds (request : Request) (w : Workspace) : Bool :=
  match request.run w with
  | .ok _ _ => true
  | .error _ _ => false

theorem exists_run_of_succeeds (h : request.succeeds w) :
    ∃ answer, request.run w = .ok answer (request.apply w) := by
  unfold succeeds at h
  split at h
  · next answer w' hr => exact ⟨answer, by rw [apply, hr]⟩
  · exact absurd h (by simp)

end Request

namespace Workspace

variable {c : Chart} {w w₁ : Workspace} {u : CompilationUnit} {b : Binding} {x : SymbolId}
  {path : String} {tree : DocTree} {root : NodeRef} {answer : Request.Answer}

/-! ### A request that adds a document -/

/-- The workspace in which a new unit is bound, and nothing invalidated yet. -/
def bound (w : Workspace) (path : String) (tree : DocTree) (root : NodeRef) (b : Binding) :
    Workspace :=
  { w.addCollected path tree root with graph := b.graph, program := b.program }

/-- The outcome of binding a document after the old one at its path is gone. -/
def bindingOf (w : Workspace) (path : String) (tree : DocTree) (root : NodeRef) :
    EStateM.Result BindError Binding Unit :=
  BindM.bindUnit (w.detachPath path).program.nextUnit
    ⟨(w.detachPath path).graph, ((w.detachPath path).addCollected path tree root).program⟩

/-- A document is set in three steps: the old one goes, the new one is collected and bound, and what
it touches is invalidated. The last step is left out if binding fails. -/
theorem run_setUnit (w : Workspace) (path : String) (tree : DocTree) (root : NodeRef) :
    (Request.setUnit path tree root).run w = match w.bindingOf path tree root with
      | .ok _ b => .ok (.unit (w.detachPath path).program.nextUnit)
          (((w.detachPath path).bound path tree root b).afterBinding
            (w.detachPath path).program.nextUnit)
      | .error e b => .error e ((w.detachPath path).bound path tree root b) := by
  have hgraph : ((w.detachPath path).addCollected path tree root).graph =
      (w.detachPath path).graph := rfl
  simp only [Request.run, WorkspaceM.setUnit, WorkspaceM.attach, bind_assoc, run_modify_bind,
    run_get_bind]
  simp only [WorkspaceM.ofBind, bindingOf, bound, bind, EStateM.bind, hgraph]
  cases BindM.bindUnit (w.detachPath path).program.nextUnit
    ⟨(w.detachPath path).graph, ((w.detachPath path).addCollected path tree root).program⟩ <;> rfl

/-- A document that can be set answers with the next number. -/
theorem exists_run_setUnit_of_succeeds (h : (Request.setUnit path tree root).succeeds w) :
    ∃ w', (Request.setUnit path tree root).run w =
      .ok (.unit (w.detachPath path).program.nextUnit) w' := by
  obtain ⟨answer, hrun⟩ := Request.exists_run_of_succeeds h
  rw [run_setUnit] at hrun ⊢
  split at hrun
  · exact ⟨_, rfl⟩
  · exact absurd hrun (by simp)

/-- The document is collected and bound, and then its names are looked at. -/
theorem exists_bind_of_run_setUnit (hpath : path ∉ w.program.paths)
    (hrun : (Request.setUnit path tree root).run w = .ok answer w₁) :
    ∃ b, BindM.bindUnit w.program.nextUnit ⟨w.graph, (w.addCollected path tree root).program⟩ =
        .ok () b ∧ w₁ = (w.bound path tree root b).afterBinding w.program.nextUnit := by
  have hnone : w.program.unit? path = none := List.find?_eq_none.mpr fun u hu hp =>
    hpath (List.mem_map.mpr ⟨u, hu, by simpa using hp⟩)
  have hsame : w.detachPath path = w := by simp [detachPath, hnone]
  rw [run_setUnit, hsame] at hrun
  split at hrun
  · next b hb =>
    rw [bindingOf, hsame] at hb
    exact ⟨b, hb, (EStateM.Result.ok.inj hrun).2.symm⟩
  · exact absurd hrun (by simp)

/-! ### What a new unit adds -/

/-- What a workspace has over an earlier one after a unit came. -/
structure Attached (w : Workspace) (u : CompilationUnit) (w₁ : Workspace) : Prop where
  unit : w₁.program.unit? u.path = some u
  units : w₁.program.units.filter (·.path != u.path) = w.program.units
  size : w.graph.size ≤ w₁.graph.size
  /-- Old symbols get declarations of the unit, and are otherwise as before. -/
  label : ∀ {x}, x < w.graph.size → (w₁.graph.forgetUnit u.id).label? x = w.graph.label? x
  outgoing : ∀ {x}, x < w.graph.size →
    (w₁.graph.outgoing x).filter (·.isBefore w.graph.size) = w.graph.outgoing x
  incoming : ∀ {x}, x < w.graph.size →
    (w₁.graph.incoming x).filter (·.isBefore w.graph.size) = w.graph.incoming x
  undeclared : ∀ {x}, x < w.graph.size → w.graph.declarations x = [] →
    w₁.graph.declarations x = []
  /-- New symbols are declared in the unit, and nowhere else. -/
  declared : ∀ {x}, w.graph.size ≤ x → x < w₁.graph.size → w₁.graph.declarations x ≠ []
  authored : ∀ {x d}, w.graph.size ≤ x → d ∈ w₁.graph.declarations x → d.unit = u.id
  /-- Binding resolves nothing. -/
  derived : ∀ {e : Edge}, w₁.graph.hasEdge e → Derives w₁.graph e → w.graph.hasEdge e

/-- Binding a new unit adds to what was there, also if it fails. -/
theorem Sound.appends_bindUnit (hs : w.Sound) (hpath : path ∉ w.program.paths) (tree : DocTree)
    (root : NodeRef) : Contract (· = ⟨w.graph, (w.addCollected path tree root).program⟩)
      (BindM.bindUnit (w.collectedUnit path tree root).id)
      (fun _ => Binding.Appended ⟨w.graph, (w.addCollected path tree root).program⟩
        (w.collectedUnit path tree root).id)
      (Binding.Appended ⟨w.graph, (w.addCollected path tree root).program⟩
        (w.collectedUnit path tree root).id) := by
  have hu := w.sound_collectedUnit path tree root
  have hmem : w.collectedUnit path tree root ∈ (w.addCollected path tree root).program.units :=
    List.mem_append_right _ (List.mem_singleton_self _)
  refine Binding.appends_bindUnit hmem hu.nested (hs.addCollected hpath tree root).program
    hs.graph.toMirrored fun {x d} hd hunit => ?_
  obtain ⟨y, hy⟩ := Option.isSome_iff_exists.mp (hs.known hd)
  obtain ⟨v, hv, hvy⟩ := hs.program.decl?_eq_some_iff.mp hy
  have hlt := hs.program.lt_next v hv
  rw [← (CompilationUnit.decl?_eq_some hvy).1, hunit, hu.id_eq] at hlt
  exact Nat.lt_irrefl _ hlt

theorem Sound.appended (hs : w.Sound) (hpath : path ∉ w.program.paths)
    (hb : BindM.bindUnit w.program.nextUnit ⟨w.graph, (w.addCollected path tree root).program⟩ =
      .ok () b) :
    Binding.Appended ⟨w.graph, (w.addCollected path tree root).program⟩ w.program.nextUnit b := by
  have happended := hs.appends_bindUnit hpath tree root
  rw [(w.sound_collectedUnit path tree root).id_eq] at happended
  exact happended.ok rfl hb

/-- The new symbols stand where declarations of the unit put them. -/
theorem Surveyed.declared_of_new (h : Surveyed c w) (hpath : path ∉ w.program.paths)
    (hb : BindM.bindUnit w.program.nextUnit ⟨w.graph, (w.addCollected path tree root).program⟩ =
      .ok () b) (hx : w.graph.size ≤ x) (hlt : x < b.graph.size) : b.graph.declarations x ≠ [] := by
  have hcharts := h.charts_bindUnit hpath tree root
  rw [(w.sound_collectedUnit path tree root).id_eq] at hcharts
  obtain ⟨c', hl, hsettled, -⟩ := Contract.ok hcharts rfl hb
  obtain ⟨q, hq⟩ := hl.seated hx hlt
  obtain ⟨d, hd⟩ := hsettled.backed hq
  exact List.ne_nil_of_mem ((hl.charted.declarations hq d).mpr hd)

theorem Sound.sound_bound (hs : w.Sound) (hpath : path ∉ w.program.paths)
    (hb : BindM.bindUnit w.program.nextUnit ⟨w.graph, (w.addCollected path tree root).program⟩ =
      .ok () b) : (w.bound path tree root b).Sound :=
  (Contract.ok (Binding.binds_bindUnit (hs.addCollected hpath tree root) _) rfl hb).1

theorem Surveyed.leads_bound (h : Surveyed c w) (hs : w.Sound) (hpath : path ∉ w.program.paths)
    (hb : BindM.bindUnit w.program.nextUnit ⟨w.graph, (w.addCollected path tree root).program⟩ =
      .ok () b) :
    ∃ c', Leads c w (w.program.documents ++ [(path, tree, root)]) c' (w.bound path tree root b) := by
  have hid : (w.collectedUnit path tree root).id = w.program.nextUnit :=
    (w.sound_collectedUnit path tree root).id_eq
  have hbinds := h.contract_bindUnit hs hpath tree root
  rw [hid] at hbinds
  exact hbinds.ok rfl hb

/-- The new unit is in the program, and all others are there as they were. -/
theorem Sound.exists_unit_bound (hs : w.Sound) (hpath : path ∉ w.program.paths)
    (hb : BindM.bindUnit w.program.nextUnit ⟨w.graph, (w.addCollected path tree root).program⟩ =
      .ok () b) : ∃ u ∈ b.program.units, u.path = path ∧ u.id = w.program.nextUnit ∧
      b.program.units.filter (·.path != path) = w.program.units := by
  have hu := w.sound_collectedUnit path tree root
  have happended := hs.appended hpath hb
  have hnewId : (w.collectedUnit path tree root).id = w.program.nextUnit := hu.id_eq
  have hnewPath : (w.collectedUnit path tree root).path = path := hu.path_eq
  have hids : ∀ v ∈ w.program.units, v.id ≠ w.program.nextUnit := fun v hv =>
    Nat.ne_of_lt (hs.program.lt_next v hv)
  have hkeys := happended.keys
  rw [program_addCollected, Program.add, List.map_append, List.map_cons, hnewId, hnewPath] at hkeys
  obtain ⟨u, hmem, huk⟩ := List.mem_map.mp (hkeys ▸ List.mem_append_right _ List.mem_cons_self :
    (w.program.nextUnit, path) ∈ b.program.units.map fun u => (u.id, u.path))
  obtain ⟨hid, hupath⟩ := Prod.mk.inj huk
  refine ⟨u, hmem, hupath, hid, ?_⟩
  have hsame : b.program.units.filter (·.path != path) =
      b.program.units.filter (·.id != w.program.nextUnit) := by
    refine List.filter_congr fun v hv => ?_
    have hkey : (v.id, v.path) ∈ b.program.units.map fun u => (u.id, u.path) :=
      List.mem_map_of_mem hv
    rw [hkeys] at hkey
    rcases List.mem_append.mp hkey with hold | hnew
    · obtain ⟨v', hv', hvk⟩ := List.mem_map.mp hold
      obtain ⟨hvid, hvpath⟩ := Prod.mk.inj hvk
      have hne : v.path ≠ path := fun heq =>
        hpath (List.mem_map.mpr ⟨v', hv', hvpath.trans heq⟩)
      have hne' : v.id ≠ w.program.nextUnit := hvid ▸ hids v' hv'
      rw [bne_iff_ne.mpr hne, bne_iff_ne.mpr hne']
    · obtain ⟨hvid, hvpath⟩ := Prod.mk.inj (List.mem_singleton.mp hnew)
      simp [hvid, hvpath]
  have hkept : w.program.units.filter (·.id != w.program.nextUnit) = w.program.units :=
    List.filter_eq_self.mpr fun v hv => bne_iff_ne.mpr (hids v hv)
  rw [hsame, happended.units, program_addCollected, Program.add, List.filter_append, hkept]
  simp [hnewId]

/-- What adding a document adds. -/
theorem Reachable.exists_attached (h : w.Reachable) (hpath : path ∉ w.program.paths)
    (hrun : (Request.setUnit path tree root).run w = .ok answer w₁) :
    ∃ u, u.path = path ∧ u.id = w.program.nextUnit ∧ w.Attached u w₁ := by
  obtain ⟨c, hc⟩ := h.exists_surveyed
  obtain ⟨b, hb, rfl⟩ := exists_bind_of_run_setUnit hpath hrun
  obtain ⟨u, hu, hupath, hid, hunits⟩ := h.sound.exists_unit_bound hpath hb
  obtain ⟨c', hl⟩ := hc.leads_bound h.sound hpath hb
  have happended := h.sound.appended hpath hb
  have hsound := h.sound.sound_bound hpath hb
  have hlabel : ∀ x, ((w.bound path tree root b).afterBinding w.program.nextUnit).graph.label? x =
      b.graph.label? x := label?_invalidateAll _ _
  have hout : ∀ x, ((w.bound path tree root b).afterBinding w.program.nextUnit).graph.outgoing x =
      b.graph.outgoing x := outgoing_invalidateAll _ _
  have hin : ∀ x, ((w.bound path tree root b).afterBinding w.program.nextUnit).graph.incoming x =
      b.graph.incoming x := incoming_invalidateAll _ _
  have hsize := size_eq_of_label? hlabel
  refine ⟨u, hupath, hid, ?_, hupath ▸ hunits, ?_, ?_, ?_, ?_, ?_, ?_, ?_, ?_⟩
  · exact hsound.program.unit?_eq_some_iff.mpr ⟨hu, rfl⟩
  · rw [hsize]
    exact happended.size
  · intro x hx
    rw [label?_forgetUnit, hlabel, ← label?_forgetUnit, hid]
    exact happended.label hx
  · intro x hx
    rw [hout]
    exact happended.outgoing hx
  · intro x hx
    rw [hin]
    exact happended.incoming hx
  · intro x hx hnil
    rw [declarations_congr (hlabel x)]
    exact happended.undeclared hx hnil
  · intro x hx hlt
    rw [declarations_congr (hlabel x)]
    exact hc.declared_of_new hpath hb hx (hsize ▸ hlt)
  · intro x d hx hd
    rw [declarations_congr (hlabel x)] at hd
    rw [hid]
    exact happended.authored hx hd
  · exact fun he hderives => ((hl.afterBinding _).kept he hderives).1

/-! ### A new unit goes again -/

namespace Attached

/-- An old symbol is declared in some unit from before, or not at all. -/
theorem declarations_eq_nil (h : w.Attached u w₁) (hx : x < w.graph.size)
    (hall : ∀ d ∈ w₁.graph.declarations x, d.unit = u.id) : w₁.graph.declarations x = [] := by
  refine h.undeclared hx ?_
  rw [← declarations_congr (h.label hx), declarations_forgetUnit, List.filter_eq_nil_iff]
  intro d hd
  simp [hall d hd]

/-- Exactly the new symbols die with the unit: a type that was synthesized before is not built over
a new symbol. -/
theorem dies_iff (h : w.Attached u w₁) (hs : w.Sound) (hs₁ : w₁.Sound) :
    w₁.Dies u.id x ↔ w.graph.size ≤ x ∧ x < w₁.graph.size := by
  constructor
  · intro hx
    induction hx with
    | @orphan x hneeds hdecl hall =>
        refine ⟨Nat.not_lt.mp fun hlt => hdecl (h.declarations_eq_nil hlt hall), ?_⟩
        obtain ⟨d, hd⟩ := List.exists_mem_of_ne_nil _ hdecl
        exact lt_size_of_mem_declarations hd
    | @«over» x y kind hsyn hkind he _ ih =>
        have hold := h.derived he (.inr (.inl hsyn))
        exact absurd (hs.graph.lt_size hold).2 (Nat.not_lt.mpr ih.1)
  · rintro ⟨hx, hlt⟩
    have hdecl := h.declared hx hlt
    obtain ⟨d, hd⟩ := List.exists_mem_of_ne_nil _ hdecl
    exact .orphan (hs₁.graph.declarable hd) hdecl fun d hd => h.authored hx hd

theorem mem_dyingWith_iff (h : w.Attached u w₁) (hs : w.Sound) (hs₁ : w₁.Sound) :
    x ∈ w₁.dyingWith u ↔ w.graph.size ≤ x ∧ x < w₁.graph.size :=
  (hs₁.mem_dyingWith_iff u).trans (h.dies_iff hs hs₁)

/-- The edges that stay are those between old symbols. -/
theorem any_touches_dyingWith (h : w.Attached u w₁) (hs : w.Sound) (hs₁ : w₁.Sound) {e : Edge}
    (he : w₁.graph.hasEdge e) :
    (!(w₁.dyingWith u).any e.touches) = e.isBefore w.graph.size := by
  obtain ⟨hsource, htarget⟩ := hs₁.graph.lt_size he
  rw [Bool.eq_iff_iff, Bool.not_eq_true', ← Bool.not_eq_true, any_touches_iff,
    h.mem_dyingWith_iff hs hs₁, h.mem_dyingWith_iff hs hs₁, Edge.isBefore_iff]
  simp only [hsource, htarget, and_true, not_or, Nat.not_le]

end Attached

/-- All that was there in a workspace is there in a later one, and nothing else is alive there. -/
structure Restored (w w' : Workspace) : Prop where
  units : w'.program.units = w.program.units
  label : ∀ x < w.graph.size, w'.graph.label? x = w.graph.label? x
  outgoing : ∀ x < w.graph.size, w'.graph.outgoing x = w.graph.outgoing x
  incoming : ∀ x < w.graph.size, w'.graph.incoming x = w.graph.incoming x
  buried : ∀ x, w.graph.size ≤ x →
    w'.graph.declarations x = [] ∧ w'.graph.outgoing x = [] ∧ w'.graph.incoming x = []

theorem Attached.restored (h : w.Attached u w₁) (hs : w.Sound) (hs₁ : w₁.Sound) :
    w.Restored (w₁.detach u) where
  units := h.units
  label x hx := (label?_detach w₁ u x).trans (h.label hx)
  outgoing x hx := by
    rw [outgoing_detach hs₁, ← h.outgoing hx]
    exact List.filter_congr fun e he =>
      h.any_touches_dyingWith hs hs₁ (hs₁.graph.mem_outgoing_iff.mp he).2
  incoming x hx := by
    rw [incoming_detach hs₁, ← h.incoming hx]
    exact List.filter_congr fun e he =>
      h.any_touches_dyingWith hs hs₁ (hs₁.graph.mem_incoming_iff.mp he).2
  buried x hx := by
    rw [declarations_detach, outgoing_detach hs₁, incoming_detach hs₁, List.filter_eq_nil_iff,
      List.filter_eq_nil_iff, List.filter_eq_nil_iff]
    refine ⟨fun d hd => by simp [h.authored hx hd], fun e he => ?_, fun e he => ?_⟩
    · obtain ⟨rfl, hedge⟩ := hs₁.graph.mem_outgoing_iff.mp he
      rw [h.any_touches_dyingWith hs hs₁ hedge, Edge.isBefore_iff]
      exact fun hbefore => Nat.not_lt.mpr hx hbefore.1
    · obtain ⟨rfl, hedge⟩ := hs₁.graph.mem_incoming_iff.mp he
      rw [h.any_touches_dyingWith hs hs₁ hedge, Edge.isBefore_iff]
      exact fun hbefore => Nat.not_lt.mpr hx hbefore.2

/-- A document that is added and removed leaves no trace but dead symbols: all symbols from before
have the names, kinds, flags, declarations and edges from before, in the same order, and the other
units are as they were. -/
theorem removeUnit_after_setUnit (h : w.Reachable) (hpath : path ∉ w.program.paths)
    (hrun : (Request.setUnit path tree root).run w = .ok answer w₁) :
    ∃ w₂, (Request.removeUnit path).run w₁ = .ok .done w₂ ∧ w.Restored w₂ := by
  obtain ⟨u, rfl, -, hu⟩ := h.exists_attached hpath hrun
  have hreach := h.apply (.setUnit u.path tree root)
  rw [Request.apply, hrun] at hreach
  exact ⟨w₁.detach u, run_removeUnit hu.unit, hu.restored h.sound hreach.sound⟩

/-- A module with an interface, and a variable of that type, which is resolved. -/
def openedModule : Workspace := (ofOptions {}).after
  [.setStatements "one.ts" do
      let i ← Build.interfaceDecl "I" (Flags.single .exported) [] []
      let v ← Build.singleVariable "v" ∅ (← Build.typeReference "M.I") none
      return [← Build.moduleDecl "M" ∅ [i], v],
    .demand (.symbol 10)]

/-- More of the same module and interface, with members that need new types. -/
def moreOfModule : Request := .setStatements "more.ts" do
  let p ← Build.propertySignature "p" ∅ (← Build.arrayType (← Build.typeReference "I"))
  let i ← Build.interfaceDecl "I" (Flags.single .exported) [] [p]
  let c ← Build.classDecl "C" ∅ [← Build.typeReference "I"] [] []
  return [← Build.moduleDecl "M" ∅ [i, c]]

theorem removeUnit_after_setUnit_openedModule :
    openedModule.Reachable ∧ "more.ts" ∉ openedModule.program.paths ∧
      ∃ tree root answer w₁, moreOfModule = .setUnit "more.ts" tree root ∧
        (Request.setUnit "more.ts" tree root).run openedModule = .ok answer w₁ ∧
        ∃ w₂, (Request.removeUnit "more.ts").run w₁ = .ok .done w₂ ∧ openedModule.Restored w₂ := by
  have hreach : openedModule.Reachable := ⟨_, _, rfl⟩
  have hpath : "more.ts" ∉ openedModule.program.paths := by decide +kernel
  obtain ⟨tree, root, hrequest⟩ : ∃ tree root, moreOfModule = .setUnit "more.ts" tree root :=
    ⟨_, _, rfl⟩
  have hsucceeds : moreOfModule.succeeds openedModule := by decide +kernel
  rw [hrequest] at hsucceeds
  obtain ⟨answer, hrun⟩ := Request.exists_run_of_succeeds hsucceeds
  exact ⟨hreach, hpath, tree, root, answer, _, hrequest, hrun,
    removeUnit_after_setUnit hreach hpath hrun⟩

/-- The unit gives the module and the interface a second declaration each, and makes three symbols. -/
example : (moreOfModule.apply openedModule).graph.size = openedModule.graph.size + 3 ∧
    ((moreOfModule.apply openedModule).graph.declarations 9).map (·.unit) = [0, 1] := by
  decide +kernel

end Workspace

end NameBinding
