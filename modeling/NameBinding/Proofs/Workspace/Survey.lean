import Mathlib.Data.List.Induction
import NameBinding.Proofs.Bind.Answered
import NameBinding.Proofs.Bind.Writes
import NameBinding.Proofs.Place.Contributions
import NameBinding.Proofs.Place.Unit
import NameBinding.Proofs.Place.Without
import NameBinding.Proofs.Workspace.Removal

/-! # Surveys

Whatever is requested, the symbols of a workspace stand at the places to which its program
contributes. So what is declared depends on the documents alone, and not on how they came. -/

namespace NameBinding

open SymbolGraph

namespace Program

/-- The documents of the units, in their order. -/
def documents (p : Program) : List (String × DocTree × NodeRef) :=
  p.units.map fun u => (u.path, u.tree, u.root)

theorem paths_eq (p : Program) : p.paths = p.documents.map (·.1) := by
  rw [paths, documents, List.map_map]
  rfl

theorem documents_of_text_eq {p p' : Program} (h : p'.text = p.text) : p'.documents = p.documents := by
  have hmap : ∀ q : Program, q.documents = q.text.map fun u => (u.path, u.tree, u.root) := by
    intro q
    rw [documents, text, List.map_map]
    rfl
  rw [hmap, hmap, h]

end Program

/-- The chart of a workspace without documents. -/
def Chart.empty : Chart := ⟨fun _ => none, fun _ => none, fun _ _ => False⟩

theorem Chart.place_empty {x : SymbolId} {q : Place} : Chart.empty.place x ≠ some q := by
  simp [empty]

/-- A step of binding inside a workspace. -/
theorem WorkspaceM.contract_ofBind_from {α : Type} {step : BindM α} {w : Workspace}
    {post : α → Binding → Prop} {fail : Binding → Prop}
    (h : Contract (· = ⟨w.graph, w.program⟩) step post fail) :
    Contract (· = w) (ofBind step)
      (fun a w' => ∃ b, post a b ∧ w' = { w with graph := b.graph, program := b.program })
      fun w' => ∃ b, fail b ∧ w' = { w with graph := b.graph, program := b.program } := by
  rintro _ rfl
  have hstep := h _ rfl
  unfold ofBind
  split at hstep
  · next hr =>
    rw [hr]
    exact ⟨_, hstep, rfl⟩
  · next hr =>
    rw [hr]
    exact ⟨_, hstep, rfl⟩

/-- A step of resolving inside a workspace. -/
theorem WorkspaceM.contract_ofResolve_from {α : Type} {step : Setting → ResolveM α} {w : Workspace}
    {post : α → Resolution → Prop} {fail : Resolution → Prop}
    (h : Contract (· = ⟨w.graph, w.diagnostics⟩) (step w.setting) post fail) :
    Contract (· = w) (ofResolve step)
      (fun a w' => ∃ r, post a r ∧ w' = { w with graph := r.graph, diagnostics := r.diagnostics })
      fun w' => ∃ r, fail r ∧ w' = { w with graph := r.graph, diagnostics := r.diagnostics } := by
  rintro _ rfl
  have hstep := h _ rfl
  unfold ofResolve
  split at hstep
  · next hr =>
    rw [hr]
    exact ⟨_, hstep, rfl⟩
  · next hr =>
    rw [hr]
    exact ⟨_, hstep, rfl⟩

theorem Request.apply_of_contract {request : Request} {w : Workspace} {P : Workspace → Prop}
    (h : Contract (· = w) request.run (fun _ => P) P) : P (request.apply w) := by
  have hrun := h w rfl
  unfold Request.apply
  split at hrun
  · next hr =>
    rw [hr]
    exact hrun
  · next hr =>
    rw [hr]
    exact hrun

namespace Workspace

/-- The unit as it is collected for its document. -/
def IsCollected (limit : Nat) (u : CompilationUnit) : Prop :=
  u.text = ((CompilationUnit.ofTree u.id u.path u.tree u.root).collect limit).text

theorem IsCollected.of_text {limit : Nat} {u v : CompilationUnit} (h : IsCollected limit v)
    (ht : u.text = v.text) : IsCollected limit u := by
  change u.text = ((CompilationUnit.ofTree u.text.id u.text.path u.text.tree u.text.root).collect
    limit).text
  rw [ht]
  exact h

/-- The chart is right about the workspace, and it is settled. -/
structure Surveyed (c : Chart) (w : Workspace) : Prop where
  charted : Binding.Charted c ⟨w.graph, w.program⟩
  settled : c.Settled
  contributes : ∀ {d q}, c.contributes d q ↔ w.program.Contributes d q
  collected : ∀ u ∈ w.program.units, IsCollected w.options.maxCollectDepth u
  /-- What is there from the start stays as it is. -/
  initial : ∀ {x}, x < WellKnown.count →
    w.graph.label? x = WellKnown.graph.label? x ∧ c.place x = none
  later : ∀ {x}, w.graph.has x .wellKnown → x < WellKnown.count
  /-- Structure comes from declarations, or is inside a synthesized type. -/
  anchored : ∀ {e : Edge}, w.graph.hasEdge e → e.kind.isStructural →
    c.Joins e ∨ (w.graph.isSynthesized e.source ∧ w.graph.isSynthesized e.target)
  /-- Listed declarations are bound, each to a symbol of its kind. -/
  answered : Binding.Answers [] [] ⟨w.graph, w.program⟩
  named : ∀ {d x}, w.program.symbol? d = some x → c.Names w.program d x

/-- All edges come from declarations. -/
def Bare (c : Chart) (w : Workspace) : Prop := ∀ {e : Edge}, w.graph.hasEdge e → c.Joins e

/-- No declaration makes the edge: it comes from resolving, or stands in a synthesized type. -/
def Derives (g : SymbolGraph) (e : Edge) : Prop :=
  ¬e.kind.isStructural ∨ g.isSynthesized e.source ∨ g.isSynthesized e.target

/-- The ends of the edge have the same kind and flags in both graphs, and stay declared. -/
def SameEnds (g g' : SymbolGraph) (e : Edge) : Prop :=
  ∀ x, x = e.source ∨ x = e.target → g'.kind? x = g.kind? x ∧ (∀ f, g'.has x f = g.has x f) ∧
    (g.declarations x ≠ [] → g'.declarations x ≠ [])

/-- What a request leads to: the documents are the given ones, and a chart is still right. -/
structure Leads (c : Chart) (w : Workspace) (documents : List (String × DocTree × NodeRef))
    (c' : Chart) (w' : Workspace) : Prop where
  surveyed : Surveyed c' w'
  bare : Bare c w → Bare c' w'
  unmarked : (∀ x, ¬w.graph.isResolved x) → ∀ x, ¬w'.graph.isResolved x
  /-- Edges that resolving made are not made otherwise. -/
  kept : ∀ {e : Edge}, w'.graph.hasEdge e → Derives w'.graph e →
    w.graph.hasEdge e ∧ SameEnds w.graph w'.graph e
  options : w'.options = w.options
  documents : w'.program.documents = documents

namespace SameEnds

variable {g g' g'' : SymbolGraph} {e : Edge}

theorem refl (g : SymbolGraph) (e : Edge) : SameEnds g g e := fun _ _ =>
  ⟨rfl, fun _ => rfl, fun h => h⟩

theorem trans (h : SameEnds g g' e) (h' : SameEnds g' g'' e) : SameEnds g g'' e := fun x hx =>
  ⟨(h' x hx).1.trans (h x hx).1, fun f => ((h' x hx).2.1 f).trans ((h x hx).2.1 f),
    fun hd => (h' x hx).2.2 ((h x hx).2.2 hd)⟩

theorem isSynthesized_iff (h : SameEnds g g' e) {x : SymbolId} (hx : x = e.source ∨ x = e.target) :
    g'.isSynthesized x ↔ g.isSynthesized x := by
  rw [SymbolGraph.isSynthesized_iff, SymbolGraph.isSynthesized_iff, (h x hx).2.1, (h x hx).2.1]

theorem derives (h : SameEnds g g' e) (he : Derives g' e) : Derives g e := by
  rwa [Derives, ← h.isSynthesized_iff (.inl rfl), ← h.isSynthesized_iff (.inr rfl)]

end SameEnds

variable {c c' : Chart} {w : Workspace} {u : CompilationUnit}

/-! ### Without documents -/

theorem not_hasEdge_ofOptions (options : Options) (e : Edge) :
    ¬(ofOptions options).graph.hasEdge e :=
  WellKnown.graph_induction (P := fun g => ∀ e, ¬g.hasEdge e)
    (fun e => by simp [hasEdge_iff, outgoing_eq_nil (g := .empty) (Nat.zero_le e.source)])
    (fun g name kind flags hg e => by simpa [hasEdge] using hg e) e

theorem surveyed_ofOptions (options : Options) : Surveyed .empty (ofOptions options) where
  charted := {
    program := .empty
    wellFormed := WellKnown.sound_graph.toWellFormed
    lt_size := fun hx => absurd hx Chart.place_empty
    injective := fun hx => absurd hx Chart.place_empty
    proper := fun hx => absurd hx Chart.place_empty
    fits := fun hx => absurd hx Chart.place_empty
    declarations := fun hx => absurd hx Chart.place_empty
    undeclared := fun _ => WellKnown.declarations_graph _
    unrepeated := fun x => by
      change (WellKnown.graph.declarations x).Nodup
      rw [WellKnown.declarations_graph]
      exact List.nodup_nil
    filled := fun hd => absurd hd id
    authored := fun hd => absurd hd id
    owned := fun hx => absurd hx Chart.place_empty
    attached := fun ha => absurd ha (by simp [Chart.empty])
    joined := fun _ hends => absurd hends (by simp [Chart.empty])
    listed := fun hu => absurd hu (by simp [ofOptions])
    global := fun hd => absurd hd id }
  settled := ⟨fun hx => absurd hx Chart.place_empty, fun hx => absurd hx Chart.place_empty,
    fun hx => absurd hx Chart.place_empty⟩
  contributes := by simp [Chart.empty, Program.Contributes, ofOptions]
  collected := by simp [ofOptions]
  initial _ := ⟨rfl, rfl⟩
  later {x} hx := by
    by_contra hle
    have hnone : WellKnown.graph.get? x = none := by
      rw [get?_eq_none_iff, WellKnown.size_graph]
      exact Nat.not_lt.mp hle
    simp [ofOptions, has, hnone] at hx
  anchored he := absurd he (not_hasEdge_ofOptions options _)
  answered := ⟨fun {x d} hd => by
    change d ∈ WellKnown.graph.declarations x at hd
    rw [WellKnown.declarations_graph] at hd
    exact absurd hd List.not_mem_nil, fun hd => absurd hd List.not_mem_nil⟩
  named hx := by simp [ofOptions, Program.symbol?, Program.decl?, Program.unitById?] at hx

theorem not_isResolved_ofOptions (options : Options) (x : SymbolId) :
    ¬(ofOptions options).graph.isResolved x :=
  WellKnown.graph_induction (P := fun g => ¬g.isResolved x)
    (by simp [isResolved, SymbolGraph.empty, get?]) fun g name kind flags hg => by
      rwa [isResolved_alloc]

theorem bare_ofOptions (options : Options) : Bare .empty (ofOptions options) := fun he =>
  absurd he (not_hasEdge_ofOptions options _)

/-! ### The graph alone changes -/

/-- Labels and the edges of declarations stay. -/
theorem Surveyed.setGraph (h : Surveyed c w) {w' : Workspace} (hp : w'.program = w.program)
    (ho : w'.options = w.options) (hw : w'.graph.WellFormed) (hsize : w.graph.size ≤ w'.graph.size)
    (hlabel : ∀ x, x < w.graph.size → w'.graph.label? x = w.graph.label? x)
    (hdecl : ∀ x, w'.graph.declarations x = w.graph.declarations x)
    (hedge : ∀ e : Edge, e.kind.isStructural → e.source < w.graph.size ∨ e.target < w.graph.size →
      (w'.graph.hasEdge e ↔ w.graph.hasEdge e))
    (hlater : ∀ x, w.graph.size ≤ x → ¬w'.graph.has x .wellKnown)
    (hmade : ∀ x, w.graph.size ≤ x → x < w'.graph.size → w'.graph.has x .synthesized)
    (hcount : WellKnown.count ≤ w.graph.size) : Surveyed c w' where
  charted := by
    rw [hp]
    exact h.charted.setGraph hw hsize hlabel hdecl hedge
  settled := h.settled
  contributes := by
    rw [hp]
    exact h.contributes
  collected := by
    rw [hp, ho]
    exact h.collected
  initial {x} hx := by
    rw [hlabel x (Nat.lt_of_lt_of_le hx hcount)]
    exact h.initial hx
  later {x} hx := by
    by_cases hlt : x < w.graph.size
    · rw [has_congr (hlabel x hlt)] at hx
      exact h.later hx
    · exact absurd hx (hlater x (Nat.not_lt.mp hlt))
  anchored {e} he hk := by
    by_cases hends : e.source < w.graph.size ∨ e.target < w.graph.size
    · have hold := (hedge e hk hends).mp he
      obtain ⟨hs, ht⟩ := h.charted.wellFormed.lt_size hold
      refine (h.anchored hold hk).imp_right fun hsyn => ?_
      rw [isSynthesized_congr (hlabel _ hs), isSynthesized_congr (hlabel _ ht)]
      exact hsyn
    · rw [not_or, Nat.not_lt, Nat.not_lt] at hends
      obtain ⟨hs, ht⟩ := hw.lt_size he
      exact .inr ⟨isSynthesized_iff.mpr ⟨hmade _ hends.1 hs, hlater _ hends.1⟩,
        isSynthesized_iff.mpr ⟨hmade _ hends.2 ht, hlater _ hends.2⟩⟩
  answered := h.answered.congr hdecl fun d => by rw [hp]
  named := by
    rw [hp]
    exact h.named

theorem Surveyed.count_le (h : Surveyed c w) : WellKnown.count ≤ w.graph.size := by
  by_contra hlt
  have hx := (h.initial (Nat.not_le.mp hlt)).1
  have hnone : w.graph.label? w.graph.size = none := by
    rw [label?, (get?_eq_none_iff _ _).mpr (Nat.le_refl _)]
    rfl
  have hsome := isSome_label? WellKnown.graph w.graph.size
  rw [← hx, hnone, WellKnown.size_graph] at hsome
  simp [Nat.not_le.mp hlt] at hsome

theorem Surveyed.declarations_ne_nil (h : Surveyed c w) {x : SymbolId} {q : Place}
    (hx : c.place x = some q) : w.graph.declarations x ≠ [] := by
  obtain ⟨d, hd⟩ := h.settled.backed hx
  exact List.ne_nil_of_mem ((h.charted.declarations hx d).mpr hd)

/-- What is declared stands somewhere. -/
theorem Surveyed.exists_place (h : Surveyed c w) {x : SymbolId} (hx : w.graph.declarations x ≠ []) :
    ∃ q, c.place x = some q :=
  Option.ne_none_iff_exists'.mp fun hnone => hx (h.charted.undeclared hnone)

theorem hasEdge_invalidateAll (g : SymbolGraph) (ids : List SymbolId) (e : Edge) :
    (g.invalidateAll ids).hasEdge e ↔ g.hasEdge e := by
  rw [hasEdge_iff, hasEdge_iff, outgoing_invalidateAll]

theorem Surveyed.afterBinding (h : Surveyed c w) (unit : UnitId) :
    Surveyed c (w.afterBinding unit) ∧ (Bare c w → Bare c (w.afterBinding unit)) := by
  unfold Workspace.afterBinding
  dsimp only
  generalize w.graph.allResolvedThrough _ = affected
  have hsize : (w.graph.invalidateAll affected).size = w.graph.size :=
    size_eq_of_label? (label?_invalidateAll _ _)
  refine ⟨h.setGraph rfl rfl ?_ (Nat.le_of_eq hsize.symm) (fun x _ => label?_invalidateAll _ _ x)
    (fun x => declarations_invalidateAll _ _ x) (fun e _ _ => hasEdge_invalidateAll _ _ e) ?_
    (fun x hx hlt => absurd (hsize ▸ hlt) (Nat.not_lt.mpr hx)) h.count_le, fun hb {e} he => hb ((hasEdge_invalidateAll _ _ e).mp he)⟩
  · exact invalidateAll_induction (P := WellFormed)
      (fun g id hg => hg.of_edges_eq (outgoing_invalidate g id) (incoming_invalidate g id)) _
      h.charted.wellFormed
  · intro x hx hw
    have hnone : (w.graph.invalidateAll affected).label? x = none := by
      rw [label?, (get?_eq_none_iff _ _).mpr (hsize ▸ hx)]
      rfl
    simp [has_eq, hnone] at hw

theorem Surveyed.resolved (h : Surveyed c w) {g : SymbolGraph} {diagnostics : List Diagnostic}
    (hg : w.graph.Resolves w.setting g) : Surveyed c { w with graph := g, diagnostics } := by
  have hwell := h.charted.wellFormed
  refine h.setGraph rfl rfl (hg.wellFormed hwell) hg.size_le (fun x hx => hg.label? hx)
    hg.declarations (fun e hk hends => ⟨fun he => ?_, hg.hasEdge_of_bound hwell ?_⟩)
    (fun x hx => hg.not_has_wellKnown hx) (fun x hx hlt => hg.has_synthesized hx hlt) h.count_le
  · rcases hg.hasEdge hwell he with he | hr | ⟨ha, -⟩ | ⟨-, hs, ht⟩
    · exact he
    · simp [EdgeKind.isStructural, hr] at hk
    · simp [EdgeKind.isStructural, ha] at hk
    · rcases hends with hlt | hlt
      · exact absurd hlt (Nat.not_lt.mpr hs)
      · exact absurd hlt (Nat.not_lt.mpr ht)
  · intro hr
    simp [EdgeKind.isStructural, hr] at hk

/-! ### Units come -/

/-- The unit that is collected for a new document. -/
def collectedUnit (w : Workspace) (path : String) (tree : DocTree) (root : NodeRef) :
    CompilationUnit :=
  { (CompilationUnit.ofTree w.program.nextUnit path tree root).collect w.options.maxCollectDepth with
    diagnostics := [] }

section Collected

variable (w : Workspace) (path : String) (tree : DocTree) (root : NodeRef)

theorem sound_collectedUnit : Collection.Sound (.ofTree w.program.nextUnit path tree root)
    { unit := w.collectedUnit path tree root } := by
  have h := CompilationUnit.sound_collect w.options.maxCollectDepth w.program.nextUnit path tree root
  exact ⟨h.id_eq, h.path_eq, h.tree_eq, h.root_eq, h.numbered, h.unbound,
    ⟨h.nested.nodup, h.nested.child, h.nested.parent, h.nested.plain⟩, h.interfaces, h.imports,
    h.statics, h.unlisted⟩

theorem isCollected_collectedUnit :
    IsCollected w.options.maxCollectDepth (w.collectedUnit path tree root) := by
  have h := w.sound_collectedUnit path tree root
  unfold IsCollected
  rw [h.id_eq, h.path_eq, h.tree_eq, h.root_eq]
  rfl

theorem program_addCollected : (w.addCollected path tree root).program =
    Program.add { w.program with nextUnit := w.program.nextUnit + 1 }
      (w.collectedUnit path tree root) := rfl

end Collected

/-- The new unit is in the program, and nothing of it is bound. -/
theorem Surveyed.charted_addCollected (h : Surveyed c w) {path : String}
    (hpath : path ∉ w.program.paths) (tree : DocTree) (root : NodeRef) :
    Binding.Charted c ⟨w.graph, (w.addCollected path tree root).program⟩ := by
  have hu := w.sound_collectedUnit path tree root
  rw [program_addCollected]
  have hold : ∀ {v}, v ∈ w.program.units → v ∈ (Program.add
      { w.program with nextUnit := w.program.nextUnit + 1 }
      (w.collectedUnit path tree root)).units := fun hv => List.mem_append_left _ hv
  exact {
    h.charted with
    program := h.charted.program.add hu.id_eq (by rw [hu.path_eq]; exact hpath) hu.numbered
    authored := fun hd => by
      obtain ⟨v, hv, hrest⟩ := h.charted.authored hd
      exact ⟨v, hold hv, hrest⟩
    listed := fun {v x name} hv hx => by
      rcases List.mem_append.mp hv with hv | hv
      · exact h.charted.listed hv hx
      · rw [List.mem_singleton.mp hv, CompilationUnit.topLevelSymbols, hu.unlisted] at hx
        exact absurd hx List.not_mem_nil
    global := fun hd hx => by
      obtain ⟨v, hv, hrest⟩ := h.charted.global hd hx
      exact ⟨v, hold hv, hrest⟩ }

theorem Surveyed.not_contributes_collectedUnit (h : Surveyed c w) {path : String} {tree : DocTree}
    {root : NodeRef} {d : DeclId} {q : Place}
    (hd : d.unit = (w.collectedUnit path tree root).id) : ¬c.contributes d q := by
  intro hc
  obtain ⟨v, hv, hid, -⟩ := h.contributes.mp hc
  have hlt := h.charted.program.lt_next v hv
  rw [hid, hd, (w.sound_collectedUnit path tree root).id_eq] at hlt
  exact Nat.lt_irrefl _ hlt

theorem contributes_addCollected {path : String} {tree : DocTree} {root : NodeRef} {d : DeclId}
    {q : Place} : (w.addCollected path tree root).program.Contributes d q ↔
      w.program.Contributes d q ∨ (d.unit = (w.collectedUnit path tree root).id ∧
        (d.index, q) ∈ (w.collectedUnit path tree root).places) := by
  rw [program_addCollected, Program.contributes_add]
  rfl

/-- Nothing new is bound yet. -/
theorem Surveyed.symbol?_addCollected (h : Surveyed c w) {path : String}
    (hpath : path ∉ w.program.paths) (tree : DocTree) (root : NodeRef) (d : DeclId) :
    (w.addCollected path tree root).program.symbol? d = w.program.symbol? d := by
  have hu := w.sound_collectedUnit path tree root
  have hadd := fun {d x} => h.charted.program.decl?_add_iff (d := d) (x := x) hu.id_eq
    (by rw [hu.path_eq]; exact hpath) hu.numbered
  rw [program_addCollected, Program.symbol?, Program.symbol?]
  cases hd : w.program.decl? d with
  | some x => rw [hadd.mpr (.inl hd)]
  | none =>
      cases hd' : (Program.add { w.program with nextUnit := w.program.nextUnit + 1 }
          (w.collectedUnit path tree root)).decl? d with
      | none => rfl
      | some x =>
          rcases hadd.mp hd' with hx | hx
          · exact absurd (hd.symm.trans hx) (by simp)
          · exact hu.unbound _ x (CompilationUnit.decl?_eq_some hx).2

theorem Surveyed.answered_addCollected (h : Surveyed c w) {path : String}
    (hpath : path ∉ w.program.paths) (tree : DocTree) (root : NodeRef) :
    Binding.Answers [] [] ⟨w.graph, (w.addCollected path tree root).program⟩ :=
  h.answered.congr (fun _ => rfl) (h.symbol?_addCollected hpath tree root)

theorem Surveyed.named_addCollected (h : Surveyed c w) {path : String}
    (hpath : path ∉ w.program.paths) {tree : DocTree} {root : NodeRef} {d : DeclId} {x : SymbolId}
    (hx : (w.addCollected path tree root).program.symbol? d = some x) :
    c.Names (w.addCollected path tree root).program d x := by
  have hu := w.sound_collectedUnit path tree root
  rw [h.symbol?_addCollected hpath] at hx
  obtain ⟨q, y, hq, hy, hk⟩ := h.named hx
  refine ⟨q, y, hq, ?_, hk⟩
  exact (h.charted.program.decl?_add_iff hu.id_eq (by rw [hu.path_eq]; exact hpath) hu.numbered).mpr
    (.inl hy)

theorem documents_addCollected (w : Workspace) (path : String) (tree : DocTree) (root : NodeRef) :
    (w.addCollected path tree root).program.documents =
      w.program.documents ++ [(path, tree, root)] := by
  have hu := w.sound_collectedUnit path tree root
  have hpath : (w.collectedUnit path tree root).path = path := hu.path_eq
  have htree : (w.collectedUnit path tree root).tree = tree := hu.tree_eq
  have hroot : (w.collectedUnit path tree root).root = root := hu.root_eq
  simp only [program_addCollected, Program.documents, Program.add, List.map_append, List.map_cons,
    List.map_nil, hpath, htree, hroot]

theorem Surveyed.collected_addCollected (h : Surveyed c w) (path : String) (tree : DocTree)
    (root : NodeRef) : ∀ u ∈ (w.addCollected path tree root).program.units,
      IsCollected w.options.maxCollectDepth u := by
  intro u hu
  rcases List.mem_append.mp hu with hu | hu
  · exact h.collected u hu
  · rw [List.mem_singleton.mp hu]
    exact w.isCollected_collectedUnit path tree root

theorem has_wellKnown_graph {x : SymbolId} (hx : x < WellKnown.count) :
    WellKnown.graph.has x .wellKnown := by
  have hall : ∀ x < WellKnown.count, WellKnown.graph.has x .wellKnown := by decide
  exact hall x hx

/-- The new unit is bound. -/
theorem Surveyed.bound (h : Surveyed c w) {path : String} (hpath : path ∉ w.program.paths)
    {tree : DocTree} {root : NodeRef} {b : Binding} (hb : b.Sound)
    (hanswers : Binding.Answers [] [] b)
    (hgrows : Binding.Grows ⟨w.graph, (w.addCollected path tree root).program⟩ b)
    (hl : Binding.Leads c ⟨w.graph, (w.addCollected path tree root).program⟩ c' b)
    (hs : c'.Settled)
    (hadds : c.Adds c' (w.collectedUnit path tree root).id (w.collectedUnit path tree root).places) :
    Surveyed c' { w.addCollected path tree root with graph := b.graph, program := b.program } ∧
      (Bare c w → Bare c'
        { w.addCollected path tree root with graph := b.graph, program := b.program }) := by
  have hplain : ∀ {x q}, c'.place x = some q → ¬b.graph.has x .wellKnown := by
    intro x q hx
    obtain ⟨d, hd⟩ := hs.backed hx
    exact (hb.graph.declarable ((hl.charted.declarations hx d).mpr hd)).2
  have hkept : ∀ {e : Edge}, c.Joins e → b.graph.hasEdge e → c'.Joins e := by
    intro e hj he
    obtain ⟨q, hq⟩ := Option.isSome_iff_exists.mp hj.placed.1
    refine (hl.charted.joined (h.charted.isStructural hj) (.inl ?_)).mp he
    rw [hl.place hq]
    rfl
  constructor
  · constructor
    · exact hl.charted
    · exact hs
    · intro d q
      rw [Program.contributes_congr (p := (w.addCollected path tree root).program) hl.text,
        contributes_addCollected, hadds d q, h.contributes]
    · intro u hu
      obtain ⟨v, hv, hvu⟩ := Program.exists_of_text_eq hl.text.symm hu
      exact (h.collected_addCollected path tree root v hv).of_text hvu.symm
    · intro x hx
      have hlt : x < w.graph.size := Nat.lt_of_lt_of_le hx h.count_le
      have hwk : b.graph.has x .wellKnown := by
        rw [hgrows.has .wellKnown hlt, has_congr (h.initial hx).1]
        exact has_wellKnown_graph hx
      have hnone : c'.place x = none :=
        Option.eq_none_iff_forall_ne_some.mpr fun q hq => hplain hq hwk
      exact ⟨(hl.label hlt hnone).trans (h.initial hx).1, hnone⟩
    · intro x hx
      by_cases hlt : x < w.graph.size
      · rw [hgrows.has .wellKnown hlt] at hx
        exact h.later hx
      · have hsize : x < b.graph.size := by
          have hsome := isSome_label? b.graph x
          by_contra hge
          simp [has, (get?_eq_none_iff b.graph x).mpr (Nat.not_lt.mp hge)] at hx
        obtain ⟨q, hq⟩ := hl.seated (Nat.not_lt.mp hlt) hsize
        exact absurd hx (hplain hq)
    · intro e he hk
      rcases hl.joins he with hold | hj
      · obtain ⟨hs, ht⟩ := h.charted.wellFormed.lt_size hold
        refine (h.anchored hold hk).imp (fun hj => hkept hj he) fun hsyn => ?_
        simpa only [isSynthesized_iff, hgrows.has _ hs, hgrows.has _ ht] using hsyn
      · exact .inl hj
    · exact hanswers
    · intro d x hx
      rcases hl.named hx with hold | hnew
      · exact (h.named_addCollected hpath hold).mono hl.place hl.text
      · exact hnew
  · intro hbare e he
    rcases hl.joins he with hold | hj
    · exact hkept (hbare hold) he
    · exact hj

/-- A document without declarations is not bound, and contributes nothing. -/
theorem Surveyed.unbound (h : Surveyed c w) {path : String} (hpath : path ∉ w.program.paths)
    {tree : DocTree} {root : NodeRef} (hnone : (w.collectedUnit path tree root).decls = #[]) :
    Surveyed c (w.addCollected path tree root) where
  charted := h.charted_addCollected hpath tree root
  settled := h.settled
  contributes {d q} := by
    have hplaces : (w.collectedUnit path tree root).places = [] := by
      rw [CompilationUnit.places, hnone]
      rfl
    rw [contributes_addCollected, hplaces, h.contributes]
    simp
  collected := h.collected_addCollected path tree root
  initial := h.initial
  later := h.later
  anchored := h.anchored
  answered := h.answered_addCollected hpath tree root
  named := h.named_addCollected hpath

/-- Without declarations there is no root, and binding a new unit fails at once. Otherwise it does not
fail. -/
theorem Surveyed.charts_bindUnit (h : Surveyed c w) {path : String} (hpath : path ∉ w.program.paths)
    (tree : DocTree) (root : NodeRef) :
    Contract (· = ⟨w.graph, (w.addCollected path tree root).program⟩)
      (BindM.bindUnit (w.collectedUnit path tree root).id)
      (fun _ b => ∃ c', Binding.Leads c ⟨w.graph, (w.addCollected path tree root).program⟩ c' b ∧
        c'.Settled ∧ c.Adds c' (w.collectedUnit path tree root).id
          (w.collectedUnit path tree root).places)
      fun b => (w.collectedUnit path tree root).decls = #[] ∧
        b = ⟨w.graph, (w.addCollected path tree root).program⟩ := by
  have hmem : w.collectedUnit path tree root ∈ (w.addCollected path tree root).program.units :=
    List.mem_append_right _ (List.mem_singleton_self _)
  have hcharted := h.charted_addCollected hpath tree root
  by_cases hnone : (w.collectedUnit path tree root).decls = #[]
  · have hroot : (w.collectedUnit path tree root).decl? (w.collectedUnit path tree root).rootDecl =
        none := by
      simp [CompilationUnit.decl?, hnone]
    rintro _ rfl
    rw [Binding.bindUnit_eq_error hcharted.program hmem hroot]
    exact ⟨hnone, rfl⟩
  · have hroot := CompilationUnit.decl?_rootDecl_collect _ _ _ _ _ hnone
    have hcharts := hcharted.charts_bindUnit h.settled hmem
      (w.sound_collectedUnit path tree root).nested hroot
      fun x r hx => h.not_contributes_collectedUnit hx
    exact Contract.weaken hcharts (fun _ hb => hb) (fun _ _ hb => hb) fun _ hb => hb.elim

theorem Surveyed.contract_bindUnit (h : Surveyed c w) (hsound : w.Sound) {path : String}
    (hpath : path ∉ w.program.paths) (tree : DocTree) (root : NodeRef) :
    Contract (· = ⟨w.graph, (w.addCollected path tree root).program⟩)
      (BindM.bindUnit (w.collectedUnit path tree root).id)
      (fun _ b => ∃ c', Leads c w (w.program.documents ++ [(path, tree, root)]) c'
        { w.addCollected path tree root with graph := b.graph, program := b.program })
      fun b => ∃ c', Leads c w (w.program.documents ++ [(path, tree, root)]) c'
        { w.addCollected path tree root with graph := b.graph, program := b.program } := by
  have hdocuments := w.documents_addCollected path tree root
  have hbinds := Binding.binds_bindUnit (hsound.addCollected hpath tree root)
    (w.collectedUnit path tree root).id
  have hanswers : Contract (· = ⟨w.graph, (w.addCollected path tree root).program⟩)
      (BindM.bindUnit (w.collectedUnit path tree root).id) (fun _ => Binding.Answers [] [])
      fun _ => True :=
    (Binding.answering_bindUnit _).weaken
      (fun _ hb => hb ▸ h.answered_addCollected hpath tree root) (fun _ _ hb => hb) fun _ hb => hb
  refine (Contract.both hbinds (Contract.both (h.charts_bindUnit hpath tree root) hanswers)).weaken
    (fun _ hb => hb) ?_ ?_
  · rintro _ b ⟨⟨hb, hgrows, -⟩, ⟨c', hl, hs, hadds⟩, hanswered⟩
    have hbound := h.bound hpath hb hanswered hgrows hl hs hadds
    have hplaced : ∀ {x}, (c'.place x).isSome → ¬b.graph.isSynthesized x := by
      intro x hx hsyn
      obtain ⟨q, hq⟩ := Option.isSome_iff_exists.mp hx
      obtain ⟨d, hd⟩ := hs.backed hq
      exact (hb.graph.declarable ((hl.charted.declarations hq d).mpr hd)).1 (isSynthesized_iff.mp hsyn).1
    refine ⟨c', hbound.1, hbound.2, fun hm x hx => hm x (hgrows.marked hx), fun he hk => ?_, rfl,
      ?_⟩
    · rcases hl.joins he with hold | hj
      · obtain ⟨hsource, htarget⟩ := h.charted.wellFormed.lt_size hold
        refine ⟨hold, fun x hx => ?_⟩
        have hlt : x < w.graph.size := by rcases hx with rfl | rfl <;> assumption
        refine ⟨hgrows.kind hlt, fun f => hgrows.has f hlt, fun hne hnil => hne ?_⟩
        exact List.subset_nil.mp (hnil ▸ hgrows.declarations x)
      · rcases hk with hk | hk | hk
        · exact absurd (hl.charted.isStructural hj) hk
        · exact absurd hk (hplaced hj.placed.1)
        · exact absurd hk (hplaced hj.placed.2)
    · exact (Program.documents_of_text_eq hl.text).trans hdocuments
  · rintro _ ⟨-, ⟨hnone, rfl⟩, -⟩
    exact ⟨c, h.unbound hpath hnone, fun hb => hb, fun hm => hm, fun he _ => ⟨he, .refl _ _⟩, rfl,
      hdocuments⟩

theorem Leads.afterBinding {documents : List (String × DocTree × NodeRef)} {w' : Workspace}
    (h : Leads c w documents c' w') (unit : UnitId) :
    Leads c w documents c' (w'.afterBinding unit) := by
  have hafter := h.surveyed.afterBinding unit
  have hlabel : ∀ x, (w'.afterBinding unit).graph.label? x = w'.graph.label? x :=
    label?_invalidateAll _ _
  refine ⟨hafter.1, fun hb => hafter.2 (h.bare hb), fun hm x hx => ?_, fun {e} he hk => ?_,
    h.options, h.documents⟩
  · exact h.unmarked hm x (isResolved_invalidateAll.mp hx).1
  · have hderives : Derives w'.graph e := by
      rwa [Derives, ← isSynthesized_congr (hlabel _), ← isSynthesized_congr (hlabel _)]
    obtain ⟨hold, hsame⟩ := h.kept ((hasEdge_invalidateAll _ _ e).mp he) hderives
    refine ⟨hold, fun x hx => ?_⟩
    rw [kind?_congr (hlabel x), declarations_congr (hlabel x)]
    exact ⟨(hsame x hx).1, fun f => (has_congr (hlabel x) f).trans ((hsame x hx).2.1 f),
      (hsame x hx).2.2⟩

/-- What binding the new unit leads to, and invalidating what it touches keeps, holds after a document
is added. -/
theorem contract_attach_of {P : Workspace → Prop} {path : String} {tree : DocTree} {root : NodeRef}
    (hbind : Contract (· = ⟨w.graph, (w.addCollected path tree root).program⟩)
      (BindM.bindUnit (w.collectedUnit path tree root).id)
      (fun _ b => P { w.addCollected path tree root with graph := b.graph, program := b.program })
      fun b => P { w.addCollected path tree root with graph := b.graph, program := b.program })
    (hafter : ∀ w' unit, P w' → P (w'.afterBinding unit)) :
    Contract (· = w) (WorkspaceM.attach path tree root) (fun _ => P) P := by
  rw [(w.sound_collectedUnit path tree root).id_eq] at hbind
  unfold WorkspaceM.attach
  refine Contract.get_bind fun s hs => ?_
  obtain rfl : w = s := hs.symm
  refine Contract.bind (Q := fun _ w₁ => w₁ = w.addCollected path tree root)
    (Contract.modify fun w₁ hw₁ => hw₁ ▸ rfl) fun _ => ?_
  refine Contract.bind (Q := fun _ => P) ?_ fun _ => ?_
  · exact (WorkspaceM.contract_ofBind_from hbind).weaken (fun _ hw => hw)
      (fun _ w₂ ⟨b, hb, hw₂⟩ => hw₂ ▸ hb) fun w₂ ⟨b, hb, hw₂⟩ => hw₂ ▸ hb
  · exact Contract.bind (Contract.modify fun w₂ hw₂ => hafter w₂ _ hw₂) fun _ =>
      Contract.pure _ fun _ h => h

theorem Surveyed.contract_attach (h : Surveyed c w) (hsound : w.Sound) {path : String}
    (hpath : path ∉ w.program.paths) (tree : DocTree) (root : NodeRef) :
    Contract (· = w) (WorkspaceM.attach path tree root)
      (fun _ w' => ∃ c', Leads c w (w.program.documents ++ [(path, tree, root)]) c' w')
      fun w' => ∃ c', Leads c w (w.program.documents ++ [(path, tree, root)]) c' w' :=
  contract_attach_of (h.contract_bindUnit hsound hpath tree root)
    fun _ unit ⟨c', hl⟩ => ⟨c', hl.afterBinding unit⟩

/-! ### Units go -/

theorem hasEdge_detach (hs : w.Sound) (u : CompilationUnit) (e : Edge) :
    (w.detach u).graph.hasEdge e ↔
      w.graph.hasEdge e ∧ e.source ∉ w.dyingWith u ∧ e.target ∉ w.dyingWith u := by
  rw [hasEdge_iff, hasEdge_iff, outgoing_detach hs, List.mem_filter, Bool.not_eq_true',
    ← Bool.not_eq_true, any_touches_iff, not_or]

/-- Exactly the symbols die to which only the unit contributes. -/
theorem Surveyed.not_mem_dyingWith_iff (h : Surveyed c w) (hs : w.Sound) {x : SymbolId} {q : Place}
    (hx : c.place x = some q) :
    x ∉ w.dyingWith u ↔ ((c.without u.id).place x).isSome := by
  have hdecl := h.charted.declarations hx
  constructor
  · intro hdying
    obtain ⟨d, hd⟩ := List.exists_mem_of_ne_nil _
      (declarations_detach_ne_nil hs hdying (h.declarations_ne_nil hx))
    rw [declarations_detach, List.mem_filter] at hd
    rw [Chart.place_without.mpr ⟨hx, d, (hdecl d).mp hd.1, by simpa using hd.2⟩]
    rfl
  · intro hsome
    obtain ⟨r, hr⟩ := Option.isSome_iff_exists.mp hsome
    obtain ⟨hxr, d, hd, hne⟩ := Chart.place_without.mp hr
    obtain rfl := Option.some.inj (hxr.symm.trans hx)
    refine not_mem_dyingWith hs (d := d) ?_
    rw [declarations_detach, List.mem_filter]
    exact ⟨(hdecl d).mpr hd, by simpa using hne⟩

theorem Surveyed.detach (h : Surveyed c w) (hs : w.Sound) (hu : u ∈ w.program.units) :
    Leads c w (w.program.documents.filter (·.1 != u.path)) (c.without u.id) (w.detach u) := by
  have howner : ∀ {d q}, c.contributes d q →
      q.owner = .top ∨ ∃ i, c.contributes ⟨d.unit, i⟩ q.owner := fun hd =>
    (h.contributes.mp hd).owner.imp_right fun ⟨i, hi⟩ => ⟨i, h.contributes.mpr hi⟩
  have hside : ∀ {d q}, c.contributes d q → q.kind? = some .classType →
      ∃ i, c.contributes ⟨d.unit, i⟩ q.instanceSide := fun hd hk => by
    obtain ⟨i, hi⟩ := (h.contributes.mp hd).side hk
    exact ⟨i, h.contributes.mpr hi⟩
  have hlabel : ∀ x, (w.detach u).graph.label? x = (w.graph.forgetUnit u.id).label? x :=
    label?_detach w u
  have hsymbol : ∀ d x, (w.detach u).program.symbol? d = some x ↔
      w.program.symbol? d = some x ∧ d.unit ≠ u.id := by
    intro d x
    simp only [Program.symbol?, Option.bind_eq_some_iff, show (w.detach u).program =
      w.program.remove u.path from rfl, h.charted.program.decl?_remove_iff hu]
    constructor
    · rintro ⟨y, ⟨hy, hne⟩, hx⟩
      exact ⟨⟨y, hy, hx⟩, hne⟩
    · rintro ⟨⟨y, hy, hx⟩, hne⟩
      exact ⟨y, ⟨hy, hne⟩, hx⟩
  have hkept : ∀ {e : Edge}, c.Joins e → (w.detach u).graph.hasEdge e →
      (c.without u.id).Joins e := by
    intro e hj he
    obtain ⟨-, hsource, htarget⟩ := (hasEdge_detach hs u e).mp he
    obtain ⟨q, hq⟩ := Option.isSome_iff_exists.mp hj.placed.1
    obtain ⟨r, hr⟩ := Option.isSome_iff_exists.mp hj.placed.2
    exact Chart.joins_without.mpr ⟨hj, (h.not_mem_dyingWith_iff hs hq).mp hsource,
      (h.not_mem_dyingWith_iff hs hr).mp htarget⟩
  constructor
  · constructor
    · exact h.charted.without hu (hs.detach hu).graph.toWellFormed hlabel (hasEdge_detach hs u)
        (fun hx => h.not_mem_dyingWith_iff hs hx) howner
    · exact h.settled.without hside h.charted.filled
    · intro d q
      rw [show (w.detach u).program = w.program.remove u.path from rfl,
        Program.contributes_remove h.charted.program hu, ← h.contributes]
      rfl
    · exact fun v hv => h.collected v (Program.mem_remove.mp hv).1
    · intro x hx
      obtain ⟨hl, hnone⟩ := h.initial hx
      refine ⟨?_, by simp [Chart.without, hnone]⟩
      have hdecl := WellKnown.declarations_graph x
      rw [declarations_eq] at hdecl
      rw [hlabel, label?_forgetUnit, hl]
      cases hlabel : WellKnown.graph.label? x with
      | none => rfl
      | some s =>
          cases s
          simp_all
    · intro x hx
      rw [has_congr (hlabel x), has_forgetUnit] at hx
      exact h.later hx
    · intro e he hk
      rw [isSynthesized_detach, isSynthesized_detach]
      exact (h.anchored ((hasEdge_detach hs u e).mp he).1 hk).imp_left fun hj => hkept hj he
    · refine ⟨fun {x d} hd => .inr ?_, fun hd => absurd hd List.not_mem_nil⟩
      obtain ⟨hd, hne⟩ := List.mem_filter.mp ((declarations_detach w u x) ▸ hd)
      have hbound := (h.answered.listed hd).resolve_left List.not_mem_nil
      obtain ⟨z, hz⟩ := Option.isSome_iff_exists.mp hbound
      rw [(hsymbol d z).mpr ⟨hz, by simpa using hne⟩]
      rfl
    · intro d x hx
      obtain ⟨hx, hne⟩ := (hsymbol d x).mp hx
      obtain ⟨q, y, hq, hy, hk⟩ := h.named hx
      have hlisted : c.contributes d q := by
        refine (h.charted.declarations hq d).mp (hs.listed hy ?_)
        simpa [Program.symbol?, hy] using hx
      exact ⟨q, y, Chart.place_without.mpr ⟨hq, d, hlisted, hne⟩,
        (h.charted.program.decl?_remove_iff hu).mpr ⟨hy, hne⟩, hk⟩
  · exact fun hb e he => hkept (hb ((hasEdge_detach hs u e).mp he).1) he
  · intro hm x hx
    have hx := (isResolved_invalidateAll.mp hx).1
    rw [isResolved_foldl_unlinkAll, isResolved_forgetUnit] at hx
    exact hm x hx
  · intro e he _
    obtain ⟨hold, hsource, htarget⟩ := (hasEdge_detach hs u e).mp he
    refine ⟨hold, fun x hx => ?_⟩
    rw [kind?_congr (hlabel x), kind?_forgetUnit]
    refine ⟨rfl, fun f => (has_congr (hlabel x) f).trans (has_forgetUnit _ _ _ _), ?_⟩
    refine declarations_detach_ne_nil hs ?_
    rcases hx with rfl | rfl
    · exact hsource
    · exact htarget
  · rfl
  · simp only [Workspace.detach, Program.documents, Program.remove, List.filter_map]
    rfl

theorem Leads.refl (h : Surveyed c w) : Leads c w w.program.documents c w :=
  ⟨h, fun hb => hb, fun hm => hm, fun he _ => ⟨he, .refl _ _⟩, rfl, rfl⟩

theorem Leads.trans {documents documents' : List (String × DocTree × NodeRef)} {c'' : Chart}
    {w' w'' : Workspace} (h : Leads c w documents c' w') (h' : Leads c' w' documents' c'' w'') :
    Leads c w documents' c'' w'' where
  surveyed := h'.surveyed
  bare hb := h'.bare (h.bare hb)
  unmarked hm := h'.unmarked (h.unmarked hm)
  kept he hk :=
    have hlast := h'.kept he hk
    have hfirst := h.kept hlast.1 (hlast.2.derives hk)
    ⟨hfirst.1, hfirst.2.trans hlast.2⟩
  options := h'.options.trans h.options
  documents := h'.documents

theorem Surveyed.detachPath (h : Surveyed c w) (hs : w.Sound) (path : String) :
    ∃ c', Leads c w (w.program.documents.filter (·.1 != path)) c' (w.detachPath path) := by
  unfold Workspace.detachPath
  cases hu : w.program.unit? path with
  | none =>
      have hall : w.program.documents.filter (·.1 != path) = w.program.documents := by
        refine List.filter_eq_self.mpr fun x hx => ?_
        obtain ⟨u, hm, rfl⟩ := List.mem_map.mp hx
        simpa using List.find?_eq_none.mp hu u hm
      rw [hall]
      exact ⟨c, .refl h⟩
  | some u =>
      have hm : u ∈ w.program.units := List.mem_of_find?_eq_some hu
      obtain rfl : u.path = path := by simpa using List.find?_some hu
      exact ⟨_, h.detach hs hm⟩

end Workspace

/-! ### Requests -/

namespace Request

/-- The request resolves nothing. -/
def isEdit : Request → Bool
  | .demand _ => false
  | _ => true

/-- The documents after a request, whether or not it fails. -/
def documents (docs : List (String × DocTree × NodeRef)) :
    Request → List (String × DocTree × NodeRef)
  | .setUnit path tree root => docs.filter (·.1 != path) ++ [(path, tree, root)]
  | .removeUnit path => docs.filter (·.1 != path)
  | .reset => []
  | .takeDiagnostics | .demand _ => docs

end Request

namespace Workspace

variable {c c' : Chart} {w : Workspace}

/-- A document is set by taking the old one away and adding the new one. -/
theorem apply_setUnit_of {P : Workspace → Prop} {path : String} {tree : DocTree} {root : NodeRef}
    (h : Contract (· = w.detachPath path) (WorkspaceM.attach path tree root) (fun _ => P) P) :
    P ((Request.setUnit path tree root).apply w) := by
  refine Request.apply_of_contract ?_
  refine Contract.bind (Q := fun _ => P) ?_ fun _ => Contract.pure _ fun _ h => h
  unfold WorkspaceM.setUnit
  exact Contract.bind (Contract.modify fun _ hw => hw ▸ rfl) fun _ => h

/-- What is left of the graph without the old document, and outlives each write of binding and each
invalidation, holds after a document is set. -/
theorem apply_setUnit_of_writes {P : SymbolGraph → Prop} {path : String} {tree : DocTree}
    {root : NodeRef} (hdetached : P (w.detachPath path).graph)
    (hwrite : ∀ {g g'}, g.Write g' → P g → P g')
    (hinvalidate : ∀ g ids, P g → P (g.invalidateAll ids)) :
    P ((Request.setUnit path tree root).apply w).graph := by
  refine apply_setUnit_of (P := fun w' => P w'.graph) (contract_attach_of ?_
    fun w' unit hw' => hinvalidate w'.graph _ hw')
  have hwritten (b : Binding) (hb : Binding.Written (w.detachPath path).graph b) : P b.graph :=
    hb.induction hdetached hwrite
  exact Contract.weaken (Binding.writes_bindUnit _) (fun b hb => hb ▸ .refl)
    (fun _ b hb => hwritten b hb.1) hwritten

theorem Surveyed.apply_setUnit (h : Surveyed c w) (hs : w.Sound) (path : String) (tree : DocTree)
    (root : NodeRef) : ∃ c', Leads c w
      ((Request.setUnit path tree root).documents w.program.documents) c'
      ((Request.setUnit path tree root).apply w) := by
  obtain ⟨c₁, hl⟩ := h.detachPath hs path
  obtain ⟨hs₁, hpath⟩ := hs.detachPath path
  have hattach := hl.surveyed.contract_attach hs₁ hpath tree root
  rw [hl.documents] at hattach
  exact apply_setUnit_of (P := fun w' => ∃ c', Leads c w
      ((Request.setUnit path tree root).documents w.program.documents) c' w') <|
    hattach.weaken (fun _ hw => hw) (fun _ _ ⟨c', hl'⟩ => ⟨c', hl.trans hl'⟩)
      fun _ ⟨c', hl'⟩ => ⟨c', hl.trans hl'⟩

theorem Surveyed.apply_removeUnit (h : Surveyed c w) (hs : w.Sound) (path : String) :
    ∃ c', Leads c w ((Request.removeUnit path).documents w.program.documents) c'
      ((Request.removeUnit path).apply w) := by
  rw [Workspace.apply_removeUnit]
  exact h.detachPath hs path

theorem exists_apply_reset (c : Chart) (w : Workspace) :
    ∃ c', Leads c w (Request.reset.documents w.program.documents) c' (Request.reset.apply w) :=
  ⟨.empty, surveyed_ofOptions w.options, fun _ => bare_ofOptions w.options,
    fun _ => not_isResolved_ofOptions w.options, fun he => absurd he (not_hasEdge_ofOptions w.options _), rfl, rfl⟩

theorem Surveyed.apply_takeDiagnostics (h : Surveyed c w) :
    ∃ c', Leads c w (Request.takeDiagnostics.documents w.program.documents) c'
      (Request.takeDiagnostics.apply w) :=
  ⟨c, ⟨h.charted, h.settled, h.contributes, h.collected, h.initial, h.later, h.anchored, h.answered,
    h.named⟩,
    fun hb => hb, fun hm => hm, fun he _ => ⟨he, .refl _ _⟩, rfl, rfl⟩

theorem Surveyed.apply_edit (h : Surveyed c w) (hs : w.Sound) {request : Request}
    (he : request.isEdit) : ∃ c', Leads c w (request.documents w.program.documents) c'
      (request.apply w) := by
  cases request with
  | setUnit path tree root => exact h.apply_setUnit hs path tree root
  | removeUnit path => exact h.apply_removeUnit hs path
  | reset => exact exists_apply_reset c w
  | takeDiagnostics => exact h.apply_takeDiagnostics
  | demand d => exact absurd he (by simp [Request.isEdit])

/-- A demand leaves what resolving leaves, whether or not it is met. -/
theorem exists_resolution_of_demand {P : Resolution → Prop} {d : Demand}
    (h : Contract (· = ⟨w.graph, w.diagnostics⟩) (d.run w.setting) (fun _ => P) P) :
    ∃ r, P r ∧
      (Request.demand d).apply w = { w with graph := r.graph, diagnostics := r.diagnostics } := by
  refine Request.apply_of_contract (P := fun w' => ∃ r, P r ∧
    w' = { w with graph := r.graph, diagnostics := r.diagnostics }) ?_
  exact Contract.bind (WorkspaceM.contract_ofResolve_from h) fun _ => Contract.pure _ fun _ h => h

/-- A demand resolves, and does nothing else. -/
theorem exists_apply_demand (hw : w.graph.WellFormed) (d : Demand) :
    ∃ g diagnostics, w.graph.Resolves w.setting g ∧
      (Request.demand d).apply w = { w with graph := g, diagnostics } := by
  obtain ⟨r, hr, heq⟩ := exists_resolution_of_demand
    (P := fun r => w.graph.Resolves w.setting r.graph) <|
    Contract.weaken (d.keeps_run hw) (fun _ hr => hr ▸ .refl _ _) (fun _ _ hr => hr.1)
      fun _ hr => hr
  exact ⟨r.graph, r.diagnostics, hr, heq⟩

theorem Surveyed.apply_demand (h : Surveyed c w) (d : Demand) :
    Surveyed c ((Request.demand d).apply w) := by
  obtain ⟨g, diagnostics, hg, heq⟩ := exists_apply_demand h.charted.wellFormed d
  rw [heq]
  exact h.resolved hg

/-! ### Runs -/

/-- By induction on the edits, each of which leads from one chart to the next. -/
theorem Surveyed.after_edits (h : Surveyed c w) (hs : w.Sound) {requests : List Request}
    (he : requests.all Request.isEdit) : ∃ c', Leads c w
      (requests.foldl Request.documents w.program.documents) c' (w.after requests) := by
  induction requests generalizing c w with
  | nil => exact ⟨c, .refl h⟩
  | cons request requests ih =>
      rw [List.all_cons, Bool.and_eq_true] at he
      obtain ⟨c₁, hl⟩ := h.apply_edit hs he.1
      obtain ⟨c₂, hl'⟩ := ih hl.surveyed (hs.apply request) he.2
      rw [hl.documents] at hl'
      exact ⟨c₂, hl.trans hl'⟩

/-- What edits alone lead to has no edges but those of declarations. -/
theorem exists_bare_of_edits (options : Options) {requests : List Request}
    (he : requests.all Request.isEdit) :
    ∃ c, Surveyed c ((ofOptions options).after requests) ∧
      Bare c ((ofOptions options).after requests) ∧
      ((ofOptions options).after requests).options = options ∧
      ((ofOptions options).after requests).program.documents =
        requests.foldl Request.documents [] := by
  obtain ⟨c, hl⟩ := (surveyed_ofOptions options).after_edits (sound_ofOptions options) he
  exact ⟨c, hl.surveyed, hl.bare (bare_ofOptions options), hl.options, hl.documents⟩

/-- Edits resolve nothing. -/
theorem not_isResolved_of_edits (options : Options) {requests : List Request}
    (he : requests.all Request.isEdit) (x : SymbolId) :
    ¬((ofOptions options).after requests).graph.isResolved x := by
  obtain ⟨c, hl⟩ := (surveyed_ofOptions options).after_edits (sound_ofOptions options) he
  exact hl.unmarked (not_isResolved_ofOptions options) x

/-- Whatever was requested, the symbols stand where the documents put them. -/
theorem Reachable.exists_surveyed (h : Reachable w) : ∃ c, Surveyed c w := by
  obtain ⟨options, requests, rfl⟩ := h
  induction requests using List.reverseRecOn with
  | nil => exact ⟨.empty, surveyed_ofOptions options⟩
  | append_singleton requests request ih =>
      obtain ⟨c, hc⟩ := ih
      have hs : ((ofOptions options).after requests).Sound := (sound_ofOptions options).after requests
      rw [after_append]
      cases hr : request.isEdit with
      | true =>
          obtain ⟨c', hl⟩ := hc.apply_edit hs hr
          exact ⟨c', hl.surveyed⟩
      | false =>
          cases request with
          | demand d => exact ⟨c, hc.apply_demand d⟩
          | _ => exact absurd hr (by simp [Request.isEdit])

/-- The documents after any request. -/
theorem documents_apply (hw : Reachable w) (request : Request) :
    (request.apply w).program.documents = request.documents w.program.documents ∧
      (request.apply w).options = w.options := by
  obtain ⟨c, hc⟩ := hw.exists_surveyed
  cases hedit : request.isEdit with
  | true =>
      obtain ⟨c', hl⟩ := hc.apply_edit hw.sound hedit
      exact ⟨hl.documents, hl.options⟩
  | false =>
      cases request with
      | demand demand =>
          obtain ⟨g, diagnostics, -, heq⟩ := exists_apply_demand hc.charted.wellFormed demand
          rw [heq]
          exact ⟨rfl, rfl⟩
      | _ => exact absurd hedit (by simp [Request.isEdit])

/-- What holds of the graph of an empty workspace and outlives every request. -/
theorem Reachable.graph_induction {P : SymbolGraph → Prop} (h : Reachable w)
    (hinit : ∀ options, P (ofOptions options).graph)
    (hedit : ∀ {c c' : Chart} {w w' : Workspace} {documents},
      Leads c w documents c' w' → P w.graph → P w'.graph)
    (hdemand : ∀ {c : Chart} {w : Workspace} {g : SymbolGraph}, Surveyed c w →
      w.graph.Resolves w.setting g → P w.graph → P g) : P w.graph := by
  obtain ⟨options, requests, rfl⟩ := h
  induction requests using List.reverseRecOn with
  | nil => exact hinit options
  | append_singleton requests request ih =>
      have hreach : Reachable ((ofOptions options).after requests) := ⟨options, requests, rfl⟩
      obtain ⟨c, hc⟩ := hreach.exists_surveyed
      rw [after_append]
      cases hr : request.isEdit with
      | true =>
          obtain ⟨c', hl⟩ := hc.apply_edit hreach.sound hr
          exact hedit hl ih
      | false =>
          cases request with
          | demand d =>
              obtain ⟨g, diagnostics, hg, heq⟩ := exists_apply_demand hc.charted.wellFormed d
              have heq' : ((ofOptions options).after requests).after [.demand d] = _ := heq
              rw [heq']
              exact hdemand hc hg ih
          | _ => exact absurd hr (by simp [Request.isEdit])

/-! ### Anew -/

/-- The requests for some documents, one after the other. -/
def requestsFor (documents : List (String × DocTree × NodeRef)) : List Request :=
  documents.map fun d => .setUnit d.1 d.2.1 d.2.2

theorem isEdit_requestsFor (documents : List (String × DocTree × NodeRef)) :
    (requestsFor documents).all Request.isEdit := by
  simp [requestsFor, Request.isEdit]

/-- Documents with different paths do not replace each other. -/
theorem foldl_documents_requestsFor {documents : List (String × DocTree × NodeRef)}
    (h : (documents.map (·.1)).Nodup) :
    (requestsFor documents).foldl Request.documents [] = documents := by
  induction documents using List.reverseRecOn with
  | nil => rfl
  | append_singleton documents d ih =>
      rw [List.map_append, List.nodup_append] at h
      have hkeep : documents.filter (·.1 != d.1) = documents := by
        refine List.filter_eq_self.mpr fun x hx => ?_
        have hne := h.2.2 x.1 (List.mem_map_of_mem hx) d.1 (by simp)
        simpa using hne
      simp only [requestsFor, List.map_append, List.map_cons, List.map_nil, List.foldl_append,
        List.foldl_cons, List.foldl_nil]
      rw [← requestsFor, ih h.1]
      simp only [Request.documents, hkeep]

/-- A fresh workspace with the same documents in the same order. -/
def rebuilt (w : Workspace) : Workspace :=
  (ofOptions w.options).after (requestsFor w.program.documents)

theorem Sound.documents_rebuilt (h : w.Sound) :
    (requestsFor w.program.documents).foldl Request.documents [] = w.program.documents := by
  refine foldl_documents_requestsFor ?_
  rw [← Program.paths_eq]
  exact h.program.nodup_paths

end Workspace

end NameBinding
