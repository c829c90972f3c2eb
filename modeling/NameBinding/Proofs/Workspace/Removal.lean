import NameBinding.Proofs.Graph.Walk
import NameBinding.Proofs.Workspace.Sound

/-! # What a removed unit takes along

Symbols die with their last declaration, and synthesized types with what they are built over. All
other symbols keep their edges to each other, in the order that these had. -/

namespace NameBinding

open SymbolGraph

namespace SymbolGraph

variable {g : SymbolGraph}

theorem isSynthesized_iff {id : SymbolId} :
    g.isSynthesized id ↔ g.has id .synthesized ∧ ¬g.has id .wellKnown := by
  rw [isSynthesized, isSynthesized_eq]
  simp

theorem isSynthesized_congr {g' : SymbolGraph} {id : SymbolId} (h : g'.label? id = g.label? id) :
    g'.isSynthesized id = g.isSynthesized id := by
  rw [Bool.eq_iff_iff, isSynthesized_iff, isSynthesized_iff, has_congr h, has_congr h]

@[simp] theorem isSynthesized_forgetUnit (g : SymbolGraph) (unit : UnitId) (x : SymbolId) :
    (g.forgetUnit unit).isSynthesized x = g.isSynthesized x := by
  rw [Bool.eq_iff_iff, isSynthesized_iff, isSynthesized_iff, has_forgetUnit, has_forgetUnit]

theorem mem_dependents_iff (h : g.Mirrored) {id x : SymbolId} :
    x ∈ g.dependents id ↔ ∃ kind, kind ≠ .containedBy ∧ g.hasEdge ⟨x, id, kind⟩ := by
  simp only [dependents, List.mem_eraseDups, List.mem_map, List.mem_filter, h.mem_incoming_iff,
    bne_iff_ne]
  constructor
  · rintro ⟨⟨source, target, kind⟩, ⟨⟨rfl, he⟩, hk⟩, rfl⟩
    exact ⟨kind, hk, he⟩
  · rintro ⟨kind, hk, he⟩
    exact ⟨⟨x, id, kind⟩, ⟨⟨rfl, he⟩, hk⟩, rfl⟩

theorem mem_declaredIn_iff {unit : UnitId} {x : SymbolId} :
    x ∈ g.declaredIn unit ↔ ∃ d ∈ g.declarations x, d.unit = unit := by
  simp only [declaredIn, ids, List.mem_filter, List.mem_range, List.any_eq_true, beq_iff_eq,
    and_iff_right_iff_imp]
  rintro ⟨d, hd, -⟩
  exact lt_size_of_mem_declarations hd

/-- The orphans of a unit are declared there and nowhere else. -/
theorem mem_orphans_iff {unit : UnitId} {x : SymbolId} :
    x ∈ (g.forgetUnit unit).orphans (g.declaredIn unit) ↔
    g.IsDeclarable x ∧ g.declarations x ≠ [] ∧ ∀ d ∈ g.declarations x, d.unit = unit := by
  rw [orphans, List.mem_filter, mem_declaredIn_iff]
  cases hget : g.get? x with
  | none => simp [SymbolGraph.declarations, get?_forgetUnit, hget]
  | some s =>
      simp only [IsDeclarable, has, SymbolGraph.declarations, get?_forgetUnit, hget, Option.map_some,
        Option.getD_some, Symbol.isDeclared, Symbol.needsDeclaration, Symbol.has, Bool.not_not,
        Bool.and_eq_true, List.isEmpty_iff, List.filter_eq_nil_iff, bne_iff_ne, ne_eq,
        Decidable.not_not, Bool.not_eq_true']
      constructor
      · rintro ⟨⟨d, hd, -⟩, hall, hwk, hsyn⟩
        exact ⟨⟨by simp [hsyn], by simp [hwk]⟩, List.ne_nil_of_mem hd, hall⟩
      · rintro ⟨⟨hsyn, hwk⟩, hne, hall⟩
        obtain ⟨d, hd⟩ := List.exists_mem_of_ne_nil _ hne
        exact ⟨⟨d, hd, hall d hd⟩, hall, by simpa using hwk, by simpa using hsyn⟩

theorem hasEdge_forgetUnit (g : SymbolGraph) (unit : UnitId) (e : Edge) :
    (g.forgetUnit unit).hasEdge e ↔ g.hasEdge e := by
  rw [hasEdge_iff, hasEdge_iff, outgoing_forgetUnit]

/-- What is built over a dying symbol dies too. -/
theorem mem_dying_of_hasEdge (h : g.Mirrored) {roots : List SymbolId} {id x : SymbolId}
    {kind : EdgeKind} (hid : id ∈ g.dying roots) (hk : kind ≠ .containedBy)
    (he : g.hasEdge ⟨x, id, kind⟩) (hx : g.isSynthesized x) : x ∈ g.dying roots := by
  refine Walk.reach_closed (fun a b hb => ?_) hid (List.mem_filter.mpr ⟨?_, hx⟩)
  · obtain ⟨_, -, he⟩ := (mem_dependents_iff h).mp (List.mem_filter.mp hb).1
    exact (h.lt_size he).1
  · exact (mem_dependents_iff h).mpr ⟨kind, hk, he⟩

theorem any_touches_iff {dead : List SymbolId} {e : Edge} :
    dead.any e.touches ↔ e.source ∈ dead ∨ e.target ∈ dead := by
  simp only [List.any_eq_true, Edge.touches, Bool.or_eq_true, beq_iff_eq]
  constructor
  · rintro ⟨x, hx, rfl | rfl⟩
    · exact .inl hx
    · exact .inr hx
  · rintro (hx | hx)
    · exact ⟨_, hx, .inl rfl⟩
    · exact ⟨_, hx, .inr rfl⟩

/-- Unlinking some symbols leaves out exactly their edges. -/
theorem edges_foldl_unlinkAll (h : g.WellFormed) (dead : List SymbolId) :
    (∀ x, (dead.foldl unlinkAll g).outgoing x =
        (g.outgoing x).filter fun e => !dead.any e.touches) ∧
      ∀ x, (dead.foldl unlinkAll g).incoming x =
        (g.incoming x).filter fun e => !dead.any e.touches := by
  induction dead generalizing g with
  | nil => simp
  | cons id dead ih =>
      obtain ⟨ho, hi⟩ := edges_unlinkAll h.toMirrored id
      obtain ⟨ho', hi'⟩ := ih (h.unlinkAll id)
      constructor
      · intro x
        rw [List.foldl_cons, ho', ho, List.filter_filter]
        refine List.filter_congr fun e _ => ?_
        simp [Bool.and_comm]
      · intro x
        rw [List.foldl_cons, hi', hi, List.filter_filter]
        refine List.filter_congr fun e _ => ?_
        simp [Bool.and_comm]

theorem label?_foldl_unlinkAll (g : SymbolGraph) (dead : List SymbolId) (x : SymbolId) :
    (dead.foldl unlinkAll g).label? x = g.label? x :=
  List.foldlRecOn (motive := fun g' => g'.label? x = g.label? x) dead unlinkAll rfl
    fun g' hg id _ => (label?_unlinkAll g' id x).trans hg

theorem isResolved_foldl_unlinkAll (g : SymbolGraph) (dead : List SymbolId) (x : SymbolId) :
    (dead.foldl unlinkAll g).isResolved x = g.isResolved x :=
  List.foldlRecOn (motive := fun g' => g'.isResolved x = g.isResolved x) dead unlinkAll rfl
    fun g' hg id _ => (isResolved_unlinkAll g' id x).trans hg

theorem outgoing_invalidateAll (g : SymbolGraph) (ids : List SymbolId) (x : SymbolId) :
    (g.invalidateAll ids).outgoing x = g.outgoing x :=
  invalidateAll_induction (P := fun g' => g'.outgoing x = g.outgoing x)
    (fun g' id hg => (outgoing_invalidate g' id x).trans hg) ids rfl

theorem incoming_invalidateAll (g : SymbolGraph) (ids : List SymbolId) (x : SymbolId) :
    (g.invalidateAll ids).incoming x = g.incoming x :=
  invalidateAll_induction (P := fun g' => g'.incoming x = g.incoming x)
    (fun g' id hg => (incoming_invalidate g' id x).trans hg) ids rfl

theorem isResolved_foldl_invalidate {ids : List SymbolId} {x : SymbolId} :
    (ids.foldl invalidate g).isResolved x ↔
      g.isResolved x ∧ (x ∈ ids → g.has x .wellKnown) := by
  induction ids generalizing g with
  | nil => simp
  | cons id ids ih =>
      rw [List.foldl_cons, ih, isResolved_invalidate, has_congr (label?_invalidate g id x),
        List.mem_cons]
      constructor
      · rintro ⟨⟨hr, hid⟩, hids⟩
        exact ⟨hr, fun hx => hx.elim hid hids⟩
      · rintro ⟨hr, hall⟩
        exact ⟨⟨hr, fun heq => hall (.inl heq)⟩, fun hx => hall (.inr hx)⟩

theorem label?_invalidateAll (g : SymbolGraph) (ids : List SymbolId) (x : SymbolId) :
    (g.invalidateAll ids).label? x = g.label? x :=
  invalidateAll_induction (P := fun g' => g'.label? x = g.label? x)
    (fun g' id hg => (label?_invalidate g' id x).trans hg) ids rfl

/-- What covers a symbol does not depend on what is resolved. -/
theorem coveredBy_congr {g' : SymbolGraph} {x : SymbolId} (hlabel : g'.label? x = g.label? x)
    (ho : g'.outgoing x = g.outgoing x) (hi : g'.incoming x = g.incoming x) :
    g'.coveredBy x = g.coveredBy x := by
  simp only [coveredBy, kind?_congr hlabel, classOfInstance?, SymbolGraph.instanceType?, container?,
    firstTarget, firstSource, targets_eq, sources_eq, ho, hi]

theorem coveredBy_invalidateAll (g : SymbolGraph) (ids : List SymbolId) :
    (g.invalidateAll ids).coveredBy = g.coveredBy :=
  invalidateAll_induction (P := fun g' => g'.coveredBy = g.coveredBy)
    (fun g' id hg => (funext fun x => coveredBy_congr (label?_invalidate g' id x)
      (outgoing_invalidate g' id x) (incoming_invalidate g' id x)).trans hg) ids rfl

/-- What is still resolved was resolved before, and covers nothing of what was invalidated. -/
theorem isResolved_invalidateAll {ids : List SymbolId} {x : SymbolId} :
    (g.invalidateAll ids).isResolved x ↔ g.isResolved x ∧
      ∀ id ∈ ids, x ∈ Walk.reach g.coveredBy g.size [id] → g.has x .wellKnown := by
  induction ids generalizing g with
  | nil => simp [invalidateAll]
  | cons id ids ih =>
      have hl : ∀ y, (g.invalidateUpward id).label? y = g.label? y := label?_invalidateAll g [id]
      have hcons : g.invalidateAll (id :: ids) = (g.invalidateUpward id).invalidateAll ids := rfl
      rw [hcons, ih, has_congr (hl x), size_eq_of_label? hl,
        show (g.invalidateUpward id).coveredBy = g.coveredBy from coveredBy_invalidateAll g [id],
        invalidateUpward, isResolved_foldl_invalidate, List.forall_mem_cons, and_assoc]

end SymbolGraph

namespace Workspace

variable {w : Workspace} {u : CompilationUnit} {x : SymbolId}

/-- The symbols that die when a unit is removed. -/
def dyingWith (w : Workspace) (u : CompilationUnit) : List SymbolId :=
  let g := w.graph.forgetUnit u.id
  g.dying (g.orphans (w.graph.declaredIn u.id))

/-- The symbols whose resolution is given up when a unit is removed. -/
def staleWith (w : Workspace) (u : CompilationUnit) : List SymbolId :=
  (w.graph.declaredIn u.id ++ (w.graph.forgetUnit u.id).staleAfter (w.dyingWith u)).filter
    (!(w.dyingWith u).contains ·)

theorem graph_detach (w : Workspace) (u : CompilationUnit) :
    (w.detach u).graph = ((w.dyingWith u).foldl unlinkAll (w.graph.forgetUnit u.id)).invalidateAll
      (w.staleWith u) := rfl

theorem label?_detach (w : Workspace) (u : CompilationUnit) (x : SymbolId) :
    (w.detach u).graph.label? x = (w.graph.forgetUnit u.id).label? x := by
  rw [graph_detach]
  exact invalidateAll_induction (P := fun g => g.label? x = (w.graph.forgetUnit u.id).label? x)
    (fun g id hg => (label?_invalidate g id x).trans hg) _ (label?_foldl_unlinkAll _ _ x)

theorem declarations_detach (w : Workspace) (u : CompilationUnit) (x : SymbolId) :
    (w.detach u).graph.declarations x =
      (w.graph.declarations x).filter fun d => d.unit != u.id := by
  rw [declarations_congr (label?_detach w u x), declarations_forgetUnit]

theorem isSynthesized_detach (w : Workspace) (u : CompilationUnit) (x : SymbolId) :
    (w.detach u).graph.isSynthesized x = w.graph.isSynthesized x := by
  rw [isSynthesized_congr (label?_detach w u x), isSynthesized_forgetUnit]

/-- Between symbols that stay, all edges stay in their order. All others go. -/
theorem outgoing_detach (h : w.Sound) (u : CompilationUnit) (x : SymbolId) :
    (w.detach u).graph.outgoing x =
      (w.graph.outgoing x).filter fun e => !(w.dyingWith u).any e.touches := by
  rw [graph_detach, outgoing_invalidateAll,
    (edges_foldl_unlinkAll (h.graph.forgetUnit u.id).toWellFormed (w.dyingWith u)).1 x,
    outgoing_forgetUnit]

theorem incoming_detach (h : w.Sound) (u : CompilationUnit) (x : SymbolId) :
    (w.detach u).graph.incoming x =
      (w.graph.incoming x).filter fun e => !(w.dyingWith u).any e.touches := by
  rw [graph_detach, incoming_invalidateAll,
    (edges_foldl_unlinkAll (h.graph.forgetUnit u.id).toWellFormed (w.dyingWith u)).2 x,
    incoming_forgetUnit]

/-- A symbol that is declared does not die. -/
theorem not_mem_dyingWith (h : w.Sound) {d : DeclId} (hd : d ∈ (w.detach u).graph.declarations x) :
    x ∉ w.dyingWith u := by
  intro hx
  rw [declarations_detach, ← declarations_forgetUnit,
    declarations_of_mem_dying (h.graph.forgetUnit u.id) _ hx] at hd
  exact absurd hd List.not_mem_nil

/-- A declared symbol that does not die has a declaration in another unit. -/
theorem declarations_detach_ne_nil (h : w.Sound) (hx : x ∉ w.dyingWith u)
    (hd : w.graph.declarations x ≠ []) : (w.detach u).graph.declarations x ≠ [] := by
  intro hnil
  rw [declarations_detach, List.filter_eq_nil_iff] at hnil
  obtain ⟨d, hmem⟩ := List.exists_mem_of_ne_nil _ hd
  refine hx (Walk.mem_reach_iff.mpr ⟨x, mem_orphans_iff.mpr ⟨h.graph.declarable hmem, hd, ?_⟩,
    .here _ _⟩)
  exact fun d hd => by simpa using hnil d hd

/-- A symbol that is declared and still resolved was resolved before, has no declaration in the unit,
and no edge of its own to a symbol that dies, except to what contains it. -/
theorem of_isResolved_detach (h : w.Sound) {d : DeclId}
    (hd : d ∈ (w.detach u).graph.declarations x) (hr : (w.detach u).graph.isResolved x) :
    w.graph.isResolved x ∧ x ∉ w.graph.declaredIn u.id ∧ ∀ {e : Edge}, e ∈ w.graph.outgoing x →
      e.kind ≠ .containedBy → e.target ∉ w.dyingWith u := by
  have hdying := not_mem_dyingWith h hd
  have hdecl : w.graph.IsDeclarable x := by
    rw [declarations_detach] at hd
    exact h.graph.declarable (List.mem_of_mem_filter hd)
  have hforget := (h.graph.forgetUnit u.id).toMirrored
  rw [graph_detach] at hr
  obtain ⟨hr, hstale⟩ := isResolved_invalidateAll.mp hr
  have hnot : x ∉ w.staleWith u := by
    intro hx
    have hwk := hstale x hx (Walk.mem_reach_iff.mpr ⟨x, List.mem_singleton_self x, .here _ _⟩)
    rw [has_congr (label?_foldl_unlinkAll _ _ x), has_forgetUnit] at hwk
    exact hdecl.2 hwk
  have hout : x ∉ w.graph.declaredIn u.id ++
      (w.graph.forgetUnit u.id).staleAfter (w.dyingWith u) := by
    intro hx
    exact hnot (List.mem_filter.mpr ⟨hx, by simp [hdying]⟩)
  rw [List.mem_append, not_or] at hout
  refine ⟨?_, hout.1, fun {e} he hk ht => hout.2 ?_⟩
  · rwa [isResolved_foldl_unlinkAll, isResolved_forgetUnit] at hr
  · refine List.mem_flatMap.mpr ⟨e.target, ht, List.mem_append_right _ ?_⟩
    rw [← outgoing_forgetUnit w.graph u.id x] at he
    obtain ⟨rfl, hedge⟩ := hforget.mem_outgoing_iff.mp he
    refine List.mem_filter.mpr ⟨(mem_dependents_iff hforget).mpr ⟨e.kind, hk, hedge⟩, ?_⟩
    have hs : ¬w.graph.isSynthesized e.source := fun hs => hdecl.1 (isSynthesized_iff.mp hs).1
    simp [hs]

theorem run_removeUnit {path : String} (hu : w.program.unit? path = some u) :
    (Request.removeUnit path).run w = .ok .done (w.detach u) := by
  have hdetach : w.detachPath path = w.detach u := by simp only [detachPath, hu]
  rw [← hdetach]
  simp only [Request.run, WorkspaceM.removeUnit, bind_assoc, run_get_bind, hu]
  rfl

theorem run_removeUnit_of_none {path : String} (hu : w.program.unit? path = none) :
    (Request.removeUnit path).run w = .error (.unknownPath path) w := by
  simp only [Request.run, WorkspaceM.removeUnit, bind_assoc, run_get_bind, hu]
  rfl

/-- A request to remove a unit takes it out, or finds none. -/
theorem apply_removeUnit (w : Workspace) (path : String) :
    (Request.removeUnit path).apply w = w.detachPath path := by
  cases hu : w.program.unit? path with
  | none => simp only [Request.apply, run_removeUnit_of_none hu, detachPath, hu]
  | some u => simp only [Request.apply, run_removeUnit hu, detachPath, hu]

end Workspace

end NameBinding
