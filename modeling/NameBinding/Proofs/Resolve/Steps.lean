import NameBinding.Proofs.Graph.Steps
import NameBinding.Proofs.Resolve.Change
import NameBinding.Resolve.Basic

/-! # The steps that resolving is made of

Each of them changes the graph only as resolving may, also when it fails. -/

namespace NameBinding

open SymbolGraph

/-- The graph comes from an earlier one by resolving. -/
def Resolution.From (setting : Setting) (g₀ : SymbolGraph) (r : Resolution) : Prop :=
  g₀.Resolves setting r.graph

theorem SymbolGraph.Resolves.from_of_eq {setting : Setting} {g₀ g : SymbolGraph}
    (hg : g₀.Resolves setting g) {r : Resolution}
    (hr : r.graph = g) : Resolution.From setting g₀ r := by
  rw [Resolution.From, hr]
  exact hg

/-- The graph comes from an earlier one by resolving, and a symbol is not a part of anything yet. -/
structure SymbolGraph.Spares (setting : Setting) (g₀ : SymbolGraph) (x : SymbolId)
    (g : SymbolGraph) : Prop where
  resolves : g₀.Resolves setting g
  lt_size : x < g.size
  free : ∀ y, ¬g.IsAround y x

abbrev Resolution.Spares (setting : Setting) (g₀ : SymbolGraph) (x : SymbolId) (r : Resolution) :
    Prop := g₀.Spares setting x r.graph

namespace ResolveM

variable {setting : Setting} {g₀ : SymbolGraph} {α : Type}

theorem contract_onGraph {step : GraphM α} {pre : SymbolGraph → Prop}
    {post : α → SymbolGraph → Prop} {fail : SymbolGraph → Prop} (h : Contract pre step post fail) :
    Contract (fun r => pre r.graph) (onGraph step) (fun a r => post a r.graph)
      (fun r => fail r.graph) := by
  intro r hr
  have hstep := h r.graph hr
  unfold onGraph
  cases hs : step r.graph <;> simpa [hs] using hstep

/-- The graph that is read stays the one at hand until something is written. -/
theorem contract_graph_bind {f : SymbolGraph → ResolveM α} {post : α → Resolution → Prop}
    {fail : Resolution → Prop}
    (h : ∀ g, g₀.Resolves setting g → Contract (fun r => r.graph = g) (f g) post fail) :
    Contract (Resolution.From setting g₀) (graph >>= f) post fail := by
  intro r hr
  exact h r.graph hr r rfl

theorem keeps_graph : Keeps (Resolution.From setting g₀) graph (fun g => g₀.Resolves setting g) := by
  intro r hr
  exact ⟨hr, hr⟩

theorem keeps_markResolved (id : SymbolId) : Keeps (Resolution.From setting g₀) (markResolved id) :=
  Keeps.modify fun _ hr => Resolves.change hr (.mark id)

theorem keeps_report (d : Diagnostic) : Keeps (Resolution.From setting g₀) (report d) := by
  refine Keeps.modify fun r hr => ?_
  split
  · exact hr
  · exact hr

theorem keeps_removeOutgoing (id : SymbolId) {kind : EdgeKind} (hk : kind.isResolution) :
    Keeps (Resolution.From setting g₀) (removeOutgoing id kind) := by
  refine Keeps.modify fun r hr => ?_
  exact removeTargets_induction (P := fun g => g₀.Resolves setting g)
    (fun g x hg => hg.change (.drop ⟨id, x, kind⟩ hk)) _ hr

/-- What is made while resolving is new. -/
theorem keeps_alloc (name : String) (kind : SymbolKind) {flags : Flags SymbolFlag}
    (hs : flags.has .synthesized) (hw : ¬flags.has .wellKnown) :
    Keeps (Resolution.From setting g₀) (alloc name kind flags) (fun id => g₀.size ≤ id) := by
  refine (contract_onGraph (GraphM.contract_alloc name kind flags)).weaken (fun _ hr => hr) ?_
    fun _ hr => hr
  rintro id r ⟨g, hg, rfl, hr⟩
  exact ⟨(hg.change (.make name kind flags hs hw)).from_of_eq hr, hg.size_le⟩

theorem contract_link (pre : SymbolGraph → Prop) (source target : SymbolId) (kind : EdgeKind) :
    Contract (fun r => pre r.graph) (link source target kind)
      (fun _ r => ∃ g, pre g ∧ source < g.size ∧ target < g.size ∧
        r.graph = g.addEdge ⟨source, target, kind⟩) (fun r => pre r.graph) := by
  unfold link
  exact (contract_onGraph (GraphM.contract_link source target kind)).bind fun _ =>
    Contract.pure _ fun _ hr => hr

/-- An edge that resolving may add. -/
theorem keeps_link {source target : SymbolId} {kind : EdgeKind}
    (hstep : ∀ g, source < g.size → target < g.size →
      Change setting g₀.size g (g.addEdge ⟨source, target, kind⟩)) :
    Keeps (Resolution.From setting g₀) (link source target kind) := by
  refine (contract_link (g₀.Resolves setting) source target kind).weaken (fun _ hr => hr) ?_ fun _ hr => hr
  rintro - r ⟨g, hg, hs, ht, hr⟩
  exact ⟨(Resolves.change hg (hstep g hs ht)).from_of_eq hr, True.intro⟩

theorem keeps_link_resolution (source target : SymbolId) {kind : EdgeKind}
    (hk : kind.isResolution) (hne : kind ≠ .extends) :
    Keeps (Resolution.From setting g₀) (link source target kind) :=
  keeps_link fun _ hs ht => .point ⟨source, target, kind⟩ hk hs ht fun he => absurd he hne

/-- A symbol is made and joined to a holder, before the step goes on. -/
theorem keeps_alloc_link {inv : SymbolGraph → Prop} {name : String} {symbolKind : SymbolKind}
    {flags : Flags SymbolFlag} {holder : SymbolId} {kind : EdgeKind} {f : SymbolId → ResolveM α}
    {Q : α → Prop} (hmake : ∀ g, inv g → inv (g.alloc name symbolKind flags))
    (hlink : ∀ g, inv g → holder < (g.alloc name symbolKind flags).size →
      inv ((g.alloc name symbolKind flags).addEdge ⟨holder, g.size, kind⟩))
    (hf : ∀ g, inv g → Keeps (fun r => inv r.graph) (f g.size) Q) :
    Keeps (fun r => inv r.graph) (do
      let part ← alloc name symbolKind flags
      link holder part kind
      f part) Q := by
  refine Contract.bind (contract_onGraph (GraphM.contract_alloc (P := inv) name symbolKind flags))
    fun part => ?_
  rintro r ⟨g, hg, rfl, hr⟩
  have hlinked : Contract (fun r' => r'.graph = r.graph) (link holder g.size kind)
      (fun _ r' => inv r'.graph) fun r' => inv r'.graph := by
    refine (contract_link (· = r.graph) holder g.size kind).weaken (fun _ hr' => hr') ?_ ?_
    · rintro - r' ⟨_, rfl, hs, -, hr'⟩
      rw [hr] at hs hr'
      exact hr' ▸ hlink g hg hs
    · exact fun r' hr' => hr' ▸ hr ▸ hmake g hg
  exact hlinked.bind (fun _ => hf g hg) r rfl

theorem lt_size_alloc (g : SymbolGraph) (name : String) (kind : SymbolKind)
    (flags : Flags SymbolFlag) : g.size < (g.alloc name kind flags).size := by
  rw [size_alloc]
  exact Nat.lt_succ_self _

/-- A new part of a holder. -/
theorem keeps_part (h₀ : g₀.WellFormed) {name : String} {symbolKind : SymbolKind}
    {flags : Flags SymbolFlag} (hs : flags.has .synthesized) (hw : ¬flags.has .wellKnown)
    {holder : SymbolId} (hh : g₀.size ≤ holder) {kind : EdgeKind} (hk : kind.isPart)
    {f : SymbolId → ResolveM α} {Q : α → Prop}
    (hf : ∀ part, g₀.size ≤ part → Keeps (Resolution.From setting g₀) (f part) Q) :
    Keeps (Resolution.From setting g₀) (do
      let part ← alloc name symbolKind flags
      link holder part kind
      f part) Q := by
  have hmake : ∀ g, g₀.Resolves setting g → g₀.Resolves setting (g.alloc name symbolKind flags) :=
    fun g hg => hg.change (.make name symbolKind flags hs hw)
  refine keeps_alloc_link hmake (fun g hg hlt => (hmake g hg).change ?_) fun g hg => hf _ hg.size_le
  exact .part _ hk hlt (lt_size_alloc g _ _ _) hh hg.size_le fun x =>
    IsAround.not_alloc (hg.wellFormed h₀).toMirrored _ _ _

/-- Whatever makes parts of new symbols only leaves a symbol alone that is there. -/
theorem keeps_spares {m : ResolveM α} {Q : α → Prop} (h₀ : g₀.WellFormed) (x : SymbolId)
    (h : ∀ g : SymbolGraph, g.WellFormed → Keeps (Resolution.From setting g) m Q) :
    Keeps (Resolution.Spares setting g₀ x) m Q := by
  intro r hr
  have hg := hr.resolves.wellFormed h₀
  have hspares : ∀ r', Resolution.From setting r.graph r' → Resolution.Spares setting g₀ x r' :=
    fun r' hr' => ⟨hr.resolves.trans hr', Nat.lt_of_lt_of_le hr.lt_size hr'.size_le,
      fun y hy => hr.free y ((hr'.isAround_iff hg hr.lt_size).mp hy)⟩
  have hrun : Contract (· = r) m (fun a r' => Resolution.Spares setting g₀ x r' ∧ Q a)
      (Resolution.Spares setting g₀ x) :=
    Contract.weaken (h r.graph hg) (fun _ hs => hs ▸ .refl setting r.graph)
      (fun _ r' hr' => ⟨hspares r' hr'.1, hr'.2⟩) hspares
  exact hrun r rfl

/-- A new part of another holder leaves a symbol alone. -/
theorem keeps_spares_part (h₀ : g₀.WellFormed) {x : SymbolId} {name : String}
    {symbolKind : SymbolKind} {flags : Flags SymbolFlag} (hs : flags.has .synthesized)
    (hw : ¬flags.has .wellKnown) {holder : SymbolId} (hh : g₀.size ≤ holder) {kind : EdgeKind}
    (hk : kind.isPart) {f : SymbolId → ResolveM α} {Q : α → Prop}
    (hf : ∀ part, Keeps (Resolution.Spares setting g₀ x) (f part) Q) :
    Keeps (Resolution.Spares setting g₀ x) (do
      let part ← alloc name symbolKind flags
      link holder part kind
      f part) Q := by
  have hmake : ∀ g, g₀.Spares setting x g →
      g₀.Spares setting x (g.alloc name symbolKind flags) := by
    intro g hg
    refine ⟨hg.resolves.change (.make name symbolKind flags hs hw),
      Nat.lt_trans hg.lt_size (lt_size_alloc g _ _ _), fun y hy => hg.free y ?_⟩
    exact hy.of_edges fun _ _ he => by simpa [hasEdge] using he
  refine keeps_alloc_link hmake (fun g hg hholder => ?_) fun g _ => hf g.size
  have hpart := lt_size_alloc g name symbolKind flags
  refine ⟨(hmake g hg).resolves.change (.part _ hk hholder hpart hh hg.resolves.size_le fun y => ?_),
    ?_, fun y hy => ?_⟩
  · exact IsAround.not_alloc (hg.resolves.wellFormed h₀).toMirrored _ _ _
  · rw [size_addEdge]
    exact Nat.lt_trans hg.lt_size hpart
  · rcases hy.of_addEdge hk hholder hpart with hy | ⟨-, rfl⟩
    · exact (hmake g hg).free y hy
    · exact Nat.lt_irrefl _ hg.lt_size

theorem keeps_setSingle (source target : SymbolId) {kind : EdgeKind} (hk : kind.isResolution)
    (hne : kind ≠ .extends) :
    Keeps (Resolution.From setting g₀) (setSingle source target kind) := by
  refine (contract_onGraph (GraphM.keeps_setSingle (P := fun g => g₀.Resolves setting g) ?_ ?_)).weaken
    (fun _ hr => hr) (fun _ _ hr => hr) fun _ hr => hr
  · exact fun g x hg => hg.change (.drop ⟨source, x, kind⟩ hk)
  · exact fun g hg hs ht => hg.change (.point ⟨source, target, kind⟩ hk hs ht fun he => absurd he hne)

theorem keeps_begin (id : SymbolId) : Keeps (Resolution.From setting g₀) (begin id) := by
  unfold begin
  refine keeps_graph.bind fun g _ => ?_
  cases g.get? id with
  | none => exact Keeps.throw _
  | some s =>
      dsimp only
      split
      · exact Keeps.pure True.intro
      · exact (keeps_markResolved id).bind fun _ _ => Keeps.pure True.intro

/-- Work that is done once for a symbol. -/
theorem keeps_begin_then {work : ResolveM Unit} (id : SymbolId)
    (hwork : Keeps (Resolution.From setting g₀) work) :
    Keeps (Resolution.From setting g₀) (do if ← begin id then work) := by
  refine (keeps_begin id).bind fun b _ => ?_
  split
  · exact hwork
  · exact Keeps.pure True.intro

/-- Symbols keep their declarations while names are resolved. -/
theorem keeps_declarations (id : SymbolId) :
    Keeps (Resolution.From setting g₀) (declarations id) (fun ds => ds = g₀.declarations id) := by
  unfold declarations
  refine keeps_graph.bind fun g hg => ?_
  cases hs : g.get? id with
  | none => exact Keeps.throw _
  | some s =>
      refine Keeps.pure ?_
      rw [← hg.declarations, SymbolGraph.declarations, hs]
      rfl

theorem keeps_site (d : DeclId) : Keeps (Resolution.From setting g₀) (site setting d) (fun site =>
    ∃ u, setting.program.unitById? d.unit = some u ∧ u.decl? d = some site.decl ∧
      site.tree = u.tree) := by
  unfold site
  cases hu : setting.program.unitById? d.unit with
  | none => exact Keeps.throw _
  | some u =>
      dsimp only
      cases hd : u.decl? d with
      | none => exact Keeps.throw _
      | some decl => exact Keeps.pure ⟨u, rfl, hd, rfl⟩

theorem keeps_firstSite (id : SymbolId) :
    Keeps (Resolution.From setting g₀) (firstSite setting id) := by
  unfold firstSite
  refine (keeps_declarations id).bind fun ds _ => ?_
  cases ds.head? with
  | none => exact Keeps.pure True.intro
  | some decl => exact (keeps_site decl).bind fun _ _ => Keeps.pure True.intro

end ResolveM

end NameBinding
