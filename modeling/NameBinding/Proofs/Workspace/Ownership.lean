import NameBinding.Proofs.Resolve.Descent
import NameBinding.Proofs.Workspace.Members

/-! # Owners are older

What a symbol belongs to was made before it: the owner of a declaration before what is declared in it,
a class before its instance side, a signature before its parameters, and a synthesized type before its
parts. Main statement: in a workspace that requests lead to, what is around a symbol has a smaller
number. -/

namespace NameBinding

open SymbolGraph

namespace Attachment

variable {a : Attachment} {owner symbol x y : SymbolId} {g : SymbolGraph}

/-- The owner is around what hangs on it. -/
theorem Proper.isAround (h : a.Proper) (hedges : ∀ e ∈ a.edges owner symbol, g.hasEdge e) :
    g.IsAround owner symbol := by
  cases a with
  | member membership =>
      refine .inl (hedges _ (h.containedBy_mem_edges_iff.mpr ⟨rfl, rfl, membership, rfl⟩))
  | side => exact .inr ⟨.instanceType, rfl, hedges _ (List.mem_singleton_self _)⟩
  | signature kind =>
      exact .inr ⟨kind, EdgeKind.isSole_of_isSignature h, hedges _ (List.mem_singleton_self _)⟩
  | parameter => exact .inr ⟨.parameter, rfl, hedges _ (List.mem_singleton_self _)⟩

/-- An edge that can be the only one between two symbols goes from the owner. -/
theorem Proper.ends_of_isSole (h : a.Proper) {kind : EdgeKind} (hk : kind.isSole)
    (he : ⟨x, y, kind⟩ ∈ a.edges owner symbol) : x = owner ∧ y = symbol := by
  unfold edges at he
  split at he <;> simp only [List.mem_cons, List.not_mem_nil, or_false, Edge.mk.injEq] at he
  · exact absurd hk (by simp [he.2.2, EdgeKind.isSole, EdgeKind.isSignature])
  · next membership =>
    have hm : membership.isMembership := h
    rcases he with ⟨-, -, rfl⟩ | ⟨-, -, rfl⟩
    · cases kind <;> simp_all [EdgeKind.isSole, EdgeKind.isSignature, EdgeKind.isMembership]
    · exact absurd hk (by simp [EdgeKind.isSole, EdgeKind.isSignature])
  iterate 3 exact ⟨he.1, he.2.1⟩

end Attachment

namespace Binding.Charted

variable {c : Chart} {b : Binding} {x y : SymbolId}

/-- What the chart joins stands around something only where the chart says so. -/
theorem exists_owner (h : Charted c b)
    (hj : c.Joins ⟨y, x, .containedBy⟩ ∨ ∃ kind : EdgeKind, kind.isSole ∧ c.Joins ⟨x, y, kind⟩) :
    ∃ q, c.place y = some q ∧ c.place x = some q.owner := by
  rcases hj with ⟨symbol, owner, q, a, hs, ho, ha, he⟩ |
    ⟨kind, hk, symbol, owner, q, a, hs, ho, ha, he⟩
  · obtain ⟨_, -, hacc⟩ := h.attached ha
    obtain ⟨hy, hx, -⟩ := hacc.proper.containedBy_mem_edges_iff.mp he
    exact ⟨q, hy ▸ hs, hx ▸ ho⟩
  · obtain ⟨_, -, hacc⟩ := h.attached ha
    obtain ⟨hx, hy⟩ := hacc.proper.ends_of_isSole hk he
    exact ⟨q, hy ▸ hs, hx ▸ ho⟩

/-- A chart on which all is hung says as much as the graph. -/
theorem descends (h : Charted c b) (hc : c.Settled) (hg : b.graph.Descends) : c.Descends := by
  intro x y q hx hy
  obtain ⟨a, ha⟩ := hc.hung hx
  obtain ⟨_, -, hacc⟩ := h.attached ha
  refine hg y x (hacc.proper.isAround fun e he => h.hasEdge_of_joins ⟨x, y, q, a, hx, hy, ha, he⟩)

end Binding.Charted

/-- Edges that declarations make go down, as their owners were bound first. -/
theorem Binding.Leads.descends_graph {c c' : Chart} {b b' : Binding} (h : Leads c b c' b')
    (hc : c.Descends) (hg : b.graph.Descends) : b'.graph.Descends := by
  intro x y ha
  by_contra hlt
  have hnew : ∀ {e : Edge}, b'.graph.hasEdge e → ¬b.graph.hasEdge e → c'.Joins e := fun he hno =>
    (h.joins he).resolve_left hno
  have hno : ¬b.graph.IsAround x y := fun ha => hlt (hg x y ha)
  rw [IsAround, not_or, not_exists] at hno
  obtain ⟨q, hy, hx⟩ := h.charted.exists_owner (x := x) (y := y) <| ha.imp
    (fun he => hnew he hno.1) fun ⟨kind, hk, he⟩ => ⟨kind, hk, hnew he fun h => hno.2 kind ⟨hk, h⟩⟩
  exact hlt (h.descends hc hy hx)

namespace Workspace

variable {c : Chart} {w : Workspace} {x y : SymbolId}

/-! ### One request -/

theorem Surveyed.descends_bindUnit (h : Surveyed c w) (hg : w.graph.Descends) {path : String}
    (hpath : path ∉ w.program.paths) (tree : DocTree) (root : NodeRef) :
    Contract (· = ⟨w.graph, (w.addCollected path tree root).program⟩)
      (BindM.bindUnit (w.collectedUnit path tree root).id)
      (fun _ b => b.graph.Descends) fun b => b.graph.Descends :=
  Contract.weaken (h.charts_bindUnit hpath tree root) (fun _ hb => hb)
    (fun _ _ ⟨_, hl, _⟩ => hl.descends_graph (h.charted.descends h.settled hg) hg)
    fun _ hb => hb.2 ▸ hg

theorem descends_invalidateAll {g : SymbolGraph} {ids : List SymbolId} :
    (g.invalidateAll ids).Descends ↔ g.Descends :=
  ⟨fun h => h.mono fun _ he => (hasEdge_invalidateAll g ids _).mpr he,
    fun h => h.mono fun _ he => (hasEdge_invalidateAll g ids _).mp he⟩

theorem descends_detachPath (h : w.graph.Descends) (hs : w.Sound) (path : String) :
    (w.detachPath path).graph.Descends := by
  unfold Workspace.detachPath
  cases w.program.unit? path with
  | none => exact h
  | some u => exact h.mono fun _ he => ((hasEdge_detach hs u _).mp he).1

theorem descends_ofOptions (options : Options) : (ofOptions options).graph.Descends := by
  rintro x y (he | ⟨kind, -, he⟩)
  · exact absurd he (not_hasEdge_ofOptions options _)
  · exact absurd he (not_hasEdge_ofOptions options _)

theorem descends_apply (h : w.graph.Descends) (hw : w.Reachable) (request : Request) :
    (request.apply w).graph.Descends := by
  obtain ⟨c, hc⟩ := hw.exists_surveyed
  have hdetached := descends_detachPath h hw.sound
  cases request with
  | setUnit path tree root =>
      obtain ⟨c', hl⟩ := hc.detachPath hw.sound path
      obtain ⟨-, hpath⟩ := hw.sound.detachPath path
      exact apply_setUnit_of (P := fun w' => w'.graph.Descends) (contract_attach_of
        (hl.surveyed.descends_bindUnit (hdetached path) hpath tree root)
        fun w' unit hw' => descends_invalidateAll.mpr hw')
  | removeUnit path =>
      rw [apply_removeUnit]
      exact hdetached path
  | reset => exact descends_ofOptions w.options
  | takeDiagnostics => exact h
  | demand d =>
      obtain ⟨r, hr, heq⟩ := exists_resolution_of_demand (P := fun r => r.graph.Descends) <|
        Contract.weaken (d.keeps_descends w.setting) (fun _ hr => hr ▸ ⟨hc.charted.wellFormed, h⟩)
          (fun _ _ hr => hr.1.2) fun _ hr => hr.2
      rw [heq]
      exact hr

/-! ### Main statement -/

/-- By induction on the requests. -/
theorem Reachable.descends (h : w.Reachable) : w.graph.Descends := by
  obtain ⟨options, requests, rfl⟩ := h
  induction requests using List.reverseRecOn with
  | nil => exact descends_ofOptions options
  | append_singleton requests request ih =>
      rw [after_append]
      exact descends_apply ih ⟨options, requests, rfl⟩ request

end Workspace

end NameBinding
