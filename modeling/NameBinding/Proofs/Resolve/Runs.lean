import NameBinding.Proofs.Resolve.Advance

/-! # Steps that succeed

Where a step succeeds, it leads from a scene to the next one. -/

namespace NameBinding

open SymbolGraph

variable {α β : Type}

/-- The step succeeds and leads from the first scene to the second. -/
def Scene.Runs (s : Scene) (m : ResolveM α) (answer : α) (s' : Scene) : Prop :=
  m s.resolution = .ok answer s'.resolution

namespace Scene.Runs

variable {s s' s'' : Scene} {m : ResolveM α} {f : α → ResolveM β} {a : α} {c : β}

theorem pure (s : Scene) (a : α) : s.Runs (Pure.pure a) a s := rfl

theorem bind (h : s.Runs m a s') (h' : s'.Runs (f a) c s'') : s.Runs (m >>= f) c s'' := by
  unfold Runs at *
  rw [show (m >>= f) s.resolution = EStateM.bind m f s.resolution from rfl, EStateM.bind, h]
  exact h'

theorem graph_bind {f : SymbolGraph → ResolveM β} (h : s.Runs (f s.graph) c s') :
    s.Runs (ResolveM.graph >>= f) c s' := h

section Steps

variable {x : SymbolId} {kind : EdgeKind} {source target : SymbolId}

theorem onGraph {step : GraphM α} {g : SymbolGraph} (h : step s.graph = .ok a g) :
    s.Runs (ResolveM.onGraph step) a (s.setGraph g) := by
  unfold Runs ResolveM.onGraph
  rw [h]
  rfl

theorem alloc (s : Scene) (o : Origin) (name : String) (kind : SymbolKind)
    (flags : Flags SymbolFlag) :
    s.Runs (ResolveM.alloc name kind flags) s.graph.size (s.make o name kind flags) := rfl

theorem link (hs : source < s.graph.size) (ht : target < s.graph.size) :
    s.Runs (ResolveM.link source target kind) ()
      (s.setGraph (s.graph.addEdge ⟨source, target, kind⟩)) :=
  (onGraph (GraphM.link_eq_ok kind hs ht)).bind (pure _ ())

/-- An edge becomes the only one of its kind where there was none. -/
theorem setSingle (hs : source < s.graph.size) (ht : target < s.graph.size)
    (hnone : s.graph.targets source kind = []) :
    s.Runs (ResolveM.setSingle source target kind) ()
      (s.setGraph (s.graph.addEdge ⟨source, target, kind⟩)) :=
  onGraph (GraphM.setSingle_eq_ok_of_targets_eq_nil hs ht hnone)

theorem markResolved (s : Scene) (x : SymbolId) : s.Runs (ResolveM.markResolved x) () (s.mark x) :=
  rfl

theorem begin_of_isResolved (h : s.graph.isResolved x) : s.Runs (ResolveM.begin x) false s := by
  obtain ⟨y, hy⟩ : ∃ y, s.graph.get? x = some y := by
    cases hget : s.graph.get? x with
    | none => simp [isResolved, hget] at h
    | some y => exact ⟨y, rfl⟩
  have hr : y.resolved := by simpa [isResolved, hy] using h
  refine graph_bind ?_
  rw [hy]
  dsimp only
  rw [if_pos hr]
  exact pure s false

theorem «begin» (hx : x < s.graph.size) (h : ¬s.graph.isResolved x) :
    s.Runs (ResolveM.begin x) true (s.mark x) := by
  obtain ⟨y, hy⟩ := Option.isSome_iff_exists.mp ((isSome_get? s.graph x).trans (decide_eq_true hx))
  have hr : ¬y.resolved := by simpa [isResolved, hy] using h
  refine graph_bind ?_
  rw [hy]
  dsimp only
  rw [if_neg hr]
  exact (markResolved s x).bind (pure _ true)

theorem removeOutgoing (hnone : s.graph.targets x kind = []) :
    s.Runs (ResolveM.removeOutgoing x kind) () s := by
  have hg : s.graph.removeOutgoing x kind = s.graph := by
    rw [SymbolGraph.removeOutgoing, hnone]
    rfl
  change EStateM.Result.ok () { s.resolution with graph := s.graph.removeOutgoing x kind } = _
  rw [hg]

theorem declarations (hx : x < s.graph.size) :
    s.Runs (ResolveM.declarations x) (s.graph.declarations x) s := by
  obtain ⟨y, hy⟩ := Option.isSome_iff_exists.mp ((isSome_get? s.graph x).trans (decide_eq_true hx))
  refine graph_bind ?_
  rw [SymbolGraph.declarations, hy]
  exact pure s y.declarations

theorem site {setting : Setting} {d : DeclId} {site : DeclSite} (h : setting.site? d = some site) :
    s.Runs (ResolveM.site setting d) site s := by
  obtain ⟨u, hu, hmap⟩ := Option.bind_eq_some_iff.mp h
  obtain ⟨decl, hdecl, rfl⟩ := Option.map_eq_some_iff.mp hmap
  unfold ResolveM.site
  rw [hu]
  dsimp only
  rw [hdecl]
  exact pure s _

end Steps

/-- What a step does to the graph. -/
theorem resolves {setting : Setting} (h : s.Runs m a s')
    (hkeeps : Keeps (Resolution.From setting s.graph) m) :
    s.graph.Resolves setting s'.graph := by
  have hpost := hkeeps s.resolution (.refl setting s.graph)
  rw [h] at hpost
  exact hpost.1

end Scene.Runs

end NameBinding
