import NameBinding.Graph.Query
import NameBinding.Proofs.Graph.Label
import NameBinding.Proofs.Graph.WellFormed

/-! # Lists name symbols that exist -/

namespace NameBinding.SymbolGraph

variable {g : SymbolGraph} {x m : SymbolId}

theorem mem_of_mem_listFor {kinds : SymbolKind → Bool} {list : List SymbolId}
    (h : m ∈ g.listFor x kinds list) : m ∈ list := by
  unfold listFor at h
  split at h
  · exact h
  · exact absurd h List.not_mem_nil

theorem lt_size_of_mem_targets (hg : g.Mirrored) {kind : EdgeKind} (hm : m ∈ g.targets x kind) :
    m < g.size :=
  (hg.lt_size (hg.mem_targets_iff.mp hm)).2

theorem lt_size_of_mem_publicMembers (hg : g.Mirrored) (hm : m ∈ g.publicMembers x) : m < g.size :=
  lt_size_of_mem_targets hg (mem_of_mem_listFor hm)

theorem hasEdge_of_mem_members (hg : g.Mirrored) (hm : m ∈ g.members x) :
    ∃ kind : EdgeKind, kind.isMembership ∧ g.hasEdge ⟨x, m, kind⟩ := by
  obtain ⟨e, he, rfl⟩ := List.mem_map.mp (mem_of_mem_listFor hm)
  obtain ⟨he, hk⟩ := List.mem_filter.mp he
  obtain ⟨rfl, hedge⟩ := hg.mem_outgoing_iff.mp he
  exact ⟨e.kind, hk, hedge⟩

theorem hasEdge_of_mem_parameters (hg : g.Mirrored) (hm : m ∈ g.parameters x) :
    g.hasEdge ⟨x, m, .parameter⟩ := hg.mem_targets_iff.mp (mem_of_mem_listFor hm)

theorem hasEdge_of_mem_callSignatures (hg : g.Mirrored) (hm : m ∈ g.callSignatures x) :
    g.hasEdge ⟨x, m, .callSignature⟩ := by
  rcases List.mem_append.mp (mem_of_mem_listFor hm) with hm | hm
  · exact hg.mem_targets_iff.mp (List.mem_filter.mp hm).1
  · exact hg.mem_targets_iff.mp (List.mem_filter.mp hm).1

theorem lt_size_of_mem_members (hg : g.Mirrored) (hm : m ∈ g.members x) : m < g.size := by
  obtain ⟨kind, -, he⟩ := hasEdge_of_mem_members hg hm
  exact (hg.lt_size he).2

theorem lt_size_of_mem_parameters (hg : g.Mirrored) (hm : m ∈ g.parameters x) : m < g.size :=
  (hg.lt_size (hasEdge_of_mem_parameters hg hm)).2

theorem lt_size_of_mem_callSignatures (hg : g.Mirrored) (hm : m ∈ g.callSignatures x) :
    m < g.size := (hg.lt_size (hasEdge_of_mem_callSignatures hg hm)).2

theorem hasEdge_of_instanceType? (hg : g.Mirrored) (h : g.instanceType? x = some m) :
    g.hasEdge ⟨x, m, .instanceType⟩ :=
  hg.mem_targets_iff.mp (List.mem_of_head? h)

theorem hasEdge_of_classOfInstance? (hg : g.Mirrored) (h : g.classOfInstance? x = some m) :
    g.hasEdge ⟨m, x, .instanceType⟩ :=
  hg.mem_sources_iff.mp (List.mem_of_head? h)

theorem exists_kind? (hx : x < g.size) : ∃ kind, g.kind? x = some kind := by
  obtain ⟨s, hs⟩ := Option.isSome_iff_exists.mp ((isSome_get? g x).trans (decide_eq_true hx))
  exact ⟨s.kind, by rw [kind?, hs]; rfl⟩

theorem exists_instanceType? (hg : g.Mirrored) (h : g.hasEdge ⟨x, m, .instanceType⟩) :
    ∃ inst, g.instanceType? x = some inst :=
  ⟨_, List.head?_eq_some_head (List.ne_nil_of_mem (hg.mem_targets_iff.mpr h))⟩

/-- A new edge leads to the last of the targets of its kind. -/
theorem targets_addEdge (g : SymbolGraph) (e : Edge) (x : SymbolId) {kind : EdgeKind}
    (hc : kind ≠ .containedBy) : (g.addEdge e).targets x kind =
      if x = e.source ∧ e.kind = kind ∧ x < g.size ∧ ¬g.hasEdge e then
        g.targets x kind ++ [e.target]
      else g.targets x kind := by
  have hinsert : ∀ (g : SymbolGraph) (e : Edge), (g.insertEdge e).targets x kind =
      if x = e.source ∧ e.kind = kind ∧ x < g.size ∧ ¬g.hasEdge e then
        g.targets x kind ++ [e.target]
      else g.targets x kind := by
    intro g e
    rw [targets_eq, targets_eq, outgoing_insertEdge]
    by_cases hk : e.kind = kind
    · simp only [hk, true_and]
      split <;> simp [List.filter_append, hk]
    · split <;> simp [hk]
  unfold addEdge
  split
  · rw [hinsert, if_neg fun h => hc h.2.1.symm, hinsert]
  · exact hinsert g e

theorem targets_addEdge_of_ne {e : Edge} {kind : EdgeKind} (h : e.source = x → e.kind ≠ kind)
    (hc : kind ≠ .containedBy) : (g.addEdge e).targets x kind = g.targets x kind := by
  rw [targets_addEdge g e x hc, if_neg fun hx => h hx.1.symm hx.2.1]

theorem targets_setResolved (g : SymbolGraph) (id : SymbolId) (b : Bool) (x : SymbolId)
    (kind : EdgeKind) : (g.setResolved id b).targets x kind = g.targets x kind := by
  rw [targets_eq, outgoing_setResolved, ← targets_eq]

theorem instanceType?_setResolved (g : SymbolGraph) (id : SymbolId) (b : Bool) (x : SymbolId) :
    (g.setResolved id b).instanceType? x = g.instanceType? x := by
  rw [instanceType?, firstTarget, targets_setResolved]
  rfl

end NameBinding.SymbolGraph
