import NameBinding.Proofs.Graph.Mirrored

/-! # Well-formed graphs

Edges stand at both ends, and every membership edge has its edge back. Adding and removing edges
keeps this. What falls with a removed edge joins the same two symbols. -/

namespace NameBinding.SymbolGraph

variable {g : SymbolGraph}

/-! ### What a removal takes with it -/

/-- The edge goes when another one is removed: it is that edge, the edge back of a last membership
edge, or a membership edge whose edge back is removed. -/
def fallsWith (g : SymbolGraph) (e x : Edge) : Bool :=
  g.hasEdge e && (x == e ||
    (e.kind.isMembership && ((g.eraseEdge e).memberships e.source e.target).isEmpty &&
      x == e.backward) ||
    (x.kind.isMembership && x.backward == e))

theorem fallsWith_iff {e x : Edge} : g.fallsWith e x ↔ g.hasEdge e ∧ (x = e ∨
    (e.kind.isMembership ∧ (g.eraseEdge e).memberships e.source e.target = [] ∧ x = e.backward) ∨
    (x.kind.isMembership ∧ x.backward = e)) := by
  simp only [fallsWith, Bool.and_eq_true, Bool.or_eq_true, beq_iff_eq, List.isEmpty_iff, and_assoc,
    or_assoc]

theorem beside_of_fallsWith {e x : Edge} (h : g.fallsWith e x) : e.beside x := by
  obtain ⟨-, rfl | ⟨-, -, rfl⟩ | ⟨-, rfl⟩⟩ := fallsWith_iff.mp h <;>
    simp [Edge.beside, Edge.backward]

theorem fallsWith_self {e : Edge} (h : g.hasEdge e) : g.fallsWith e e :=
  fallsWith_iff.mpr ⟨h, .inl rfl⟩

theorem backward_ne_of_not_containedBy {e : Edge} (h : e.kind ≠ .containedBy) (x : Edge) :
    x.backward ≠ e := by
  rintro rfl
  exact h rfl

/-- An edge that is no membership edge and no edge back falls alone. -/
theorem fallsWith_iff_of_plain {e x : Edge} (hm : ¬e.kind.isMembership)
    (hc : e.kind ≠ .containedBy) : g.fallsWith e x ↔ g.hasEdge e ∧ x = e := by
  simp [fallsWith_iff, hm, backward_ne_of_not_containedBy hc]

theorem mem_memberships_iff (h : g.Mirrored) {container member : SymbolId} {e : Edge} :
    e ∈ g.memberships container member ↔
      g.hasEdge e ∧ e.source = container ∧ e.target = member ∧ e.kind.isMembership := by
  simp only [memberships, List.mem_filter, h.mem_outgoing_iff, Bool.and_eq_true, beq_iff_eq]
  tauto

theorem Mirrored.hasEdge_eraseEdge (h : g.Mirrored) {e x : Edge} :
    (g.eraseEdge e).hasEdge x ↔ g.hasEdge x ∧ x ≠ e := by
  simp [hasEdge_iff, h.outgoing_eraseEdge]

/-- The membership edges that go with an edge back. -/
theorem mem_memberships_of_containedBy (h : g.Mirrored) {e x : Edge} (hc : e.kind = .containedBy)
    (hx : g.hasEdge x) : x ∈ (g.eraseEdge e).memberships e.target e.source ↔
      x.kind.isMembership ∧ x.backward = e := by
  obtain ⟨source, target, kind⟩ := e
  obtain rfl : kind = .containedBy := hc
  simp only [mem_memberships_iff (h.eraseEdge _), h.hasEdge_eraseEdge, Edge.backward,
    Edge.mk.injEq, and_true]
  constructor
  · rintro ⟨-, rfl, rfl, hm⟩
    exact ⟨hm, rfl, rfl⟩
  · rintro ⟨hm, rfl, rfl⟩
    refine ⟨⟨hx, fun he => ?_⟩, rfl, rfl, hm⟩
    rw [he] at hm
    simp [EdgeKind.isMembership] at hm

/-- A removal erases what falls, and nothing else. -/
theorem removeEdge_eq_foldl (h : g.Mirrored) (e : Edge) :
    ∃ es : List Edge, g.removeEdge e = es.foldl eraseEdge g ∧
      ∀ x, g.hasEdge x → (x ∈ es ↔ g.fallsWith e x) := by
  by_cases he : g.hasEdge e
  · by_cases hm : e.kind.isMembership
    · have hc : e.kind ≠ .containedBy := by
        intro hc
        simp [hc, EdgeKind.isMembership] at hm
      by_cases hlast : (g.eraseEdge e).memberships e.source e.target = []
      · refine ⟨[e, e.backward], by simp [removeEdge, he, hm, hlast], fun x _ => ?_⟩
        simp [fallsWith_iff, he, hm, hlast, backward_ne_of_not_containedBy hc]
      · refine ⟨[e], by simp [removeEdge, he, hm, hlast], fun x _ => ?_⟩
        simp [fallsWith_iff, he, hlast, backward_ne_of_not_containedBy hc]
    · by_cases hc : e.kind = .containedBy
      · refine ⟨e :: (g.eraseEdge e).memberships e.target e.source, ?_, fun x hx => ?_⟩
        · rw [removeEdge, if_pos he, if_neg hm, if_pos hc, List.foldl_cons]
        · rw [List.mem_cons, mem_memberships_of_containedBy h hc hx, fallsWith_iff]
          simp [he, hm]
      · refine ⟨[e], by simp [removeEdge, he, hm, hc], fun x _ => ?_⟩
        simp [fallsWith_iff_of_plain hm hc, he]
  · refine ⟨[], by simp [removeEdge, he], fun x _ => ?_⟩
    simp [fallsWith, he]

theorem outgoing_removeEdge (h : g.Mirrored) (e : Edge) (id : SymbolId) :
    (g.removeEdge e).outgoing id = (g.outgoing id).filter (!g.fallsWith e ·) := by
  obtain ⟨es, hes, hmem⟩ := removeEdge_eq_foldl h e
  rw [hes, h.outgoing_foldl_eraseEdge]
  refine List.filter_congr fun x hx => congrArg (!·) ?_
  rw [Bool.eq_iff_iff, List.contains_iff_mem]
  exact hmem x (h.mem_outgoing_iff.mp hx).2

theorem incoming_removeEdge (h : g.Mirrored) (e : Edge) (id : SymbolId) :
    (g.removeEdge e).incoming id = (g.incoming id).filter (!g.fallsWith e ·) := by
  obtain ⟨es, hes, hmem⟩ := removeEdge_eq_foldl h e
  rw [hes, h.incoming_foldl_eraseEdge]
  refine List.filter_congr fun x hx => congrArg (!·) ?_
  rw [Bool.eq_iff_iff, List.contains_iff_mem]
  exact hmem x (h.mem_incoming_iff.mp hx).2

theorem Mirrored.removeEdge (h : g.Mirrored) (e : Edge) : (g.removeEdge e).Mirrored :=
  h.of_filter _ (outgoing_removeEdge h e) (incoming_removeEdge h e)

theorem Mirrored.hasEdge_removeEdge (h : g.Mirrored) {e x : Edge} :
    (g.removeEdge e).hasEdge x ↔ g.hasEdge x ∧ ¬g.fallsWith e x := by
  simp [hasEdge_iff, outgoing_removeEdge h]

/-- What stays when several edges are removed one after the other. It holds none of them, and it
holds every edge that joins other symbols. -/
theorem edges_foldl_removeEdge (h : g.Mirrored) (es : List Edge) :
    ∃ stays : Edge → Bool,
      (∀ id, (es.foldl removeEdge g).outgoing id = (g.outgoing id).filter stays) ∧
      (∀ id, (es.foldl removeEdge g).incoming id = (g.incoming id).filter stays) ∧
      (∀ e ∈ es, g.hasEdge e → stays e = false) ∧
      ∀ x, (∀ e ∈ es, ¬e.beside x) → stays x = true := by
  induction es generalizing g with
  | nil => exact ⟨fun _ => true, by simp, by simp, by simp, by simp⟩
  | cons e es ih =>
      obtain ⟨stays, ho, hi, hgone, hkept⟩ := ih (h.removeEdge e)
      refine ⟨fun x => stays x && !g.fallsWith e x, ?_, ?_, ?_, ?_⟩
      · intro id
        rw [List.foldl_cons, ho, outgoing_removeEdge h, List.filter_filter]
      · intro id
        rw [List.foldl_cons, hi, incoming_removeEdge h, List.filter_filter]
      · intro x hx hg
        by_cases hf : g.fallsWith e x
        · simp [hf]
        · rcases List.mem_cons.mp hx with rfl | hx
          · exact absurd (fallsWith_self hg) hf
          · simp [hgone x hx (h.hasEdge_removeEdge.mpr ⟨hg, hf⟩)]
      · intro x hx
        have hf : ¬g.fallsWith e x := fun hf =>
          hx e List.mem_cons_self (beside_of_fallsWith hf)
        simp [hf, hkept x fun e' he' => hx e' (List.mem_cons_of_mem e he')]

/-- After a symbol is unlinked, every list holds what it held before without the edges of that
symbol, in the same order. -/
theorem edges_unlinkAll (h : g.Mirrored) (id : SymbolId) :
    (∀ x, (g.unlinkAll id).outgoing x = (g.outgoing x).filter (!·.touches id)) ∧
      ∀ x, (g.unlinkAll id).incoming x = (g.incoming x).filter (!·.touches id) := by
  obtain ⟨stays, ho, hi, hgone, hkept⟩ := edges_foldl_removeEdge h (g.outgoing id ++ g.incoming id)
  have hstays : ∀ e, g.hasEdge e → stays e = !e.touches id := by
    intro e he
    by_cases ht : e.touches id
    · rw [ht]
      refine hgone e (List.mem_append.mpr ?_) he
      simp only [Edge.touches, Bool.or_eq_true, beq_iff_eq] at ht
      rcases ht with rfl | rfl
      · exact .inl (h.mem_outgoing_iff.mpr ⟨rfl, he⟩)
      · exact .inr (h.mem_incoming_iff.mpr ⟨rfl, he⟩)
    · rw [Bool.eq_false_iff.mpr ht]
      refine hkept e fun e' he' hb => ht (Edge.touches_of_beside hb ?_)
      simp only [Edge.touches, Bool.or_eq_true, beq_iff_eq]
      rcases List.mem_append.mp he' with he' | he'
      · exact .inl (h.source_eq he')
      · exact .inr (h.target_eq he')
  constructor
  · intro x
    rw [unlinkAll, ho]
    exact List.filter_congr fun e he => hstays e (h.mem_outgoing_iff.mp he).2
  · intro x
    rw [unlinkAll, hi]
    exact List.filter_congr fun e he => hstays e (h.mem_incoming_iff.mp he).2

/-! ### What an addition brings with it -/

theorem hasEdge_addEdge {e x : Edge} (hs : e.source < g.size) (ht : e.target < g.size) :
    (g.addEdge e).hasEdge x ↔
      g.hasEdge x ∨ x = e ∨ (e.kind.isMembership ∧ x = e.backward) := by
  have hb : e.backward.source < (g.insertEdge e).size := by simpa [Edge.backward] using ht
  unfold addEdge
  split
  · next hm => simp [hasEdge_insertEdge hb, hasEdge_insertEdge hs, hm, or_assoc]
  · next hm => simp [hasEdge_insertEdge hs, hm]

/-- An addition shows in edges of its kind and in edges back. -/
theorem hasEdge_addEdge_of_ne {e x : Edge} (hs : e.source < g.size) (ht : e.target < g.size)
    (hx : x.kind ≠ e.kind) (hc : x.kind ≠ .containedBy) :
    (g.addEdge e).hasEdge x ↔ g.hasEdge x := by
  rw [hasEdge_addEdge hs ht]
  constructor
  · rintro (he | rfl | ⟨-, rfl⟩)
    · exact he
    · exact absurd rfl hx
    · exact absurd rfl hc
  · exact .inl

theorem hasEdge_addEdge_of_plain {e x : Edge} (hs : e.source < g.size) (ht : e.target < g.size)
    (hm : ¬e.kind.isMembership) : (g.addEdge e).hasEdge x ↔ g.hasEdge x ∨ x = e := by
  simp [hasEdge_addEdge hs ht, hm]

theorem Mirrored.addEdge (h : g.Mirrored) {e : Edge} (hs : e.source < g.size)
    (ht : e.target < g.size) : (g.addEdge e).Mirrored := by
  have hb : e.backward.source < (g.insertEdge e).size := by simpa [Edge.backward] using ht
  have hb' : e.backward.target < (g.insertEdge e).size := by simpa [Edge.backward] using hs
  unfold SymbolGraph.addEdge
  split
  · exact (h.insertEdge hs ht).insertEdge hb hb'
  · exact h.insertEdge hs ht

/-! ### The invariant -/

/-- Edges stand at both ends, and each membership edge has its edge back. -/
structure WellFormed (g : SymbolGraph) : Prop extends g.Mirrored where
  paired : ∀ e : Edge, e.kind.isMembership → g.hasEdge e → g.hasEdge e.backward

/-- What single removals keep. -/
theorem removeTargets_induction {P : SymbolGraph → Prop} {id : SymbolId} {kind : EdgeKind}
    (h : ∀ g x, P g → P (g.removeEdge ⟨id, x, kind⟩)) (ends : List SymbolId) (hg : P g) :
    P (g.removeTargets id kind ends) := by
  induction ends generalizing g with
  | nil => exact hg
  | cons x ends ih => exact ih (h g x hg)

/-- Exactly the edges of the kind from the symbol to the given ends go. -/
theorem Mirrored.hasEdge_removeTargets (h : g.Mirrored) {id : SymbolId} {kind : EdgeKind}
    (hm : ¬kind.isMembership) (hc : kind ≠ .containedBy) (ends : List SymbolId) {e : Edge} :
    (g.removeTargets id kind ends).hasEdge e ↔
      g.hasEdge e ∧ ¬(e.source = id ∧ e.kind = kind ∧ e.target ∈ ends) := by
  induction ends generalizing g with
  | nil => simp [removeTargets]
  | cons x ends ih =>
      have hone : (g.removeEdge ⟨id, x, kind⟩).hasEdge e ↔
          g.hasEdge e ∧ ¬(e.source = id ∧ e.kind = kind ∧ e.target = x) := by
        rw [h.hasEdge_removeEdge, fallsWith_iff_of_plain hm hc]
        refine and_congr_right fun he => not_congr ⟨?_, ?_⟩
        · rintro ⟨-, rfl⟩
          exact ⟨rfl, rfl, rfl⟩
        · rintro ⟨rfl, rfl, rfl⟩
          exact ⟨he, rfl⟩
      rw [removeTargets, List.foldl_cons, ← removeTargets, ih (h.removeEdge _), hone]
      simp only [List.mem_cons]
      tauto

/-- The edge that replaces all others of its kind is the only one. -/
theorem Mirrored.eq_target_of_hasEdge (h : g.Mirrored) {x target y : SymbolId} {kind : EdgeKind}
    (hm : ¬kind.isMembership) (hc : kind ≠ .containedBy)
    (hs : x < (g.removeTargets x kind ((g.targets x kind).filter (· != target))).size)
    (ht : target < (g.removeTargets x kind ((g.targets x kind).filter (· != target))).size)
    (hy : ((g.removeTargets x kind ((g.targets x kind).filter (· != target))).addEdge
      ⟨x, target, kind⟩).hasEdge ⟨x, y, kind⟩) : y = target := by
  rcases (hasEdge_addEdge_of_plain hs ht hm).mp hy with hy | heq
  · obtain ⟨hold, hgone⟩ := (h.hasEdge_removeTargets hm hc _).mp hy
    by_contra hne
    refine hgone ⟨rfl, rfl, List.mem_filter.mpr ⟨?_, by simpa using hne⟩⟩
    exact h.mem_targets_iff.mpr hold
  · exact (Edge.mk.inj heq).2.1

namespace WellFormed

theorem empty : SymbolGraph.empty.WellFormed where
  toMirrored := .empty
  paired e _ he := by simp [hasEdge, SymbolGraph.empty, outgoing, get?] at he

theorem of_edges_eq {g' : SymbolGraph} (h : g.WellFormed)
    (ho : ∀ id, g'.outgoing id = g.outgoing id) (hi : ∀ id, g'.incoming id = g.incoming id) :
    g'.WellFormed where
  toMirrored := h.toMirrored.of_edges_eq ho hi
  paired e hm he := by
    simp only [hasEdge, ho] at he ⊢
    exact h.paired e hm he

theorem modify (h : g.WellFormed) {f : Symbol → Symbol} (ho : ∀ s, (f s).outgoing = s.outgoing)
    (hi : ∀ s, (f s).incoming = s.incoming) (id : SymbolId) : (g.modify id f).WellFormed :=
  h.of_edges_eq (outgoing_modify ho g id) (incoming_modify hi g id)

theorem alloc (h : g.WellFormed) (name : String) (kind : SymbolKind) (flags : Flags SymbolFlag) :
    (g.alloc name kind flags).WellFormed :=
  h.of_edges_eq (outgoing_alloc g name kind flags) (incoming_alloc g name kind flags)

theorem addEdge (h : g.WellFormed) {e : Edge} (hs : e.source < g.size) (ht : e.target < g.size) :
    (g.addEdge e).WellFormed where
  toMirrored := h.toMirrored.addEdge hs ht
  paired x hx he := by
    rw [hasEdge_addEdge hs ht] at he ⊢
    rcases he with he | rfl | ⟨-, rfl⟩
    · exact .inl (h.paired x hx he)
    · exact .inr (.inr ⟨hx, rfl⟩)
    · simp [Edge.backward, EdgeKind.isMembership] at hx

theorem removeEdge (h : g.WellFormed) (e : Edge) : (g.removeEdge e).WellFormed where
  toMirrored := h.toMirrored.removeEdge e
  paired x hx he := by
    rw [h.hasEdge_removeEdge] at he ⊢
    refine ⟨h.paired x hx he.1, fun hf => he.2 ?_⟩
    obtain ⟨hg, hb | ⟨-, hlast, hb⟩ | ⟨hm, -⟩⟩ := fallsWith_iff.mp hf
    · exact fallsWith_iff.mpr ⟨hg, .inr (.inr ⟨hx, hb⟩)⟩
    · by_contra hn
      have hxe : x ≠ e := by
        rintro rfl
        exact hn (fallsWith_self hg)
      have hmem : x ∈ (g.eraseEdge e).memberships e.source e.target := by
        simp only [Edge.backward, Edge.mk.injEq, and_true] at hb
        rw [mem_memberships_iff (h.toMirrored.eraseEdge e), h.hasEdge_eraseEdge]
        exact ⟨⟨he.1, hxe⟩, hb.2, hb.1, hx⟩
      rw [hlast] at hmem
      exact absurd hmem List.not_mem_nil
    · simp [Edge.backward, EdgeKind.isMembership] at hm

theorem unlinkAll (h : g.WellFormed) (id : SymbolId) : (g.unlinkAll id).WellFormed where
  toMirrored := h.toMirrored.of_filter _ (edges_unlinkAll h.toMirrored id).1
    (edges_unlinkAll h.toMirrored id).2
  paired e hm he := by
    simp only [hasEdge_iff, (edges_unlinkAll h.toMirrored id).1, List.mem_filter] at he ⊢
    refine ⟨hasEdge_iff.mp (h.paired e hm (hasEdge_iff.mpr he.1)), ?_⟩
    simpa [Edge.touches, Edge.backward, and_comm] using he.2

/-- A member lists its container exactly once. -/
theorem isPaired (h : g.WellFormed) {e : Edge} (hm : e.kind.isMembership) (he : g.hasEdge e) :
    (g.targets e.target .containedBy).count e.source = 1 :=
  List.count_eq_one_of_mem (h.nodup_targets _ _) (h.mem_targets_iff.mpr (h.paired e hm he))

end WellFormed

/-! ### Kinds of which a symbol has one edge -/

/-- No symbol has two edges of the kind that leave it. -/
def OneTarget (g : SymbolGraph) (kind : EdgeKind) : Prop :=
  ∀ source a b : SymbolId, g.hasEdge ⟨source, a, kind⟩ → g.hasEdge ⟨source, b, kind⟩ → a = b

/-- No symbol has two edges of the kind that reach it. -/
def OneSource (g : SymbolGraph) (kind : EdgeKind) : Prop :=
  ∀ target a b : SymbolId, g.hasEdge ⟨a, target, kind⟩ → g.hasEdge ⟨b, target, kind⟩ → a = b

variable {kind : EdgeKind}

theorem OneTarget.targets_eq (h : g.OneTarget kind) (hg : g.Mirrored) {source target : SymbolId}
    (he : g.hasEdge ⟨source, target, kind⟩) : g.targets source kind = [target] := by
  refine List.perm_singleton.mp ?_
  rw [List.perm_ext_iff_of_nodup (hg.nodup_targets source kind) (List.nodup_singleton target)]
  intro x
  rw [hg.mem_targets_iff, List.mem_singleton]
  constructor
  · intro hx
    exact h _ _ _ hx he
  · rintro rfl
    exact he

theorem OneTarget.length_targets_le (h : g.OneTarget kind) (hg : g.Mirrored) (source : SymbolId) :
    (g.targets source kind).length ≤ 1 := by
  cases ht : g.targets source kind with
  | nil => simp
  | cons target rest =>
      have he := hg.mem_targets_iff.mp (ht ▸ List.mem_cons_self : target ∈ g.targets source kind)
      rw [← ht, h.targets_eq hg he]
      simp

theorem OneSource.sources_eq (h : g.OneSource kind) (hg : g.Mirrored) {source target : SymbolId}
    (he : g.hasEdge ⟨source, target, kind⟩) : g.sources target kind = [source] := by
  refine List.perm_singleton.mp ?_
  rw [List.perm_ext_iff_of_nodup (hg.nodup_sources target kind) (List.nodup_singleton source)]
  intro x
  rw [hg.mem_sources_iff, List.mem_singleton]
  constructor
  · intro hx
    exact h _ _ _ hx he
  · rintro rfl
    exact he

theorem OneSource.length_sources_le (h : g.OneSource kind) (hg : g.Mirrored) (target : SymbolId) :
    (g.sources target kind).length ≤ 1 := by
  cases hs : g.sources target kind with
  | nil => simp
  | cons source rest =>
      have he := hg.mem_sources_iff.mp (hs ▸ List.mem_cons_self : source ∈ g.sources target kind)
      rw [← hs, h.sources_eq hg he]
      simp

/-- The property only needs edges of the kind to come from edges of the kind. -/
theorem OneTarget.mono {g' : SymbolGraph} (h : g.OneTarget kind)
    (hsub : ∀ {e : Edge}, e.kind = kind → g'.hasEdge e → g.hasEdge e) : g'.OneTarget kind :=
  fun _ _ _ ha hb => h _ _ _ (hsub rfl ha) (hsub rfl hb)

theorem OneSource.mono {g' : SymbolGraph} (h : g.OneSource kind)
    (hsub : ∀ {e : Edge}, e.kind = kind → g'.hasEdge e → g.hasEdge e) : g'.OneSource kind :=
  fun _ _ _ ha hb => h _ _ _ (hsub rfl ha) (hsub rfl hb)

/-- The first edge of a kind that leaves a symbol. -/
theorem OneTarget.addEdge (h : g.OneTarget kind) {e : Edge} (hs : e.source < g.size)
    (ht : e.target < g.size) (hm : ¬e.kind.isMembership)
    (hfirst : ∀ x, ¬g.hasEdge ⟨e.source, x, kind⟩) : (g.addEdge e).OneTarget kind := by
  intro source a b ha hb
  rw [hasEdge_addEdge_of_plain hs ht hm] at ha hb
  rcases ha with ha | rfl
  · rcases hb with hb | rfl
    · exact h _ _ _ ha hb
    · exact absurd ha (hfirst a)
  · rcases hb with hb | hb
    · exact absurd hb (hfirst b)
    · exact (congrArg Edge.target hb).symm

/-- The first edge of a kind that reaches a symbol. -/
theorem OneSource.addEdge (h : g.OneSource kind) {e : Edge} (hs : e.source < g.size)
    (ht : e.target < g.size) (hm : ¬e.kind.isMembership)
    (hfirst : ∀ x, ¬g.hasEdge ⟨x, e.target, kind⟩) : (g.addEdge e).OneSource kind := by
  intro target a b ha hb
  rw [hasEdge_addEdge_of_plain hs ht hm] at ha hb
  rcases ha with ha | rfl
  · rcases hb with hb | rfl
    · exact h _ _ _ ha hb
    · exact absurd ha (hfirst a)
  · rcases hb with hb | hb
    · exact absurd hb (hfirst b)
    · exact (congrArg Edge.source hb).symm

end NameBinding.SymbolGraph
