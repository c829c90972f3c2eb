import Mathlib.Data.List.Nodup
import NameBinding.Graph.Edges

/-! # Edges at both ends

Every edge stands once at its source and once at its target, and whatever adds or removes edges
keeps it so. A removal leaves the order of the other edges as it is. -/

namespace NameBinding

/-- Edges that declarations make. -/
def EdgeKind.isStructural (kind : EdgeKind) : Bool := !kind.isResolution && kind != .arrayOf

theorem EdgeKind.isStructural_of_isMembership {kind : EdgeKind} (h : kind.isMembership) :
    kind.isStructural := by
  cases kind <;> simp_all [isMembership, isStructural, isResolution]

namespace Edge

/-- Two edges join the same two symbols, in either direction. -/
def beside (e x : Edge) : Bool :=
  (x.source == e.source && x.target == e.target) || (x.source == e.target && x.target == e.source)

theorem touches_of_beside {e x : Edge} {id : SymbolId} (h : e.beside x)
    (ht : e.touches id) : x.touches id := by
  simp only [beside, touches, Bool.or_eq_true, Bool.and_eq_true, beq_iff_eq] at h ht ⊢
  rcases h with ⟨hs, ht'⟩ | ⟨hs, ht'⟩
  · simpa only [hs, ht'] using ht
  · simpa only [hs, ht'] using ht.symm

end Edge

namespace SymbolGraph

variable {g g' : SymbolGraph}

theorem hasEdge_iff {e : Edge} : g.hasEdge e ↔ e ∈ g.outgoing e.source := by
  simp [hasEdge]

theorem outgoing_eq_nil {id : SymbolId} (h : g.size ≤ id) : g.outgoing id = [] := by
  simp [outgoing, (get?_eq_none_iff g id).mpr h]

theorem incoming_eq_nil {id : SymbolId} (h : g.size ≤ id) : g.incoming id = [] := by
  simp [incoming, (get?_eq_none_iff g id).mpr h]

theorem lt_size_of_mem_outgoing {id : SymbolId} {e : Edge} (h : e ∈ g.outgoing id) :
    id < g.size := by
  by_contra hn
  rw [outgoing_eq_nil (Nat.le_of_not_lt hn)] at h
  exact absurd h List.not_mem_nil

theorem lt_size_of_mem_incoming {id : SymbolId} {e : Edge} (h : e ∈ g.incoming id) :
    id < g.size := by
  by_contra hn
  rw [incoming_eq_nil (Nat.le_of_not_lt hn)] at h
  exact absurd h List.not_mem_nil

theorem targets_eq (g : SymbolGraph) (id : SymbolId) (kind : EdgeKind) :
    g.targets id kind = ((g.outgoing id).filter fun e => e.kind == kind).map (·.target) := by
  unfold targets outgoing
  cases g.get? id <;> rfl

theorem sources_eq (g : SymbolGraph) (id : SymbolId) (kind : EdgeKind) :
    g.sources id kind = ((g.incoming id).filter fun e => e.kind == kind).map (·.source) := by
  unfold sources incoming
  cases g.get? id <;> rfl

/-- Every edge stands once at its source and once at its target, and nowhere else. -/
structure Mirrored (g : SymbolGraph) : Prop where
  source_eq : ∀ {id e}, e ∈ g.outgoing id → e.source = id
  target_eq : ∀ {id e}, e ∈ g.incoming id → e.target = id
  mem_iff : ∀ e : Edge, e ∈ g.outgoing e.source ↔ e ∈ g.incoming e.target
  nodup_outgoing : ∀ id, (g.outgoing id).Nodup
  nodup_incoming : ∀ id, (g.incoming id).Nodup

namespace Mirrored

theorem mem_outgoing_iff (h : g.Mirrored) {id : SymbolId} {e : Edge} :
    e ∈ g.outgoing id ↔ id = e.source ∧ g.hasEdge e := by
  constructor
  · intro he
    obtain rfl := h.source_eq he
    exact ⟨rfl, hasEdge_iff.mpr he⟩
  · rintro ⟨rfl, he⟩
    exact hasEdge_iff.mp he

theorem mem_incoming_iff (h : g.Mirrored) {id : SymbolId} {e : Edge} :
    e ∈ g.incoming id ↔ id = e.target ∧ g.hasEdge e := by
  constructor
  · intro he
    obtain rfl := h.target_eq he
    exact ⟨rfl, hasEdge_iff.mpr ((h.mem_iff e).mpr he)⟩
  · rintro ⟨rfl, he⟩
    exact (h.mem_iff e).mp (hasEdge_iff.mp he)

/-- Only existing symbols have edges. -/
theorem lt_size (h : g.Mirrored) {e : Edge} (he : g.hasEdge e) :
    e.source < g.size ∧ e.target < g.size :=
  ⟨lt_size_of_mem_outgoing (hasEdge_iff.mp he),
    lt_size_of_mem_incoming ((h.mem_iff e).mp (hasEdge_iff.mp he))⟩

theorem mem_targets_iff (h : g.Mirrored) {id target : SymbolId} {kind : EdgeKind} :
    target ∈ g.targets id kind ↔ g.hasEdge ⟨id, target, kind⟩ := by
  simp only [targets_eq, List.mem_map, List.mem_filter, beq_iff_eq]
  constructor
  · rintro ⟨e, ⟨he, rfl⟩, rfl⟩
    obtain rfl := h.source_eq he
    exact hasEdge_iff.mpr he
  · intro he
    exact ⟨⟨id, target, kind⟩, ⟨hasEdge_iff.mp he, rfl⟩, rfl⟩

theorem mem_sources_iff (h : g.Mirrored) {id source : SymbolId} {kind : EdgeKind} :
    source ∈ g.sources id kind ↔ g.hasEdge ⟨source, id, kind⟩ := by
  simp only [sources_eq, List.mem_map, List.mem_filter, beq_iff_eq]
  constructor
  · rintro ⟨e, ⟨he, rfl⟩, rfl⟩
    obtain rfl := h.target_eq he
    exact hasEdge_iff.mpr ((h.mem_iff e).mpr he)
  · intro he
    exact ⟨⟨source, id, kind⟩, ⟨(h.mem_iff _).mp (hasEdge_iff.mp he), rfl⟩, rfl⟩

theorem nodup_targets (h : g.Mirrored) (id : SymbolId) (kind : EdgeKind) :
    (g.targets id kind).Nodup := by
  rw [targets_eq]
  refine List.Nodup.map_on ?_ ((h.nodup_outgoing id).filter _)
  intro a ha b hb hab
  simp only [List.mem_filter, beq_iff_eq] at ha hb
  have hsource : a.source = b.source := (h.source_eq ha.1).trans (h.source_eq hb.1).symm
  cases a
  cases b
  simp_all

theorem nodup_sources (h : g.Mirrored) (id : SymbolId) (kind : EdgeKind) :
    (g.sources id kind).Nodup := by
  rw [sources_eq]
  refine List.Nodup.map_on ?_ ((h.nodup_incoming id).filter _)
  intro a ha b hb hab
  simp only [List.mem_filter, beq_iff_eq] at ha hb
  have htarget : a.target = b.target := (h.target_eq ha.1).trans (h.target_eq hb.1).symm
  cases a
  cases b
  simp_all

theorem empty : SymbolGraph.empty.Mirrored := by
  constructor <;> simp [SymbolGraph.empty, outgoing, incoming, get?]

/-- Changes to symbols that leave all edges alone. -/
theorem of_edges_eq (h : g.Mirrored) (ho : ∀ id, g'.outgoing id = g.outgoing id)
    (hi : ∀ id, g'.incoming id = g.incoming id) : g'.Mirrored := by
  constructor
  · intro id e he
    exact h.source_eq (ho id ▸ he)
  · intro id e he
    exact h.target_eq (hi id ▸ he)
  · intro e
    rw [ho, hi]
    exact h.mem_iff e
  · intro id
    rw [ho]
    exact h.nodup_outgoing id
  · intro id
    rw [hi]
    exact h.nodup_incoming id

/-- The same edges are left out at both ends. -/
theorem of_filter (h : g.Mirrored) (p : Edge → Bool)
    (ho : ∀ id, g'.outgoing id = (g.outgoing id).filter p)
    (hi : ∀ id, g'.incoming id = (g.incoming id).filter p) : g'.Mirrored := by
  constructor
  · intro id e he
    rw [ho] at he
    exact h.source_eq (List.mem_filter.mp he).1
  · intro id e he
    rw [hi] at he
    exact h.target_eq (List.mem_filter.mp he).1
  · intro e
    rw [ho, hi, List.mem_filter, List.mem_filter, h.mem_iff e]
  · intro id
    rw [ho]
    exact (h.nodup_outgoing id).filter p
  · intro id
    rw [hi]
    exact (h.nodup_incoming id).filter p

end Mirrored

/-! ### Changes that no edge sees -/

theorem outgoing_modify {f : Symbol → Symbol} (hf : ∀ s, (f s).outgoing = s.outgoing)
    (g : SymbolGraph) (id x : SymbolId) : (g.modify id f).outgoing x = g.outgoing x := by
  simp only [outgoing, get?_modify]
  split
  · cases g.get? x <;> simp [hf]
  · rfl

theorem incoming_modify {f : Symbol → Symbol} (hf : ∀ s, (f s).incoming = s.incoming)
    (g : SymbolGraph) (id x : SymbolId) : (g.modify id f).incoming x = g.incoming x := by
  simp only [incoming, get?_modify]
  split
  · cases g.get? x <;> simp [hf]
  · rfl

/-! ### One edge more or less -/

theorem mem_outgoing_insertEdge {e x : Edge} {id : SymbolId} (hs : e.source < g.size) :
    x ∈ (g.insertEdge e).outgoing id ↔ x ∈ g.outgoing id ∨ id = e.source ∧ x = e := by
  rw [outgoing_insertEdge]
  split
  · simp_all
  · next hn =>
    constructor
    · exact .inl
    · rintro (hx | ⟨rfl, rfl⟩)
      · exact hx
      · exact hasEdge_iff.mp (by_contra fun he => hn ⟨rfl, hs, he⟩)

theorem Mirrored.mem_incoming_insertEdge (h : g.Mirrored) {e x : Edge} {id : SymbolId}
    (ht : e.target < g.size) :
    x ∈ (g.insertEdge e).incoming id ↔ x ∈ g.incoming id ∨ id = e.target ∧ x = e := by
  rw [incoming_insertEdge]
  split
  · simp_all
  · next hn =>
    constructor
    · exact .inl
    · rintro (hx | ⟨rfl, rfl⟩)
      · exact hx
      · exact h.mem_incoming_iff.mpr ⟨rfl, by_contra fun he => hn ⟨rfl, ht, he⟩⟩

theorem hasEdge_insertEdge {e x : Edge} (hs : e.source < g.size) :
    (g.insertEdge e).hasEdge x ↔ g.hasEdge x ∨ x = e := by
  rw [hasEdge_iff, mem_outgoing_insertEdge hs, hasEdge_iff]
  constructor
  · rintro (hx | ⟨-, rfl⟩)
    · exact .inl hx
    · exact .inr rfl
  · rintro (hx | rfl)
    · exact .inl hx
    · exact .inr ⟨rfl, rfl⟩

theorem Mirrored.insertEdge (h : g.Mirrored) {e : Edge} (hs : e.source < g.size)
    (ht : e.target < g.size) : (g.insertEdge e).Mirrored where
  source_eq hx := by
    rcases (mem_outgoing_insertEdge hs).mp hx with hx | ⟨rfl, rfl⟩
    · exact h.source_eq hx
    · rfl
  target_eq hx := by
    rcases (h.mem_incoming_insertEdge ht).mp hx with hx | ⟨rfl, rfl⟩
    · exact h.target_eq hx
    · rfl
  mem_iff x := by
    rw [mem_outgoing_insertEdge hs, h.mem_incoming_insertEdge ht, h.mem_iff x]
    constructor
    · rintro (hx | ⟨-, rfl⟩)
      · exact .inl hx
      · exact .inr ⟨rfl, rfl⟩
    · rintro (hx | ⟨-, rfl⟩)
      · exact .inl hx
      · exact .inr ⟨rfl, rfl⟩
  nodup_outgoing id := by
    rw [outgoing_insertEdge]
    split
    · next hc =>
      obtain ⟨rfl, -, he⟩ := hc
      refine List.nodup_append.mpr ⟨h.nodup_outgoing _, List.nodup_singleton e, ?_⟩
      rintro a ha b hb rfl
      obtain rfl := List.mem_singleton.mp hb
      exact he (hasEdge_iff.mpr ha)
    · exact h.nodup_outgoing id
  nodup_incoming id := by
    rw [incoming_insertEdge]
    split
    · next hc =>
      obtain ⟨rfl, -, he⟩ := hc
      refine List.nodup_append.mpr ⟨h.nodup_incoming _, List.nodup_singleton e, ?_⟩
      rintro a ha b hb rfl
      obtain rfl := List.mem_singleton.mp hb
      exact he (hasEdge_iff.mpr ((h.mem_iff a).mpr ha))
    · exact h.nodup_incoming id

theorem Mirrored.outgoing_eraseEdge (h : g.Mirrored) (e : Edge) (id : SymbolId) :
    (g.eraseEdge e).outgoing id = (g.outgoing id).filter (· != e) := by
  rw [SymbolGraph.outgoing_eraseEdge, ← (h.nodup_outgoing id).erase_eq_filter]
  split
  · rfl
  · next hid =>
    rw [List.erase_of_not_mem]
    intro he
    exact hid (h.source_eq he).symm

theorem Mirrored.incoming_eraseEdge (h : g.Mirrored) (e : Edge) (id : SymbolId) :
    (g.eraseEdge e).incoming id = (g.incoming id).filter (· != e) := by
  rw [SymbolGraph.incoming_eraseEdge, ← (h.nodup_incoming id).erase_eq_filter]
  split
  · rfl
  · next hid =>
    rw [List.erase_of_not_mem]
    intro he
    exact hid (h.target_eq he).symm

theorem Mirrored.eraseEdge (h : g.Mirrored) (e : Edge) : (g.eraseEdge e).Mirrored :=
  h.of_filter _ (h.outgoing_eraseEdge e) (h.incoming_eraseEdge e)

/-- Erasing several edges leaves out exactly these. -/
theorem Mirrored.outgoing_foldl_eraseEdge (h : g.Mirrored) (es : List Edge) (id : SymbolId) :
    (es.foldl SymbolGraph.eraseEdge g).outgoing id = (g.outgoing id).filter (!es.contains ·) := by
  induction es generalizing g with
  | nil => simp
  | cons e es ih =>
    rw [List.foldl_cons, ih (h.eraseEdge e), h.outgoing_eraseEdge, List.filter_filter]
    refine List.filter_congr fun x _ => ?_
    by_cases hx : x = e <;> simp [hx]

theorem Mirrored.incoming_foldl_eraseEdge (h : g.Mirrored) (es : List Edge) (id : SymbolId) :
    (es.foldl SymbolGraph.eraseEdge g).incoming id = (g.incoming id).filter (!es.contains ·) := by
  induction es generalizing g with
  | nil => simp
  | cons e es ih =>
    rw [List.foldl_cons, ih (h.eraseEdge e), h.incoming_eraseEdge, List.filter_filter]
    refine List.filter_congr fun x _ => ?_
    by_cases hx : x = e <;> simp [hx]

end SymbolGraph

end NameBinding
