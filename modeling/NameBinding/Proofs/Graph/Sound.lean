import NameBinding.Proofs.Graph.Label

/-! # Sound graphs

An element type has one array type, a class that is declared has one instance side, which lists the
declarations of the class as well, and only what declarations make has declarations. -/

namespace NameBinding.SymbolGraph

variable {g g' : SymbolGraph}

/-- What holds of the graph of a program at all times. -/
structure Sound (g : SymbolGraph) : Prop extends g.WellFormed where
  arrays : g.OneSource .arrayOf
  sides : g.OneTarget .instanceType
  isSide : ∀ {cls inst : SymbolId}, g.hasEdge ⟨cls, inst, .instanceType⟩ →
    g.kind? cls = some .classType ∧ g.kind? inst = some .instanceType ∧
      g.declarations cls ⊆ g.declarations inst
  hasSide : ∀ {cls : SymbolId} {d : DeclId}, g.kind? cls = some .classType →
    d ∈ g.declarations cls → ∃ inst, g.hasEdge ⟨cls, inst, .instanceType⟩
  declarable : ∀ {id : SymbolId} {d : DeclId}, d ∈ g.declarations id → g.IsDeclarable id

theorem declarations_eq_nil {id : SymbolId} (h : g.size ≤ id) : g.declarations id = [] := by
  simp [declarations, (get?_eq_none_iff g id).mpr h]

theorem lt_size_of_mem_declarations {id : SymbolId} {d : DeclId} (h : d ∈ g.declarations id) :
    id < g.size := by
  by_contra hn
  rw [declarations_eq_nil (Nat.le_of_not_lt hn)] at h
  exact absurd h List.not_mem_nil

theorem lt_size_of_kind? {id : SymbolId} {kind : SymbolKind} (h : g.kind? id = some kind) :
    id < g.size := by
  by_contra hn
  simp [kind?, (get?_eq_none_iff g id).mpr (Nat.le_of_not_lt hn)] at h

namespace Sound

theorem empty : SymbolGraph.empty.Sound where
  toWellFormed := .empty
  arrays _ _ _ ha := by simp [hasEdge, SymbolGraph.empty, outgoing, get?] at ha
  sides _ _ _ ha := by simp [hasEdge, SymbolGraph.empty, outgoing, get?] at ha
  isSide ha := by simp [hasEdge, SymbolGraph.empty, outgoing, get?] at ha
  hasSide hk := by simp [SymbolGraph.empty, kind?, get?] at hk
  declarable hd := by simp [SymbolGraph.empty, SymbolGraph.declarations, get?] at hd

/-- Changes that leave declarations and the labels of what was there, add no second array type and
no instance side, and take none from a class that is declared. -/
theorem of_labels (h : g.Sound) (hw : g'.WellFormed)
    (hlabel : ∀ id, id < g.size → g'.label? id = g.label? id)
    (hdecls : ∀ id, g'.declarations id = g.declarations id) (harrays : g'.OneSource .arrayOf)
    (hsub : ∀ {cls inst}, g'.hasEdge ⟨cls, inst, .instanceType⟩ →
      g.hasEdge ⟨cls, inst, .instanceType⟩)
    (hkept : ∀ {cls inst d}, d ∈ g.declarations cls → g.hasEdge ⟨cls, inst, .instanceType⟩ →
      g'.hasEdge ⟨cls, inst, .instanceType⟩) : g'.Sound where
  toWellFormed := hw
  arrays := harrays
  sides _ _ _ ha hb := h.sides _ _ _ (hsub ha) (hsub hb)
  isSide {cls inst} he := by
    obtain ⟨hcls, hinst⟩ := h.lt_size (hsub he)
    rw [kind?_congr (hlabel cls hcls), kind?_congr (hlabel inst hinst), hdecls, hdecls]
    exact h.isSide (hsub he)
  hasSide {cls d} hk hd := by
    rw [hdecls] at hd
    rw [kind?_congr (hlabel cls (lt_size_of_mem_declarations hd))] at hk
    obtain ⟨inst, he⟩ := h.hasSide hk hd
    exact ⟨inst, hkept hd he⟩
  declarable {id d} hd := by
    rw [hdecls] at hd
    rw [isDeclarable_congr (hlabel id (lt_size_of_mem_declarations hd))]
    exact h.declarable hd

/-- Changes that no label and no edge sees. -/
theorem of_edges_eq (h : g.Sound) (hlabel : ∀ id, g'.label? id = g.label? id)
    (ho : ∀ id, g'.outgoing id = g.outgoing id) (hi : ∀ id, g'.incoming id = g.incoming id) :
    g'.Sound := by
  have he : ∀ e : Edge, g'.hasEdge e ↔ g.hasEdge e := fun e => by simp only [hasEdge, ho]
  exact h.of_labels (h.toWellFormed.of_edges_eq ho hi) (fun id _ => hlabel id)
    (fun id => declarations_congr (hlabel id)) (h.arrays.mono fun _ hx => (he _).mp hx)
    (he _).mp fun _ => (he _).mpr

theorem setResolved (h : g.Sound) (id : SymbolId) (b : Bool) : (g.setResolved id b).Sound :=
  h.of_edges_eq (label?_setResolved g id b) (outgoing_setResolved g id b)
    (incoming_setResolved g id b)

theorem invalidate (h : g.Sound) (id : SymbolId) : (g.invalidate id).Sound :=
  h.of_edges_eq (label?_invalidate g id) (outgoing_invalidate g id) (incoming_invalidate g id)

theorem alloc (h : g.Sound) (name : String) (kind : SymbolKind) (flags : Flags SymbolFlag) :
    (g.alloc name kind flags).Sound := by
  have he : ∀ e : Edge, (g.alloc name kind flags).hasEdge e ↔ g.hasEdge e := fun e => by
    simp only [hasEdge, outgoing_alloc]
  refine h.of_labels (h.toWellFormed.alloc name kind flags) (fun id hid => ?_) (fun id => ?_)
    (h.arrays.mono fun _ hx => (he _).mp hx) (he _).mp fun _ => (he _).mpr
  · rw [label?_alloc, if_neg (Nat.ne_of_lt hid)]
  · exact declarations_alloc g name kind flags id

/-- An edge that makes neither an array type nor an instance side. -/
theorem addEdge (h : g.Sound) {e : Edge} (hs : e.source < g.size) (ht : e.target < g.size)
    (harray : e.kind ≠ .arrayOf) (hside : e.kind ≠ .instanceType) : (g.addEdge e).Sound := by
  have he : ∀ {x : Edge}, x.kind ≠ e.kind → x.kind ≠ .containedBy →
      ((g.addEdge e).hasEdge x ↔ g.hasEdge x) := hasEdge_addEdge_of_ne hs ht
  refine h.of_labels (h.toWellFormed.addEdge hs ht) (fun id _ => label?_addEdge g e id)
    (fun id => declarations_congr (label?_addEdge g e id)) ?_ ?_ ?_
  · exact h.arrays.mono fun {x} hx => (he (hx ▸ harray.symm) (by simp [hx])).mp
  · exact (he hside.symm (by simp)).mp
  · exact fun _ => (he hside.symm (by simp)).mpr

/-- The first array type of an element type. -/
theorem addArray (h : g.Sound) {e : Edge} (hs : e.source < g.size) (ht : e.target < g.size)
    (hk : e.kind = .arrayOf) (hfirst : g.sources e.target .arrayOf = []) : (g.addEdge e).Sound := by
  refine h.of_labels (h.toWellFormed.addEdge hs ht) (fun id _ => label?_addEdge g e id)
    (fun id => declarations_congr (label?_addEdge g e id)) ?_ (fun hx => ?_)
    fun _ hx => (hasEdge_addEdge hs ht).mpr (.inl hx)
  · refine h.arrays.addEdge hs ht (by simp [hk, EdgeKind.isMembership]) fun x hx => ?_
    rw [← h.mem_sources_iff, hfirst] at hx
    exact absurd hx List.not_mem_nil
  · exact (hasEdge_addEdge_of_ne hs ht (by simp [hk]) (by simp)).mp hx

/-- A class without declarations gets its instance side. -/
theorem addSide (h : g.Sound) {cls inst : SymbolId} (hcls : g.kind? cls = some .classType)
    (hinst : g.kind? inst = some .instanceType) (hnone : ∀ x, ¬g.hasEdge ⟨cls, x, .instanceType⟩)
    (hdecls : g.declarations cls = []) : (g.addEdge ⟨cls, inst, .instanceType⟩).Sound := by
  have hs : cls < g.size := lt_size_of_kind? hcls
  have ht : inst < g.size := lt_size_of_kind? hinst
  have hl : ∀ x, (g.addEdge ⟨cls, inst, .instanceType⟩).label? x = g.label? x := label?_addEdge g _
  have he : ∀ {x : Edge}, (g.addEdge ⟨cls, inst, .instanceType⟩).hasEdge x ↔
      g.hasEdge x ∨ x = ⟨cls, inst, .instanceType⟩ :=
    hasEdge_addEdge_of_plain hs ht Bool.false_ne_true
  constructor
  · exact h.toWellFormed.addEdge hs ht
  · exact h.arrays.mono fun hx => (hasEdge_addEdge_of_ne hs ht (by simp [hx]) (by simp [hx])).mp
  · exact h.sides.addEdge hs ht Bool.false_ne_true hnone
  · intro c i hci
    simp only [kind?_congr (hl _), declarations_congr (hl _)]
    rcases he.mp hci with hci | hci
    · exact h.isSide hci
    · obtain ⟨rfl, rfl, -⟩ := Edge.mk.inj hci
      exact ⟨hcls, hinst, hdecls ▸ List.nil_subset _⟩
  · intro c d hk hd
    rw [kind?_congr (hl _)] at hk
    rw [declarations_congr (hl _)] at hd
    obtain ⟨i, hi⟩ := h.hasSide hk hd
    exact ⟨i, he.mpr (.inl hi)⟩
  · intro id d hd
    rw [declarations_congr (hl _)] at hd
    rw [isDeclarable_congr (hl _)]
    exact h.declarable hd

/-- A declaration is listed on a symbol that can have some. The instance side of a class lists it
first. -/
theorem declare (h : g.Sound) {id : SymbolId} {d : DeclId} (hdecl : g.IsDeclarable id)
    (hside : g.kind? id = some .classType →
      ∃ inst, g.hasEdge ⟨id, inst, .instanceType⟩ ∧ d ∈ g.declarations inst) :
    (g.declare id d).Sound := by
  have he : ∀ e : Edge, (g.declare id d).hasEdge e ↔ g.hasEdge e := fun e => by
    simp only [hasEdge, outgoing_declare]
  constructor
  · exact h.toWellFormed.of_edges_eq (outgoing_declare g id d) (incoming_declare g id d)
  · exact h.arrays.mono fun _ => (he _).mp
  · exact h.sides.mono fun _ => (he _).mp
  · intro cls inst hci
    rw [he] at hci
    obtain ⟨hk, hki, hsub⟩ := h.isSide hci
    refine ⟨by simpa using hk, by simpa using hki, fun y hy => ?_⟩
    rw [mem_declarations_declare] at hy ⊢
    rcases hy with hy | ⟨rfl, -, rfl⟩
    · exact .inl (hsub hy)
    · obtain ⟨i, hi, hd⟩ := hside hk
      rw [h.sides _ _ _ hci hi]
      exact .inl hd
  · intro cls y hk hy
    rw [kind?_declare] at hk
    rcases mem_declarations_declare.mp hy with hy | ⟨rfl, -, -⟩
    · obtain ⟨i, hi⟩ := h.hasSide hk hy
      exact ⟨i, (he _).mpr hi⟩
    · obtain ⟨i, hi, -⟩ := hside hk
      exact ⟨i, (he _).mpr hi⟩
  · intro x y hy
    rw [isDeclarable_declare]
    rcases mem_declarations_declare.mp hy with hy | ⟨rfl, -, -⟩
    · exact h.declarable hy
    · exact hdecl

theorem forgetUnit (h : g.Sound) (unit : UnitId) : (g.forgetUnit unit).Sound := by
  have he : ∀ e : Edge, (g.forgetUnit unit).hasEdge e ↔ g.hasEdge e := fun e => by
    simp only [hasEdge, outgoing_forgetUnit]
  constructor
  · exact h.toWellFormed.of_edges_eq (outgoing_forgetUnit g unit) (incoming_forgetUnit g unit)
  · exact h.arrays.mono fun _ => (he _).mp
  · exact h.sides.mono fun _ => (he _).mp
  · intro cls inst hci
    obtain ⟨hk, hki, hsub⟩ := h.isSide ((he _).mp hci)
    simp only [kind?_forgetUnit, declarations_forgetUnit]
    refine ⟨hk, hki, fun d hd => ?_⟩
    obtain ⟨hd, hu⟩ := List.mem_filter.mp hd
    exact List.mem_filter.mpr ⟨hsub hd, hu⟩
  · intro cls d hk hd
    rw [kind?_forgetUnit] at hk
    rw [declarations_forgetUnit] at hd
    obtain ⟨i, hi⟩ := h.hasSide hk (List.mem_of_mem_filter hd)
    exact ⟨i, (he _).mpr hi⟩
  · intro id d hd
    rw [declarations_forgetUnit] at hd
    rw [isDeclarable_forgetUnit]
    exact h.declarable (List.mem_of_mem_filter hd)

/-- A symbol without declarations is unlinked. It is no side of a class that is declared. -/
theorem unlinkAll (h : g.Sound) {id : SymbolId} (hid : g.declarations id = []) :
    (g.unlinkAll id).Sound := by
  have he : ∀ e : Edge, (g.unlinkAll id).hasEdge e ↔ g.hasEdge e ∧ ¬e.touches id := fun e => by
    simp [hasEdge_iff, (edges_unlinkAll h.toMirrored id).1]
  have hl : ∀ x, (g.unlinkAll id).label? x = g.label? x := label?_unlinkAll g id
  refine h.of_labels (h.toWellFormed.unlinkAll id) (fun x _ => hl x)
    (fun x => declarations_congr (hl x)) (h.arrays.mono fun _ hx => ((he _).mp hx).1)
    (fun hx => ((he _).mp hx).1) fun {cls inst d} hd hx => (he _).mpr ⟨hx, ?_⟩
  have hinst : d ∈ g.declarations inst := (h.isSide hx).2.2 hd
  simp only [Edge.touches, Bool.or_eq_true, beq_iff_eq, not_or]
  constructor
  · rintro rfl
    simp [hid] at hd
  · rintro rfl
    simp [hid] at hinst

end Sound

end NameBinding.SymbolGraph
