import NameBinding.Proofs.Workspace.Shape
import NameBinding.Proofs.Workspace.Survey

/-! # Editing and starting anew

A workspace that was edited is compared with a fresh one for the same documents. The same symbols are
in both. They can differ only where one of several declarations of a symbol decided for all of them. -/

namespace NameBinding

open SymbolGraph

namespace SymbolGraph

/-- Several declarations can share the symbol. -/
def isShared (g : SymbolGraph) (id : SymbolId) : Bool :=
  !(g.declarations id).isEmpty && g.name id != "" &&
    ((g.kind? id).any (·.isMerged) || (g.kind? id == some .field && g.has id .accessor))

/-- The symbol is the signature of a function. -/
def isOverload (g : SymbolGraph) (id : SymbolId) : Bool :=
  (g.sources id .callSignature).any fun f => (g.kind? f).any (·.isFunctionLike)

/-- What the symbol shows can depend on how several declarations were put together: it is shared, it
contains what is shared, or it is one of the signatures of a function. -/
def isComposed (g : SymbolGraph) (id : SymbolId) : Bool :=
  g.isShared id || (g.children id).any g.isShared || g.isOverload id

end SymbolGraph

namespace Attachment

variable {a : Attachment} {owner symbol owner' symbol' x y : SymbolId} {e : Edge}

/-- Only call signatures hang on an edge for them. -/
theorem Proper.callSignature_mem_edges_iff (h : a.Proper) :
    ⟨x, y, .callSignature⟩ ∈ a.edges owner symbol ↔
      a = .signature .callSignature ∧ x = owner ∧ y = symbol := by
  unfold edges
  split
  · simp
  · next kind =>
    have hm : kind.isMembership := h
    have hne : EdgeKind.callSignature ≠ kind := by
      rintro rfl
      simp [EdgeKind.isMembership] at hm
    simp [hne]
  · simp
  · simp only [List.mem_singleton, Edge.mk.injEq, signature.injEq]
    tauto
  · simp

/-- The edges at other ends. -/
theorem exists_edge (he : e ∈ a.edges owner symbol) (owner' symbol' : SymbolId) :
    ∃ e' ∈ a.edges owner' symbol', e'.kind = e.kind ∧
      ((e.source = owner ∧ e.target = symbol ∧ e'.source = owner' ∧ e'.target = symbol') ∨
        (e.source = symbol ∧ e.target = owner ∧ e'.source = symbol' ∧ e'.target = owner')) := by
  unfold edges at he ⊢
  split at he <;> simp only [List.mem_cons, List.not_mem_nil, or_false] at he
  · subst he
    exact ⟨_, List.mem_singleton_self _, rfl, .inr ⟨rfl, rfl, rfl, rfl⟩⟩
  · rcases he with rfl | rfl
    · exact ⟨_, List.mem_cons_self, rfl, .inl ⟨rfl, rfl, rfl, rfl⟩⟩
    · exact ⟨_, List.mem_cons_of_mem _ (List.mem_singleton_self _), rfl, .inr ⟨rfl, rfl, rfl, rfl⟩⟩
  iterate 3
    subst he
    exact ⟨_, List.mem_singleton_self _, rfl, .inl ⟨rfl, rfl, rfl, rfl⟩⟩

end Attachment

/-! ### Declarations of the same documents -/

namespace Program

/-- The declarations have the same number in documents at the same path. -/
def Corresponds (p p' : Program) (d d' : DeclId) : Prop :=
  d.index = d'.index ∧ ∃ u ∈ p.units, ∃ u' ∈ p'.units,
    u.id = d.unit ∧ u'.id = d'.unit ∧ u.path = u'.path

variable {p p' : Program} {d d' d'' : DeclId}

theorem Corresponds.symm (h : p.Corresponds p' d d') : p'.Corresponds p d' d := by
  obtain ⟨hindex, u, hu, u', hu', hid, hid', hpath⟩ := h
  exact ⟨hindex.symm, u', hu', u, hu, hid', hid, hpath.symm⟩

theorem Corresponds.unique (hp : p.WellFormed) (hp' : p'.WellFormed) (h : p.Corresponds p' d d')
    (h' : p.Corresponds p' d d'') : d' = d'' := by
  obtain ⟨hindex, u, hu, u', hu', hid, hid', hpath⟩ := h
  obtain ⟨hindex', v, hv, v', hv', hvid, hvid', hvpath⟩ := h'
  obtain rfl := hp.eq_of_id hu hv (hid.trans hvid.symm)
  obtain rfl := hp'.eq_of_path hu' hv' (hpath.symm.trans hvpath)
  obtain ⟨unit, index⟩ := d'
  obtain ⟨unit', index'⟩ := d''
  simp only at hindex hindex' hid' hvid'
  rw [← hid', ← hvid', ← hindex, ← hindex']

end Program

namespace Workspace

/-- The units of a document have the same places. -/
theorem IsCollected.places_eq {limit : Nat} {u u' : CompilationUnit} (h : IsCollected limit u)
    (h' : IsCollected limit u') (hpath : u.path = u'.path) (htree : u.tree = u'.tree)
    (hroot : u.root = u'.root) : u.places = u'.places := by
  have hread : ∀ {v : CompilationUnit}, IsCollected limit v → v.places =
      ((CompilationUnit.ofTree v.id v.path v.tree v.root).collect limit).places := by
    intro v hv
    rw [v.alike_text.places_eq, hv, ← (CompilationUnit.alike_text _).places_eq]
  rw [hread h, hread h', hpath, htree, hroot]
  exact (CompilationUnit.alike_collect limit u.id u'.id u'.path u'.tree u'.root).places_eq

/-- Charts of two workspaces for the same documents, in which nothing was resolved. -/
structure SameDocuments (c : Chart) (w : Workspace) (c' : Chart) (w' : Workspace) : Prop where
  left : Surveyed c w
  right : Surveyed c' w'
  bareLeft : Bare c w
  bareRight : Bare c' w'
  options : w.options = w'.options
  documents : w.program.documents = w'.program.documents

/-- The symbols were there from the start, or they stand at the same place. -/
def Twins (c c' : Chart) (x y : SymbolId) : Prop :=
  (x < WellKnown.count ∧ y = x) ∨ ∃ q, c.place x = some q ∧ c'.place y = some q

variable {c c' : Chart} {w w' : Workspace} {x y : SymbolId} {q : Place}

theorem Twins.symm (h : Twins c c' x y) : Twins c' c y x := by
  rcases h with ⟨hlt, rfl⟩ | ⟨q, hx, hy⟩
  · exact .inl ⟨hlt, rfl⟩
  · exact .inr ⟨q, hy, hx⟩

/-- What stands somewhere was not there from the start. -/
theorem Surveyed.count_le_of_place (h : Surveyed c w) (hx : c.place x = some q) :
    ¬x < WellKnown.count := by
  intro hlt
  rw [(h.initial hlt).2] at hx
  exact absurd hx (by simp)

namespace SameDocuments

theorem symm (h : SameDocuments c w c' w') : SameDocuments c' w' c w :=
  ⟨h.right, h.left, h.bareRight, h.bareLeft, h.options.symm, h.documents.symm⟩

theorem exists_unit (h : SameDocuments c w c' w') {u : CompilationUnit} (hu : u ∈ w.program.units) :
    ∃ u' ∈ w'.program.units, u.path = u'.path ∧ u.places = u'.places := by
  have hm : (u.path, u.tree, u.root) ∈ w'.program.documents := by
    rw [← h.documents]
    exact List.mem_map_of_mem hu
  obtain ⟨u', hu', heq⟩ := List.mem_map.mp hm
  simp only [Prod.mk.injEq] at heq
  obtain ⟨hpath, htree, hroot⟩ := heq
  have hcollected' := h.right.collected u' hu'
  rw [← h.options] at hcollected'
  exact ⟨u', hu', hpath.symm,
    (h.left.collected u hu).places_eq hcollected' hpath.symm htree.symm hroot.symm⟩

theorem exists_corresponding (h : SameDocuments c w c' w') {d : DeclId} (hd : c.contributes d q) :
    ∃ d', w.program.Corresponds w'.program d d' ∧ c'.contributes d' q := by
  obtain ⟨u, hu, hid, hq⟩ := h.left.contributes.mp hd
  obtain ⟨u', hu', hpath, hplaces⟩ := h.exists_unit hu
  refine ⟨⟨u'.id, d.index⟩, ⟨rfl, u, hu, u', hu', hid, rfl, hpath⟩, ?_⟩
  exact h.right.contributes.mpr ⟨u', hu', rfl, hplaces ▸ hq⟩

/-- Symbols stand at the same places. -/
theorem exists_placed (h : SameDocuments c w c' w') (hx : c.place x = some q) :
    ∃ y, c'.place y = some q := by
  obtain ⟨d, hd⟩ := h.left.settled.backed hx
  obtain ⟨d', -, hd'⟩ := h.exists_corresponding hd
  exact h.right.charted.filled hd'

theorem length_declarations (h : SameDocuments c w c' w') (hx : c.place x = some q)
    (hy : c'.place y = some q) :
    (w.graph.declarations x).length = (w'.graph.declarations y).length := by
  have hp := h.left.charted.program
  have hp' := h.right.charted.program
  have hperm := perm_map_of_matching (R := w.program.Corresponds w'.program) (f := fun _ => ())
    (g := fun _ => ()) (h.left.charted.unrepeated x) (h.right.charted.unrepeated y)
    (fun d hd => ?_) (fun d' hd' => ?_) (fun h₁ h₂ => h₁.unique hp hp' h₂)
    (fun h₁ h₂ => h₁.symm.unique hp' hp h₂.symm) fun _ _ _ _ _ => rfl
  · simpa using hperm.length_eq
  · obtain ⟨d', hcor, hd'⟩ := h.exists_corresponding ((h.left.charted.declarations hx d).mp hd)
    exact ⟨d', (h.right.charted.declarations hy d').mpr hd', hcor⟩
  · obtain ⟨d, hcor, hd⟩ :=
      h.symm.exists_corresponding ((h.right.charted.declarations hy d').mp hd')
    exact ⟨d, (h.left.charted.declarations hx d).mpr hd, hcor.symm⟩

end SameDocuments

/-! ### Twins -/

theorem Surveyed.exists_get? (h : Surveyed c w) (hx : c.place x = some q) :
    ∃ s, w.graph.get? x = some s := by
  refine Option.isSome_iff_exists.mp ?_
  rw [isSome_get?]
  exact decide_eq_true (h.charted.lt_size hx)

/-- What lives without resolving. -/
theorem Surveyed.isLive_iff (h : Surveyed c w) (hb : Bare c w) :
    w.IsLive x ↔ x < WellKnown.count ∨ ∃ q, c.place x = some q := by
  constructor
  · rintro ⟨s, hs, hlive⟩
    simp only [SymbolGraph.isLive, Bool.or_eq_true, Symbol.isDeclared, Bool.not_eq_true',
      List.isEmpty_eq_false_iff] at hlive
    rcases hlive with (hdecl | hout) | hwk
    · refine .inr (Option.ne_none_iff_exists'.mp fun hnone => hdecl ?_)
      have hnil := h.charted.undeclared hnone
      simpa [SymbolGraph.declarations, hs] using hnil
    · obtain ⟨e, he⟩ := List.exists_mem_of_ne_nil _ hout
      have hmem : e ∈ w.graph.outgoing x := by simpa [outgoing, hs] using he
      obtain ⟨hsource, hedge⟩ := h.charted.wellFormed.mem_outgoing_iff.mp hmem
      obtain ⟨q, hq⟩ := Option.isSome_iff_exists.mp (hb hedge).placed.1
      exact .inr ⟨q, hsource ▸ hq⟩
    · exact .inl (h.later (by simpa [has, hs] using hwk))
  · rintro (hlt | ⟨q, hx⟩)
    · have hwk : w.graph.has x .wellKnown := by
        rw [has_congr (h.initial hlt).1]
        exact has_wellKnown_graph hlt
      cases hs : w.graph.get? x with
      | none => simp [has, hs] at hwk
      | some s => exact ⟨s, hs, by simp_all [SymbolGraph.isLive, has]⟩
    · obtain ⟨s, hs⟩ := h.exists_get? hx
      obtain ⟨d, hd⟩ := h.settled.backed hx
      have hmem := (h.charted.declarations hx d).mpr hd
      simp only [SymbolGraph.declarations, hs, Option.map_some, Option.getD_some] at hmem
      have hne : s.declarations ≠ [] := List.ne_nil_of_mem hmem
      exact ⟨s, hs, by simp [SymbolGraph.isLive, Symbol.isDeclared, hne]⟩

namespace SameDocuments

variable {z : SymbolId}

theorem unique (h : SameDocuments c w c' w') (hy : Twins c c' x y) (hz : Twins c c' x z) :
    y = z := by
  rcases hy with ⟨hlt, rfl⟩ | ⟨q, hx, hy⟩
  · rcases hz with ⟨-, rfl⟩ | ⟨q, hx, -⟩
    · rfl
    · exact absurd hlt (h.left.count_le_of_place hx)
  · rcases hz with ⟨hlt, -⟩ | ⟨r, hx', hz⟩
    · exact absurd hlt (h.left.count_le_of_place hx)
    · obtain rfl := Option.some.inj (hx.symm.trans hx')
      exact h.right.charted.injective hy hz

theorem exists_twin (h : SameDocuments c w c' w') (hx : w.IsLive x) :
    ∃ y, w'.IsLive y ∧ Twins c c' x y := by
  rcases (h.left.isLive_iff h.bareLeft).mp hx with hlt | ⟨q, hx⟩
  · exact ⟨x, (h.right.isLive_iff h.bareRight).mpr (.inl hlt), .inl ⟨hlt, rfl⟩⟩
  · obtain ⟨y, hy⟩ := h.exists_placed hx
    exact ⟨y, (h.right.isLive_iff h.bareRight).mpr (.inr ⟨q, hy⟩), .inr ⟨q, hx, hy⟩⟩

theorem twins_of_place (h : SameDocuments c w c' w') (ht : Twins c c' x y)
    (hx : c.place x = some q) : c'.place y = some q := by
  rcases ht with ⟨hlt, rfl⟩ | ⟨r, hx', hy⟩
  · exact absurd hlt (h.left.count_le_of_place hx)
  · obtain rfl := Option.some.inj (hx.symm.trans hx')
    exact hy

theorem kind?_eq (h : SameDocuments c w c' w') (ht : Twins c c' x y) :
    w.graph.kind? x = w'.graph.kind? y := by
  rcases ht with ⟨hlt, rfl⟩ | ⟨q, hx, hy⟩
  · exact kind?_congr ((h.left.initial hlt).1.trans (h.right.initial hlt).1.symm)
  · exact (h.left.charted.kind? hx).trans (h.right.charted.kind? hy).symm

theorem name_eq (h : SameDocuments c w c' w') (ht : Twins c c' x y) :
    w.graph.name x = w'.graph.name y := by
  rcases ht with ⟨hlt, rfl⟩ | ⟨q, hx, hy⟩
  · exact name_congr ((h.left.initial hlt).1.trans (h.right.initial hlt).1.symm)
  · exact (h.left.charted.name hx).trans (h.right.charted.name hy).symm

theorem declarations_eq (h : SameDocuments c w c' w') (ht : Twins c c' x y) :
    (w.graph.declarations x).length = (w'.graph.declarations y).length := by
  rcases ht with ⟨hlt, rfl⟩ | ⟨q, hx, hy⟩
  · rw [h.left.charted.undeclared (h.left.initial hlt).2,
      h.right.charted.undeclared (h.right.initial hlt).2]
  · exact h.length_declarations hx hy

end SameDocuments

/-! ### What is composed -/

/-- The symbols at shared places are those that several declarations can share. -/
theorem Surveyed.isShared_iff (h : Surveyed c w) : w.graph.isShared x ↔
    ∃ owner name kind, c.place x = some (.shared owner name kind) := by
  simp only [isShared, Bool.and_eq_true, Bool.not_eq_true', List.isEmpty_eq_false_iff, bne_iff_ne,
    Bool.or_eq_true, Option.any_eq_true, beq_iff_eq]
  constructor
  · rintro ⟨⟨hdecl, hname⟩, hkind⟩
    obtain ⟨q, hq⟩ := Option.ne_none_iff_exists'.mp fun hnone =>
      hdecl (h.charted.undeclared (x := x) hnone)
    obtain ⟨s, hs, hfits⟩ := h.charted.fits hq
    have hk : w.graph.kind? x = some s.kind := by rw [SymbolGraph.kind?_eq, hs, Option.map_some]
    have hacc : ∀ f, w.graph.has x f = s.flags.has f := by
      intro f
      rw [has_eq, hs]
      rfl
    rw [h.charted.name hq] at hname
    refine ⟨q.owner, q.name, s.kind, ?_⟩
    rw [← (h.charted.proper hq).eq_shared hfits.kind.symm hname hfits.flags ?_]
    · exact hq
    · rcases hkind with ⟨kind, hkind, hm⟩ | ⟨hkind, ha⟩
      · rw [hk] at hkind
        exact .inl (Option.some.inj hkind ▸ hm)
      · rw [hk] at hkind
        exact .inr ⟨Option.some.inj hkind, hacc _ ▸ ha⟩
  · rintro ⟨owner, name, kind, hx⟩
    obtain ⟨s, hs, hfits⟩ := h.charted.fits hx
    have hproper : name ≠ "" ∧ (kind.isMerged ∨ kind = .field) := h.charted.proper hx
    have hk : w.graph.kind? x = some kind := h.charted.kind? hx
    refine ⟨⟨h.declarations_ne_nil hx, ?_⟩, ?_⟩
    · rw [h.charted.name hx]
      exact hproper.1
    · refine hproper.2.imp (fun hm => ⟨kind, hk, hm⟩) fun hf => ⟨hk.trans (congrArg some hf), ?_⟩
      rw [has_eq, hs]
      exact hfits.flags hf

/-- The attachment of a symbol at a single place is the one that the place says. -/
theorem Surveyed.attachment_eq (h : Surveyed c w) {owner : Place} {spot : Spot}
    (hx : c.place x = some (.single owner spot)) : c.attachment x = some spot.attachment := by
  obtain ⟨a, ha⟩ := h.settled.hung hx
  obtain ⟨r, hr, hacc⟩ := h.charted.attached ha
  obtain rfl := Option.some.inj (hr.symm.trans hx)
  have heq : a = spot.attachment := hacc.2
  rw [ha, heq]

theorem Surveyed.isOverload_iff (h : Surveyed c w) (hb : Bare c w) : w.graph.isOverload x ↔
    ∃ q, c.place x = some q ∧ q.IsOverload := by
  simp only [isOverload, List.any_eq_true, Option.any_eq_true,
    h.charted.wellFormed.mem_sources_iff]
  constructor
  · rintro ⟨f, he, kind, hkind, hf⟩
    obtain ⟨x', f', q, a, hx, hf', ha, he⟩ := hb he
    obtain ⟨r, hr, hacc⟩ := h.charted.attached ha
    obtain rfl := Option.some.inj (hr.symm.trans hx)
    obtain ⟨rfl, rfl, rfl⟩ := hacc.proper.callSignature_mem_edges_iff.mp he
    cases r with
    | top => exact absurd hacc (by simp [Place.Accepts])
    | shared owner name kind => exact absurd hacc.2 (by simp)
    | single owner spot =>
        exact ⟨_, hx, hacc.2.symm, kind, (h.charted.kind? hf').symm.trans hkind, hf⟩
  · rintro ⟨q, hx, hover⟩
    cases q with
    | top => exact absurd hover id
    | shared owner name kind => exact absurd hover id
    | single owner spot =>
        obtain ⟨hatt, kind, hkind, hf⟩ := hover
        rcases h.charted.owned hx with htop | ⟨f, hf'⟩
        · obtain rfl : owner = .top := htop
          exact absurd hkind (by simp [Place.kind?])
        · refine ⟨f, h.charted.hasEdge_of_joins ⟨x, f, _, _, hx, hf', h.attachment_eq hx, ?_⟩, kind,
            (h.charted.kind? hf').trans hkind, hf⟩
          rw [hatt]
          exact List.mem_singleton_self _

/-- A shared symbol is a child of its owner. -/
theorem Surveyed.hasEdge_containedBy (h : Surveyed c w) {owner : Place} {name : String}
    {kind : SymbolKind} (hx : c.place x = some (.shared owner name kind))
    (hy : c.place y = some owner) : w.graph.hasEdge ⟨x, y, .containedBy⟩ := by
  obtain ⟨a, ha⟩ := h.settled.hung hx
  obtain ⟨r, hr, hacc⟩ := h.charted.attached ha
  obtain rfl := Option.some.inj (hr.symm.trans hx)
  refine h.charted.hasEdge_of_joins ⟨x, y, _, a, hx, hy, ha, ?_⟩
  exact hacc.proper.containedBy_mem_edges_iff.mpr ⟨rfl, rfl, hacc.2⟩

theorem Surveyed.any_isShared_children_iff (h : Surveyed c w) (hb : Bare c w) :
    (w.graph.children x).any w.graph.isShared ↔ ∃ z owner name kind,
      c.place z = some (.shared owner name kind) ∧ c.place x = some owner := by
  simp only [List.any_eq_true, children, h.charted.wellFormed.mem_sources_iff, h.isShared_iff]
  constructor
  · rintro ⟨z, he, owner, name, kind, hz⟩
    obtain ⟨z', x', q, a, hz', hx, ha, he⟩ := hb he
    obtain ⟨r, hr, hacc⟩ := h.charted.attached ha
    obtain ⟨rfl, rfl, -⟩ := hacc.proper.containedBy_mem_edges_iff.mp he
    obtain rfl := Option.some.inj (hz'.symm.trans hz)
    exact ⟨_, owner, name, kind, hz, hx⟩
  · rintro ⟨z, owner, name, kind, hz, hx⟩
    exact ⟨z, h.hasEdge_containedBy hz hx, owner, name, kind, hz⟩

/-- What is composed is so by its place. -/
theorem Surveyed.isComposed_iff (h : Surveyed c w) (hb : Bare c w) : w.graph.isComposed x ↔
    ∃ q, c.place x = some q ∧ ((∃ owner name kind, q = .shared owner name kind) ∨
      (∃ z name kind, c.place z = some (.shared q name kind)) ∨ q.IsOverload) := by
  simp only [isComposed, Bool.or_eq_true, h.isShared_iff, h.any_isShared_children_iff hb,
    h.isOverload_iff hb]
  constructor
  · rintro ((⟨owner, name, kind, hx⟩ | ⟨z, owner, name, kind, hz, hx⟩) | ⟨q, hx, hover⟩)
    · exact ⟨_, hx, .inl ⟨owner, name, kind, rfl⟩⟩
    · exact ⟨owner, hx, .inr (.inl ⟨z, name, kind, hz⟩)⟩
    · exact ⟨q, hx, .inr (.inr hover)⟩
  · rintro ⟨q, hx, ⟨owner, name, kind, rfl⟩ | ⟨z, name, kind, hz⟩ | hover⟩
    · exact .inl (.inl ⟨owner, name, kind, hx⟩)
    · exact .inl (.inr ⟨z, q, name, kind, hz, hx⟩)
    · exact .inr ⟨q, hx, hover⟩

/-- What has flags that its place does not say is composed. -/
theorem Surveyed.flags_eq (h : Surveyed c w) (hb : Bare c w) (hx : c.place x = some q)
    (hplain : ¬w.graph.isComposed x) : ∃ owner spot, q = .single owner spot ∧
      ∃ s, w.graph.label? x = some s ∧ spot.flags = some s.flags := by
  obtain ⟨s, hs, hfits⟩ := h.charted.fits hx
  obtain ⟨d, hd⟩ := h.settled.backed hx
  have hmarked := (h.contributes.mp hd).marked
  rw [h.isComposed_iff hb] at hplain
  cases q with
  | top => exact absurd rfl (h.charted.ne_top hx)
  | shared owner name kind => exact absurd ⟨_, hx, .inl ⟨owner, name, kind, rfl⟩⟩ hplain
  | single owner spot =>
      refine ⟨owner, spot, rfl, s, hs, ?_⟩
      cases hf : spot.flags with
      | none => exact absurd ⟨_, hx, .inr (.inr (hmarked owner spot rfl hf))⟩ hplain
      | some flags =>
          have heq : s.flags = flags := hfits.flags flags hf
          rw [heq]

namespace SameDocuments

theorem isComposed (h : SameDocuments c w c' w') (ht : Twins c c' x y)
    (hx : w.graph.isComposed x) : w'.graph.isComposed y := by
  obtain ⟨q, hq, hcomposed⟩ := (h.left.isComposed_iff h.bareLeft).mp hx
  refine (h.right.isComposed_iff h.bareRight).mpr ⟨q, h.twins_of_place ht hq, ?_⟩
  refine hcomposed.imp_right (Or.imp_left ?_)
  rintro ⟨z, name, kind, hz⟩
  obtain ⟨z', hz'⟩ := h.exists_placed hz
  exact ⟨z', name, kind, hz'⟩

theorem isComposed_eq (h : SameDocuments c w c' w') (ht : Twins c c' x y) :
    w.graph.isComposed x = w'.graph.isComposed y :=
  Bool.eq_iff_iff.mpr ⟨h.isComposed ht, h.symm.isComposed ht.symm⟩

theorem flags_eq (h : SameDocuments c w c' w') (ht : Twins c c' x y)
    (hplain : ¬w.graph.isComposed x) {s s' : Symbol} (hs : w.graph.get? x = some s)
    (hs' : w'.graph.get? y = some s') : s.flags = s'.flags := by
  have hlabel : ∀ {g : SymbolGraph} {z : SymbolId} {t : Symbol}, g.get? z = some t →
      g.label? z = some t.label := by
    intro g z t hz
    rw [label?, hz, Option.map_some]
  rcases ht with ⟨hlt, rfl⟩ | ⟨q, hx, hy⟩
  · have heq := (h.left.initial hlt).1.trans (h.right.initial hlt).1.symm
    rw [hlabel hs, hlabel hs'] at heq
    have hlabels : s.label.flags = s'.label.flags := congrArg Symbol.flags (Option.some.inj heq)
    exact hlabels
  · have hplain' : ¬w'.graph.isComposed y := by
      rwa [← h.isComposed_eq (.inr ⟨q, hx, hy⟩)]
    obtain ⟨owner, spot, rfl, t, ht, hf⟩ := h.left.flags_eq h.bareLeft hx hplain
    obtain ⟨owner', spot', heq, t', ht', hf'⟩ := h.right.flags_eq h.bareRight hy hplain'
    obtain ⟨-, rfl⟩ := Place.single.inj heq
    rw [hlabel hs] at ht
    rw [hlabel hs'] at ht'
    obtain rfl := Option.some.inj ht
    obtain rfl := Option.some.inj ht'
    exact Option.some.inj (hf.symm.trans hf')

/-- A symbol that is not composed has the edges of its twin. -/
theorem exists_edge (h : SameDocuments c w c' w') (ht : Twins c c' x y)
    (hplain : ¬w.graph.isComposed x) {e : Edge} (he : w.graph.hasEdge e) (hsource : e.source = x) :
    ∃ e', w'.graph.hasEdge e' ∧ e'.source = y ∧ e'.kind = e.kind ∧
      Twins c c' e.target e'.target := by
  obtain ⟨s, o, q, a, hs, ho, ha, hmem⟩ := h.bareLeft he
  obtain ⟨s', hs'⟩ := h.exists_placed hs
  obtain ⟨o', ho'⟩ := h.exists_placed ho
  have hcomposed := mt (h.left.isComposed_iff h.bareLeft).mpr hplain
  cases q with
  | top => exact absurd rfl (h.left.charted.ne_top hs)
  | shared owner name kind =>
      -- either the symbol is shared or one of its children is
      rcases Attachment.ends_of_mem_edges hmem with ⟨hes, -⟩ | ⟨hes, -⟩
      · refine absurd ⟨owner, ?_, .inr (.inl ⟨s, name, kind, hs⟩)⟩ hcomposed
        rw [← hsource, hes]
        exact ho
      · refine absurd ⟨_, ?_, .inl ⟨owner, name, kind, rfl⟩⟩ hcomposed
        rw [← hsource, hes]
        exact hs
  | single owner spot =>
      obtain rfl := Option.some.inj (ha.symm.trans (h.left.attachment_eq hs))
      obtain ⟨e', hmem', hkind, hends⟩ := Attachment.exists_edge hmem o' s'
      have he' : w'.graph.hasEdge e' :=
        h.right.charted.hasEdge_of_joins ⟨s', o', _, _, hs', ho', h.right.attachment_eq hs', hmem'⟩
      rcases hends with ⟨hes, het, hes', het'⟩ | ⟨hes, het, hes', het'⟩
      · obtain rfl : o = x := hes.symm.trans hsource
        refine ⟨e', he', ?_, hkind, .inr ⟨_, het ▸ hs, het' ▸ hs'⟩⟩
        rw [hes', ← h.unique (.inr ⟨_, ho, ho'⟩) ht]
      · obtain rfl : s = x := hes.symm.trans hsource
        refine ⟨e', he', ?_, hkind, .inr ⟨_, het ▸ ho, het' ▸ ho'⟩⟩
        rw [hes', ← h.unique (.inr ⟨_, hs, hs'⟩) ht]

end SameDocuments

/-! ### Lines -/

theorem SameDocuments.edgeLine_eq (h : SameDocuments c w c' w') {e e' : Edge}
    (he : w.graph.hasEdge e) (hkind : e'.kind = e.kind) (ht : Twins c c' e.target e'.target) :
    w.snapshot.edgeLine ⟨e.kind, e.target, w.graph.name e.target⟩ =
      w'.snapshot.edgeLine ⟨e'.kind, e'.target, w'.graph.name e'.target⟩ := by
  obtain ⟨q, hq⟩ := Option.isSome_iff_exists.mp (h.bareLeft he).placed.2
  have hlive : w.IsLive e.target := (h.left.isLive_iff h.bareLeft).mpr (.inr ⟨q, hq⟩)
  have hlive' : w'.IsLive e'.target :=
    (h.right.isLive_iff h.bareRight).mpr (.inr ⟨q, h.twins_of_place ht hq⟩)
  simp only [Snapshot.edgeLine, kindOf?_snapshot hlive, kindOf?_snapshot hlive', hkind,
    h.kind?_eq ht, h.name_eq ht]

/-- The edges of symbols that are not composed have the same lines, up to their order. -/
theorem SameDocuments.perm_edgeLines (h : SameDocuments c w c' w') (ht : Twins c c' x y)
    (hplain : ¬w.graph.isComposed x) :
    ((w.graph.outgoing x).map fun e =>
        w.snapshot.edgeLine ⟨e.kind, e.target, w.graph.name e.target⟩).Perm
      ((w'.graph.outgoing y).map fun e =>
        w'.snapshot.edgeLine ⟨e.kind, e.target, w'.graph.name e.target⟩) := by
  have hwell := h.left.charted.wellFormed
  have hwell' := h.right.charted.wellFormed
  have hplain' : ¬w'.graph.isComposed y := by rwa [← h.isComposed_eq ht]
  refine perm_map_of_matching (R := fun e e' => w.graph.hasEdge e ∧ e.source = x ∧ e'.source = y ∧
    e'.kind = e.kind ∧ Twins c c' e.target e'.target) (hwell.nodup_outgoing x)
    (hwell'.nodup_outgoing y) (fun e he => ?_) (fun e' he' => ?_) ?_ ?_ ?_
  · obtain ⟨hx, he⟩ := hwell.mem_outgoing_iff.mp he
    obtain ⟨e', he', hsource, hkind, htarget⟩ := h.exists_edge ht hplain he hx.symm
    exact ⟨e', hwell'.mem_outgoing_iff.mpr ⟨hsource.symm, he'⟩, he, hx.symm, hsource, hkind, htarget⟩
  · obtain ⟨hy, he'⟩ := hwell'.mem_outgoing_iff.mp he'
    obtain ⟨e, he, hsource, hkind, htarget⟩ := h.symm.exists_edge ht.symm hplain' he' hy.symm
    exact ⟨e, hwell.mem_outgoing_iff.mpr ⟨hsource.symm, he⟩, he, hsource, hy.symm, hkind.symm,
      htarget.symm⟩
  · rintro ⟨s, t, k⟩ ⟨s₁, t₁, k₁⟩ ⟨s₂, t₂, k₂⟩ ⟨-, -, hs₁, hk₁, ht₁⟩ ⟨-, -, hs₂, hk₂, ht₂⟩
    simp only [Edge.mk.injEq]
    exact ⟨hs₁.trans hs₂.symm, h.unique ht₁ ht₂, hk₁.trans hk₂.symm⟩
  · rintro ⟨s₁, t₁, k₁⟩ ⟨s₂, t₂, k₂⟩ ⟨s, t, k⟩ ⟨-, hs₁, -, hk₁, ht₁⟩ ⟨-, hs₂, -, hk₂, ht₂⟩
    simp only [Edge.mk.injEq]
    exact ⟨hs₁.trans hs₂.symm, h.symm.unique ht₁.symm ht₂.symm, hk₁.symm.trans hk₂⟩
  · rintro e - e' - ⟨he, -, -, hkind, htarget⟩
    exact h.edgeLine_eq he hkind htarget

theorem SameDocuments.symbolLine_eq (h : SameDocuments c w c' w') (ht : Twins c c' x y)
    (hplain : ¬w.graph.isComposed x) {s s' : Symbol} (hs : w.graph.get? x = some s)
    (hs' : w'.graph.get? y = some s') : w.snapshot.symbolLine (w.graph.view x s) =
      w'.snapshot.symbolLine (w'.graph.view y s') := by
  have hkind : s.kind = s'.kind := by simpa [kind?, hs, hs'] using h.kind?_eq ht
  have hname : s.name = s'.name := by simpa [SymbolGraph.name, hs, hs'] using h.name_eq ht
  have hcount : s.declarations.length = s'.declarations.length := by
    simpa [SymbolGraph.declarations, hs, hs'] using h.declarations_eq ht
  have hflags : s.flags = s'.flags := h.flags_eq ht hplain hs hs'
  have hlines := Snapshot.sortLines_eq_iff.mpr (h.perm_edgeLines ht hplain)
  simp only [outgoing, hs, hs', Option.map_some, Option.getD_some] at hlines
  simp only [Snapshot.symbolLine, view, hkind, hname, hcount, hflags, List.map_map,
    Function.comp_def, hlines]

/-- What twins have in common, all symbols have in common up to their order. -/
theorem SameDocuments.perm_views (h : SameDocuments c w c' w') {γ : Type} (f f' : SymbolView → γ)
    {p p' : SymbolId → Bool} (hp : ∀ {x y}, Twins c c' x y → p x = p' y)
    (hf : ∀ {x y s s'}, Twins c c' x y → p x → w.graph.get? x = some s →
      w'.graph.get? y = some s' → f (w.graph.view x s) = f' (w'.graph.view y s')) :
    ((w.graph.views.filter fun v => p v.id).map f).Perm
      ((w'.graph.views.filter fun v => p' v.id).map f') := by
  refine perm_map_of_matching (R := fun v v' => v ∈ w.graph.views ∧ v' ∈ w'.graph.views ∧
    Twins c c' v.id v'.id) (w.graph.nodup_views.filter _) (w'.graph.nodup_views.filter _)
    (fun v hv => ?_) (fun v' hv' => ?_) ?_ ?_ ?_
  · obtain ⟨hv, hpv⟩ := List.mem_filter.mp hv
    obtain ⟨s, hs, hlive, -⟩ := mem_views_iff.mp hv
    obtain ⟨y, ⟨s', hs', hlive'⟩, ht⟩ := h.exists_twin ⟨s, hs, hlive⟩
    have hv' : w'.graph.view y s' ∈ w'.graph.views := mem_views_iff.mpr ⟨s', hs', hlive', rfl⟩
    exact ⟨_, List.mem_filter.mpr ⟨hv', (hp ht).symm.trans hpv⟩, hv, hv', ht⟩
  · obtain ⟨hv', hpv'⟩ := List.mem_filter.mp hv'
    obtain ⟨s', hs', hlive', -⟩ := mem_views_iff.mp hv'
    obtain ⟨x, ⟨s, hs, hlive⟩, ht⟩ := h.symm.exists_twin ⟨s', hs', hlive'⟩
    have hv : w.graph.view x s ∈ w.graph.views := mem_views_iff.mpr ⟨s, hs, hlive, rfl⟩
    exact ⟨_, List.mem_filter.mpr ⟨hv, (hp ht.symm).trans hpv'⟩, hv, hv', ht.symm⟩
  · rintro v v₁ v₂ ⟨-, hv₁, ht₁⟩ ⟨-, hv₂, ht₂⟩
    exact eq_of_mem_views hv₁ hv₂ (h.unique ht₁ ht₂)
  · rintro v₁ v₂ v ⟨hv₁, -, ht₁⟩ ⟨hv₂, -, ht₂⟩
    exact eq_of_mem_views hv₁ hv₂ (h.symm.unique ht₁.symm ht₂.symm)
  · rintro v hv v' hv' ⟨-, -, ht⟩
    obtain ⟨hv, hpv⟩ := List.mem_filter.mp hv
    obtain ⟨s, hs, -, hview⟩ := mem_views_iff.mp hv
    obtain ⟨s', hs', -, hview'⟩ := mem_views_iff.mp (List.mem_of_mem_filter hv')
    rw [hview, hview']
    exact hf ht hpv hs hs'

/-! ### Edits -/

theorem exists_sameDocuments (options : Options) {requests : List Request}
    (h : requests.all Request.isEdit) : ∃ c c', SameDocuments c ((ofOptions options).after requests)
      c' ((ofOptions options).after requests).rebuilt := by
  obtain ⟨c, hc, hb, ho, -⟩ := exists_bare_of_edits options h
  have hs : ((ofOptions options).after requests).Sound := (sound_ofOptions options).after requests
  obtain ⟨c', hc', hb', ho', hd'⟩ := exists_bare_of_edits
    ((ofOptions options).after requests).options (isEdit_requestsFor _)
  exact ⟨c, c', hc, hc', hb, hb', ho'.symm, hd'.symm ▸ hs.documents_rebuilt.symm⟩

/-- After edits the documents are those that were set last, and the symbols are those of a fresh
workspace for these documents, with as many declarations. All symbols that are not composed have the
same lines as there. So the shapes are equal exactly if the lines of the composed symbols are. -/
theorem shape_after_edits_eq_iff (options : Options) {requests : List Request}
    (h : requests.all Request.isEdit) :
    let w := (ofOptions options).after requests
    w.program.documents = requests.foldl Request.documents [] ∧
      (w.graph.views.map fun v => (v.kind, v.name, v.declarations)).Perm
        (w.rebuilt.graph.views.map fun v => (v.kind, v.name, v.declarations)) ∧
      (w.linesWhere (!w.graph.isComposed ·)).Perm
        (w.rebuilt.linesWhere (!w.rebuilt.graph.isComposed ·)) ∧
      (w.snapshot.shape = w.rebuilt.snapshot.shape ↔
        (w.linesWhere w.graph.isComposed).Perm
          (w.rebuilt.linesWhere w.rebuilt.graph.isComposed)) := by
  intro w
  obtain ⟨-, -, -, -, hdocuments⟩ := exists_bare_of_edits options h
  obtain ⟨c, c', hsame⟩ := exists_sameDocuments options h
  have hplain : (w.linesWhere (!w.graph.isComposed ·)).Perm
      (w.rebuilt.linesWhere (!w.rebuilt.graph.isComposed ·)) :=
    hsame.perm_views _ _ (fun ht => congrArg (!·) (hsame.isComposed_eq ht))
      fun ht hp hs hs' => hsame.symbolLine_eq ht (by simpa using hp) hs hs'
  have hall := hsame.perm_views (p := fun _ => true) (fun v => (v.kind, v.name, v.declarations))
    (fun v => (v.kind, v.name, v.declarations)) (fun _ => rfl) fun ht _ hs hs' => ?_
  · refine ⟨hdocuments, ?_, hplain, shape_eq_iff_of_perm hplain⟩
    simpa using hall
  · have hkind := hsame.kind?_eq ht
    have hname := hsame.name_eq ht
    have hcount := hsame.declarations_eq ht
    simp only [kind?, SymbolGraph.name, SymbolGraph.declarations, hs, hs', Option.map_some,
      Option.getD_some, Option.some.injEq] at hkind hname hcount
    simp only [view, hkind, hname, hcount]

/-- Two documents have a module `M`. The one that exports it came first, and goes. -/
def exporterRemoved : List Request :=
  [.setStatements "a.ts" do return [← Build.moduleDecl "M" (Flags.single .exported) []],
    .setStatements "b.ts" do return [← Build.moduleDecl "M" ∅ []],
    .removeUnit "a.ts"]

theorem shape_after_edits_eq_iff_exporterRemoved :
    exporterRemoved.all Request.isEdit ∧
      (((ofOptions {}).after exporterRemoved).snapshot.shape =
          ((ofOptions {}).after exporterRemoved).rebuilt.snapshot.shape ↔
        (((ofOptions {}).after exporterRemoved).linesWhere
            ((ofOptions {}).after exporterRemoved).graph.isComposed).Perm
          (((ofOptions {}).after exporterRemoved).rebuilt.linesWhere
            ((ofOptions {}).after exporterRemoved).rebuilt.graph.isComposed)) :=
  ⟨by decide, (shape_after_edits_eq_iff {} (by decide)).2.2.2⟩

/-- The module stays exported. -/
theorem not_shape_after_edits_eq : ¬∀ (options : Options) (requests : List Request),
    requests.all Request.isEdit → ((ofOptions options).after requests).snapshot.shape =
      ((ofOptions options).after requests).rebuilt.snapshot.shape := by
  intro h
  have hlines := Snapshot.sortLines_eq_iff.mp (h {} exporterRemoved (by decide))
  have hm : "Module M SymbolFlags(EXPORTED) decls=1 []" ∈
      ((ofOptions {}).after exporterRemoved).snapshot.symbols.map
        ((ofOptions {}).after exporterRemoved).snapshot.symbolLine := by decide +kernel
  exact absurd (hlines.subset hm) (by decide +kernel)

end Workspace

end NameBinding
