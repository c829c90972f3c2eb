import NameBinding.Proofs.Resolve.Parts
import NameBinding.Proofs.Workspace.Survey

/-! # What survives the removal of a unit

The symbols that survive keep their edges to each other, in their order, and their declarations in
other units. What was resolved through a symbol that dies is given up, together with what covers it. -/

namespace NameBinding

open SymbolGraph

/-! ### Symbols that hang on one edge -/

namespace Attachment

variable {a : Attachment} {owner symbol x y : SymbolId} {kind : EdgeKind}

theorem Proper.edges_eq_of_isSole (h : a.Proper) (hk : kind.isSole)
    (he : ⟨x, y, kind⟩ ∈ a.edges owner symbol) :
    x = owner ∧ y = symbol ∧ ∀ o s, a.edges o s = [⟨o, s, kind⟩] := by
  cases a with
  | member membership =>
      cases membership with
      | none => simp_all [edges, EdgeKind.isSole, EdgeKind.isSignature]
      | some m =>
          simp only [edges, List.mem_cons, Edge.mk.injEq, List.not_mem_nil, or_false] at he
          rcases he with ⟨-, -, rfl⟩ | ⟨-, -, rfl⟩
          · have hm : kind.isMembership := h
            cases kind <;> simp_all [EdgeKind.isSole, EdgeKind.isSignature, EdgeKind.isMembership]
          · simp [EdgeKind.isSole, EdgeKind.isSignature] at hk
  | side | signature | parameter =>
      simp only [edges, List.mem_singleton, Edge.mk.injEq] at he
      obtain ⟨rfl, rfl, rfl⟩ := he
      exact ⟨rfl, rfl, fun _ _ => rfl⟩

end Attachment

namespace Binding.Charted

variable {c : Chart} {b : Binding} {x y z : SymbolId} {kind : EdgeKind}

/-- The owner stands around the symbol that hangs on the edge. -/
theorem hung_of_joins (h : Charted c b) (hk : kind.isSole) (hj : c.Joins ⟨y, x, kind⟩) :
    ∃ q a, c.place x = some q ∧ c.place y = some q.owner ∧ c.attachment x = some a ∧ a.Proper ∧
      ∀ o s, a.edges o s = [⟨o, s, kind⟩] := by
  obtain ⟨x', y', q, a, hq, ho, ha, hmem⟩ := hj
  obtain ⟨_, -, hacc⟩ := h.attached ha
  obtain ⟨rfl, rfl, hedges⟩ := hacc.proper.edges_eq_of_isSole hk hmem
  exact ⟨q, a, hq, ho, ha, hacc.proper, hedges⟩

/-- Such an edge is the only one to what is around the symbol. -/
theorem source_eq_of_isSole (h : Charted c b) (hk : kind.isSole) (hj : c.Joins ⟨y, x, kind⟩)
    {kind' : EdgeKind} (hk' : kind'.isSole) (he : b.graph.hasEdge ⟨z, x, kind'⟩) :
    z = y ∧ kind' = kind := by
  obtain ⟨q, a, hq, ho, ha, -, hedges⟩ := h.hung_of_joins hk hj
  have hj' := (h.joined (EdgeKind.isStructural_of_isSole hk') (.inr (by simp [hq]))).mp he
  obtain ⟨q', a', hq', ho', ha', -, hedges'⟩ := h.hung_of_joins hk' hj'
  obtain rfl : q' = q := Option.some.inj (hq'.symm.trans hq)
  obtain rfl : a' = a := Option.some.inj (ha'.symm.trans ha)
  refine ⟨h.injective ho' ho, ?_⟩
  simpa [hedges' 0 0] using hedges 0 0

theorem not_containedBy_of_isSole (h : Charted c b) (hk : kind.isSole) (hj : c.Joins ⟨y, x, kind⟩) :
    ¬b.graph.hasEdge ⟨x, z, .containedBy⟩ := by
  intro he
  obtain ⟨q, a, hq, -, ha, -, hedges⟩ := h.hung_of_joins hk hj
  obtain ⟨x', y', q', a', -, -, ha', hmem⟩ :=
    (h.joined (by simp [EdgeKind.isStructural, EdgeKind.isResolution]) (.inl (by simp [hq]))).mp he
  obtain ⟨_, -, hacc⟩ := h.attached ha'
  obtain ⟨rfl, rfl, membership, rfl⟩ := hacc.proper.containedBy_mem_edges_iff.mp hmem
  obtain rfl := Option.some.inj (ha'.symm.trans ha)
  have hedge := hedges 0 1
  cases membership with
  | none => simp [Attachment.edges] at hedge
  | some m => simp [Attachment.edges] at hedge

/-- The instance side of a class stands at the place for it. -/
theorem place_of_joins_instanceType (h : Charted c b) (hj : c.Joins ⟨x, y, .instanceType⟩) :
    ∃ q, c.place x = some q ∧ c.place y = some q.instanceSide := by
  obtain ⟨x', y', q, a, hq, ho, ha, hmem⟩ := hj
  obtain ⟨r, hr, hacc⟩ := h.attached ha
  obtain rfl : r = q := Option.some.inj (hr.symm.trans hq)
  obtain ⟨rfl, rfl, rfl⟩ := hacc.proper.instanceType_mem_edges_iff.mp hmem
  refine ⟨r.owner, ho, ?_⟩
  cases r with
  | top => exact absurd hacc id
  | shared => exact absurd hacc.2 (by simp)
  | single owner spot => exact (h.proper hq).2.1 hacc.2.symm ▸ hq

theorem classOfInstance?_eq (h : Charted c b) (hj : c.Joins ⟨y, x, .instanceType⟩) :
    b.graph.classOfInstance? x = some y := by
  have hm : y ∈ b.graph.sources x .instanceType :=
    h.wellFormed.mem_sources_iff.mpr (h.hasEdge_of_joins hj)
  obtain ⟨z, hz⟩ : ∃ z, (b.graph.sources x .instanceType).head? = some z :=
    ⟨_, List.head?_eq_some_head (List.ne_nil_of_mem hm)⟩
  have he := h.wellFormed.mem_sources_iff.mp (List.mem_of_head? hz)
  rw [classOfInstance?, firstSource, hz, (h.source_eq_of_isSole rfl hj rfl he).1]

theorem container?_eq (h : Charted c b) (hk : kind.isSignature ∨ kind = .parameter)
    (hj : c.Joins ⟨y, x, kind⟩) : b.graph.container? x = some y := by
  have hsole : kind.isSole := by
    rcases hk with hk | rfl
    · exact EdgeKind.isSole_of_isSignature hk
    · rfl
  have hcontained : b.graph.firstTarget x .containedBy = none := by
    rw [firstTarget, List.head?_eq_none_iff, List.eq_nil_iff_forall_not_mem]
    exact fun z hz => h.not_containedBy_of_isSole hsole hj (h.wellFormed.mem_targets_iff.mp hz)
  have hside : b.graph.firstSource x .instanceType = none := by
    rw [firstSource, List.head?_eq_none_iff, List.eq_nil_iff_forall_not_mem]
    intro z hz
    have heq := (h.source_eq_of_isSole hsole hj rfl (h.wellFormed.mem_sources_iff.mp hz)).2
    simp [← heq, EdgeKind.isSignature] at hk
  have hmem := h.wellFormed.mem_incoming_iff.mpr ⟨rfl, h.hasEdge_of_joins hj⟩
  obtain ⟨e, hfind⟩ := Option.isSome_iff_exists.mp (List.find?_isSome.mpr
    ⟨_, hmem, by simpa using hk⟩ :
      ((b.graph.incoming x).find? fun e => e.kind.isSignature || e.kind == .parameter).isSome)
  obtain ⟨rfl, he⟩ := h.wellFormed.mem_incoming_iff.mp (List.mem_of_find?_eq_some hfind)
  have hek : e.kind.isSole := by
    have := List.find?_some hfind
    cases hek : e.kind <;> simp_all [EdgeKind.isSole, EdgeKind.isSignature]
  rw [container?, hcontained, hside, hfind, (h.source_eq_of_isSole hsole hj hek he).1.symm]
  rfl

end Binding.Charted

/-! ### What covers a symbol -/

namespace SymbolGraph

/-- The state of the second symbol covers that of the first one: it is the other side of a class,
the signature of a parameter or the owner of a signature. -/
inductive CoveredBy (g : SymbolGraph) : SymbolId → SymbolId → Prop where
  | instanceSide {cls inst : SymbolId} (he : g.hasEdge ⟨cls, inst, .instanceType⟩) :
      CoveredBy g cls inst
  | staticSide {cls inst : SymbolId} (he : g.hasEdge ⟨cls, inst, .instanceType⟩) :
      CoveredBy g inst cls
  | signature {signature parameter : SymbolId} (hk : g.kind? parameter = some .parameter)
      (he : g.hasEdge ⟨signature, parameter, .parameter⟩) : CoveredBy g parameter signature
  | owner {owner signature : SymbolId} {kind : EdgeKind} (hk : g.kind? signature = some .signature)
      (hkind : kind.isSignature) (he : g.hasEdge ⟨owner, signature, kind⟩) :
      CoveredBy g signature owner

/-- The edge behind it. -/
theorem CoveredBy.exists_edge {g : SymbolGraph} {x y : SymbolId} (h : g.CoveredBy x y) :
    ∃ e : Edge, g.hasEdge e ∧ e.kind.isSole ∧
      (e.source = x ∧ e.target = y ∧ e.kind = .instanceType ∨ e.source = y ∧ e.target = x) := by
  cases h with
  | instanceSide he => exact ⟨_, he, rfl, .inl ⟨rfl, rfl, rfl⟩⟩
  | staticSide he => exact ⟨_, he, rfl, .inr ⟨rfl, rfl⟩⟩
  | signature _ he => exact ⟨_, he, rfl, .inr ⟨rfl, rfl⟩⟩
  | owner _ hk he => exact ⟨_, he, EdgeKind.isSole_of_isSignature hk, .inr ⟨rfl, rfl⟩⟩

/-- The two symbols keep covering each other in a graph with their labels and the edge. -/
theorem CoveredBy.of_edges {g g' : SymbolGraph} {x y : SymbolId} (h : g.CoveredBy x y)
    (hkind : g'.kind? x = g.kind? x)
    (hedge : ∀ e : Edge, e.source = x ∧ e.target = y ∨ e.source = y ∧ e.target = x →
      g.hasEdge e → g'.hasEdge e) : g'.CoveredBy x y := by
  cases h with
  | instanceSide he => exact .instanceSide (hedge _ (.inl ⟨rfl, rfl⟩) he)
  | staticSide he => exact .staticSide (hedge _ (.inr ⟨rfl, rfl⟩) he)
  | signature hk he => exact .signature (hkind.trans hk) (hedge _ (.inr ⟨rfl, rfl⟩) he)
  | owner hk hsig he => exact .owner (hkind.trans hk) hsig (hedge _ (.inr ⟨rfl, rfl⟩) he)

/-- Only symbols of the graph cover another one. -/
theorem lt_size_of_mem_coveredBy {g : SymbolGraph} (h : g.Mirrored) {x y : SymbolId}
    (hy : y ∈ g.coveredBy x) : y < g.size := by
  have hsource : ∀ {z kind}, g.firstSource x kind = some z → z < g.size := fun hz =>
    (h.lt_size (h.mem_sources_iff.mp (List.mem_of_head? hz))).1
  have htarget : ∀ {z kind}, g.firstTarget x kind = some z → z < g.size := fun hz =>
    (h.lt_size (h.mem_targets_iff.mp (List.mem_of_head? hz))).2
  have hcontainer : ∀ {z}, g.container? x = some z → z < g.size := fun hz =>
    ((isAround_of_container? h hz).lt_size h).1
  unfold coveredBy at hy
  split at hy
  · exact hsource (Option.mem_toList.mp hy)
  · exact htarget (Option.mem_toList.mp hy)
  · exact hcontainer (Option.mem_toList.mp hy)
  · exact hcontainer (Option.mem_toList.mp hy)
  · exact absurd hy List.not_mem_nil

end SymbolGraph

/-- What covers a symbol that stands somewhere is what its edges say. -/
theorem Binding.Charted.mem_coveredBy {c : Chart} {b : Binding} (h : Charted c b)
    (hs : b.graph.Sound) {x y : SymbolId} (hx : (c.place x).isSome) (hcov : b.graph.CoveredBy x y) :
    y ∈ b.graph.coveredBy x := by
  have hjoins : ∀ {e : Edge}, b.graph.hasEdge e → e.kind.isSole →
      e.source = x ∨ e.target = x → c.Joins e := by
    rintro e he hk (rfl | rfl)
    · exact (h.joined (EdgeKind.isStructural_of_isSole hk) (.inl hx)).mp he
    · exact (h.joined (EdgeKind.isStructural_of_isSole hk) (.inr hx)).mp he
  unfold SymbolGraph.coveredBy
  cases hcov with
  | instanceSide he =>
      rw [(hs.isSide he).1]
      simp only [SymbolGraph.instanceType?, firstTarget, hs.sides.targets_eq hs.toMirrored he]
      exact List.mem_singleton_self y
  | staticSide he =>
      rw [(hs.isSide he).2.1]
      simp only [h.classOfInstance?_eq (hjoins he rfl (.inr rfl))]
      exact List.mem_singleton_self y
  | signature hk he =>
      rw [hk]
      simp only [h.container?_eq (.inr rfl) (hjoins he rfl (.inr rfl))]
      exact List.mem_singleton_self y
  | owner hk hsig he =>
      rw [hk]
      simp only [h.container?_eq (.inl hsig)
        (hjoins he (EdgeKind.isSole_of_isSignature hsig) (.inr rfl))]
      exact List.mem_singleton_self y

/-! ### What dies -/

namespace Workspace

variable {c : Chart} {w : Workspace} {u : CompilationUnit} {x y : SymbolId}

/-- A symbol dies with its last declaration, and a synthesized type with what it is built over. -/
inductive Dies (w : Workspace) (unit : UnitId) : SymbolId → Prop where
  | orphan {x : SymbolId} (hneeds : w.graph.IsDeclarable x) (hdecl : w.graph.declarations x ≠ [])
      (hall : ∀ d ∈ w.graph.declarations x, d.unit = unit) : Dies w unit x
  | over {x y : SymbolId} {kind : EdgeKind} (hx : w.graph.isSynthesized x)
      (hkind : kind ≠ .containedBy) (he : w.graph.hasEdge ⟨x, y, kind⟩) (hy : Dies w unit y) :
      Dies w unit x

/-- The removal finds exactly what dies. By induction on the walk, and on why the symbol dies. -/
theorem Sound.mem_dyingWith_iff (h : w.Sound) (u : CompilationUnit) :
    x ∈ w.dyingWith u ↔ w.Dies u.id x := by
  have hforget := (h.graph.forgetUnit u.id).toMirrored
  constructor
  · intro hx
    obtain ⟨r, hr, hwalk⟩ := Walk.mem_reach_iff.mp hx
    obtain ⟨hneeds, hdecl, hall⟩ := mem_orphans_iff.mp hr
    have hdies : w.Dies u.id r := .orphan hneeds hdecl hall
    clear hx hr hneeds hdecl hall
    generalize (w.graph.forgetUnit u.id).size = steps at hwalk
    induction hwalk with
    | here => exact hdies
    | step hb _ ih =>
        obtain ⟨hdep, hsyn⟩ := List.mem_filter.mp hb
        obtain ⟨kind, hkind, he⟩ := (mem_dependents_iff hforget).mp hdep
        rw [isSynthesized_forgetUnit] at hsyn
        exact ih (.over hsyn hkind ((hasEdge_forgetUnit _ _ _).mp he) hdies)
  · intro hx
    induction hx with
    | @orphan x hneeds hdecl hall =>
        exact Walk.mem_reach_iff.mpr ⟨x, mem_orphans_iff.mpr ⟨hneeds, hdecl, hall⟩, .here _ _⟩
    | «over» hsyn hkind he _ ih =>
        exact mem_dying_of_hasEdge hforget ih hkind ((hasEdge_forgetUnit _ _ _).mpr he)
          (by rwa [isSynthesized_forgetUnit])

/-! ### What is left -/

/-- What a removal leaves of a workspace if some symbols die with the unit. -/
structure Leaves (w : Workspace) (u : CompilationUnit) (dead : List SymbolId) (w' : Workspace) :
    Prop where
  /-- All other units stay as they are. -/
  units : w'.program.units = w.program.units.filter fun v => v.path != u.path
  size : w'.graph.size = w.graph.size
  /-- Symbols lose the declarations of the unit, and nothing else of what they are. -/
  label : ∀ x, w'.graph.label? x = (w.graph.label? x).map fun s =>
    { s with declarations := s.declarations.filter fun d => d.unit != u.id }
  buried : ∀ x ∈ dead, w'.graph.outgoing x = [] ∧ w'.graph.incoming x = []
  outgoing : ∀ x ∉ dead, w'.graph.outgoing x =
    (w.graph.outgoing x).filter fun e => e.target ∉ dead
  incoming : ∀ x ∉ dead, w'.graph.incoming x =
    (w.graph.incoming x).filter fun e => e.source ∉ dead
  /-- A survivor that lost a declaration or what it points at is given up, with all that covers it.
  -/
  stale : ∀ x ∉ dead, ¬w.graph.isSynthesized x →
    ((∃ d ∈ w.graph.declarations x, d.unit = u.id) ∨
      ∃ kind y, kind ≠ .containedBy ∧ w.graph.hasEdge ⟨x, y, kind⟩ ∧ y ∈ dead) →
    ∀ z, Relation.ReflTransGen w.graph.CoveredBy x z →
      z ∉ dead ∧ (w'.graph.isResolved z → w.graph.has z .wellKnown)

/-- A symbol survives exactly if some other unit contributes to its place. -/
theorem Surveyed.survives_iff (h : Surveyed c w) (hs : w.Sound) {q : Place}
    (hx : c.place x = some q) :
    x ∉ w.dyingWith u ↔ ∃ d, c.contributes d q ∧ d.unit ≠ u.id := by
  rw [h.not_mem_dyingWith_iff hs hx, Option.isSome_iff_exists]
  constructor
  · rintro ⟨r, hr⟩
    obtain ⟨hxr, hd⟩ := Chart.place_without.mp hr
    rwa [← Option.some.inj (hx.symm.trans hxr)] at hd
  · exact fun hd => ⟨q, Chart.place_without.mpr ⟨hx, hd⟩⟩

/-- What covers a survivor that stands somewhere survives too: a unit that contributes to a symbol
contributes to what covers it. -/
theorem Surveyed.coveredBy_survives (h : Surveyed c w) (hs : w.Sound) (hx : (c.place x).isSome)
    (hlive : x ∉ w.dyingWith u) (hcov : w.graph.CoveredBy x y) :
    (c.place y).isSome ∧ y ∉ w.dyingWith u := by
  obtain ⟨e, he, hk, hends⟩ := hcov.exists_edge
  have hj : c.Joins e := (h.charted.joined (EdgeKind.isStructural_of_isSole hk)
    (hends.imp (fun hends => by rwa [hends.1]) fun hends => by rwa [hends.2])).mp he
  obtain ⟨source, target, kind⟩ := e
  rcases hends with ⟨rfl, rfl, rfl⟩ | ⟨rfl, rfl⟩
  · obtain ⟨q, hq, hside⟩ := h.charted.place_of_joins_instanceType hj
    have hclass : q.kind? = some .classType := by
      rw [← h.charted.kind? hq]
      exact (hs.graph.isSide he).1
    obtain ⟨d, hd, hne⟩ := (h.survives_iff hs hq).mp hlive
    obtain ⟨i, hi⟩ := (h.contributes.mp hd).side hclass
    exact ⟨by simp [hside], (h.survives_iff hs hside).mpr ⟨_, h.contributes.mpr hi, hne⟩⟩
  · obtain ⟨q, -, hq, ho, -⟩ := h.charted.hung_of_joins hk hj
    obtain ⟨d, hd, hne⟩ := (h.survives_iff hs hq).mp hlive
    obtain htop | ⟨i, hi⟩ := (h.contributes.mp hd).owner
    · exact absurd htop (h.charted.ne_top ho)
    · exact ⟨by simp [ho], (h.survives_iff hs ho).mpr ⟨_, h.contributes.mpr hi, hne⟩⟩

/-- A symbol that is not synthesized and stands nowhere has no side, signature or owner. -/
theorem Surveyed.placed_of_coveredBy (h : Surveyed c w) (hsyn : ¬w.graph.isSynthesized x)
    (hcov : w.graph.CoveredBy x y) : (c.place x).isSome := by
  obtain ⟨e, he, hk, hends⟩ := hcov.exists_edge
  rcases h.anchored he (EdgeKind.isStructural_of_isSole hk) with hj | ⟨hs, ht⟩
  · rcases hends with ⟨rfl, -⟩ | ⟨-, rfl⟩
    · exact hj.placed.1
    · exact hj.placed.2
  · rcases hends with ⟨rfl, -⟩ | ⟨-, rfl⟩
    · exact absurd hs hsyn
    · exact absurd ht hsyn

/-- What stands somewhere is not synthesized. -/
theorem Surveyed.not_isSynthesized (h : Surveyed c w) (hs : w.Sound) (hx : (c.place x).isSome) :
    ¬w.graph.isSynthesized x := by
  obtain ⟨q, hq⟩ := Option.isSome_iff_exists.mp hx
  obtain ⟨d, hd⟩ := h.settled.backed hq
  have hdecl := hs.graph.declarable ((h.charted.declarations hq d).mpr hd)
  exact fun hsyn => hdecl.1 (isSynthesized_iff.mp hsyn).1

/-- The invalidation of a survivor gets to all that covers it, and all of that survives. By
induction on what covers it. -/
theorem Surveyed.reaches_coveredBy (h : Surveyed c w) (hs : w.Sound) (hu : u ∈ w.program.units)
    (hsyn : ¬w.graph.isSynthesized x) (hlive : x ∉ w.dyingWith u)
    (hcov : Relation.ReflTransGen w.graph.CoveredBy x y) :
    y ∈ Walk.reach (w.detach u).graph.coveredBy (w.detach u).graph.size [x] ∧
      y ∉ w.dyingWith u ∧ ¬w.graph.isSynthesized y := by
  have hs' := hs.detach hu
  have hafter := (h.detach hs hu).surveyed
  induction hcov with
  | refl =>
      exact ⟨Walk.mem_reach_iff.mpr ⟨x, List.mem_singleton_self x, .here _ _⟩, hlive, hsyn⟩
  | @tail y z _ hcov ih =>
      obtain ⟨hreach, hlive, hsyn⟩ := ih
      have hy := h.placed_of_coveredBy hsyn hcov
      obtain ⟨hz, hzlive⟩ := h.coveredBy_survives hs hy hlive hcov
      have hcov' : (w.detach u).graph.CoveredBy y z := by
        refine hcov.of_edges ?_ fun e hends he => (hasEdge_detach hs u e).mpr ⟨he, ?_⟩
        · rw [kind?_congr (label?_detach w u y), kind?_forgetUnit]
        · rcases hends with ⟨rfl, rfl⟩ | ⟨rfl, rfl⟩
          · exact ⟨hlive, hzlive⟩
          · exact ⟨hzlive, hlive⟩
      obtain ⟨q, hq⟩ := Option.isSome_iff_exists.mp hy
      have hplaced := (h.not_mem_dyingWith_iff hs hq).mp hlive
      refine ⟨Walk.reach_closed (fun a b hb => ?_) hreach
        (hafter.charted.mem_coveredBy hs'.graph hplaced hcov'), hzlive, h.not_isSynthesized hs hz⟩
      exact lt_size_of_mem_coveredBy hs'.graph.toMirrored hb

/-- What is invalidated directly when a unit goes. -/
theorem Sound.mem_staleWith (h : w.Sound) (hsyn : ¬w.graph.isSynthesized x)
    (hlive : x ∉ w.dyingWith u)
    (hlost : (∃ d ∈ w.graph.declarations x, d.unit = u.id) ∨
      ∃ kind y, kind ≠ .containedBy ∧ w.graph.hasEdge ⟨x, y, kind⟩ ∧ y ∈ w.dyingWith u) :
    x ∈ w.staleWith u := by
  refine List.mem_filter.mpr ⟨List.mem_append.mpr ?_, by simp [hlive]⟩
  refine hlost.imp mem_declaredIn_iff.mpr ?_
  rintro ⟨kind, y, hkind, he, hy⟩
  refine List.mem_flatMap.mpr ⟨y, hy, List.mem_append_right _ (List.mem_filter.mpr ⟨?_, ?_⟩)⟩
  · exact (mem_dependents_iff (h.graph.forgetUnit u.id).toMirrored).mpr
      ⟨kind, hkind, (hasEdge_forgetUnit _ _ _).mpr he⟩
  · simp [hsyn]

/-- The unit goes with what dies, and nothing else. -/
theorem Surveyed.leaves_detach (h : Surveyed c w) (hs : w.Sound) (hu : u ∈ w.program.units) :
    w.Leaves u (w.dyingWith u) (w.detach u) where
  units := rfl
  size := (size_eq_of_label? (label?_detach w u)).trans (size_forgetUnit _ _)
  label x := (label?_detach w u x).trans (label?_forgetUnit _ _ x)
  buried x hx := by
    rw [outgoing_detach hs, incoming_detach hs, List.filter_eq_nil_iff, List.filter_eq_nil_iff]
    constructor
    · intro e he
      obtain ⟨rfl, -⟩ := hs.graph.mem_outgoing_iff.mp he
      simp only [any_touches_iff.mpr (.inl hx), Bool.not_true, Bool.false_eq_true, not_false_iff]
    · intro e he
      obtain ⟨rfl, -⟩ := hs.graph.mem_incoming_iff.mp he
      simp only [any_touches_iff.mpr (.inr hx), Bool.not_true, Bool.false_eq_true, not_false_iff]
  outgoing x hx := by
    rw [outgoing_detach hs]
    refine List.filter_congr fun e he => ?_
    obtain ⟨rfl, -⟩ := hs.graph.mem_outgoing_iff.mp he
    rw [Bool.eq_iff_iff, Bool.not_eq_true', ← Bool.not_eq_true, any_touches_iff]
    simp [hx]
  incoming x hx := by
    rw [incoming_detach hs]
    refine List.filter_congr fun e he => ?_
    obtain ⟨rfl, -⟩ := hs.graph.mem_incoming_iff.mp he
    rw [Bool.eq_iff_iff, Bool.not_eq_true', ← Bool.not_eq_true, any_touches_iff]
    simp [hx]
  stale x hx hsyn hlost z hcov := by
    obtain ⟨hreach, hlive, -⟩ := h.reaches_coveredBy hs hu hsyn hx hcov
    refine ⟨hlive, fun hr => ?_⟩
    rw [graph_detach, coveredBy_invalidateAll, size_eq_of_label? (label?_invalidateAll _ _)] at hreach
    rw [graph_detach] at hr
    have hwk := (isResolved_invalidateAll.mp hr).2 x (hs.mem_staleWith hsyn hx hlost) hreach
    rwa [has_congr (label?_foldl_unlinkAll _ _ z), has_forgetUnit] at hwk

/-- Removing a unit keeps exactly the graph of the survivors. Dead symbols have no edges, all others
keep their edges to each other in order and their declarations in other units. What is resolved
through a dead symbol or lost a declaration is given up with all that covers it. -/
theorem removeUnit_leaves_survivors (h : w.Reachable) {path : String}
    (hpath : path ∈ w.program.paths) : ∃ u ∈ w.program.units, u.path = path ∧
      ∃ dead w', (Request.removeUnit path).run w = .ok .done w' ∧
        (∀ x, x ∈ dead ↔ w.Dies u.id x) ∧ w.Leaves u dead w' := by
  obtain ⟨c, hc⟩ := h.exists_surveyed
  obtain ⟨u, hfind⟩ : ∃ u, w.program.unit? path = some u := by
    obtain ⟨v, hv, rfl⟩ := List.mem_map.mp hpath
    exact Option.isSome_iff_exists.mp (List.find?_isSome.mpr ⟨v, hv, beq_self_eq_true _⟩)
  have hu : u ∈ w.program.units := List.mem_of_find?_eq_some hfind
  have hpath : u.path = path := by simpa using List.find?_some hfind
  exact ⟨u, hu, hpath, w.dyingWith u, w.detach u, run_removeUnit hfind,
    fun x => h.sound.mem_dyingWith_iff u, hc.leaves_detach h.sound hu⟩

/-- One document has the class `C`, and another one a function with a parameter of type `C[]`. Both
are resolved. -/
def classUsedElsewhere : Workspace := (ofOptions {}).after
  [.setStatements "class.ts" do return [← Build.classDecl "C" ∅ [] [] []],
    .setStatements "use.ts" do
      let p ← Build.parameter "p" ∅ (← Build.arrayType (← Build.typeReference "C"))
      return [← Build.function "f" ∅ [p] none none],
    .demand (.symbol 10)]

theorem removeUnit_leaves_survivors_classUsedElsewhere :
    classUsedElsewhere.Reachable ∧ "class.ts" ∈ classUsedElsewhere.program.paths ∧
      ∃ u ∈ classUsedElsewhere.program.units, u.path = "class.ts" ∧
        ∃ dead w', (Request.removeUnit "class.ts").run classUsedElsewhere = .ok .done w' ∧
          (∀ x, x ∈ dead ↔ classUsedElsewhere.Dies u.id x) ∧ classUsedElsewhere.Leaves u dead w' :=
  have hr : classUsedElsewhere.Reachable := ⟨_, _, rfl⟩
  have hpath : "class.ts" ∈ classUsedElsewhere.program.paths := by decide +kernel
  ⟨hr, hpath, removeUnit_leaves_survivors hr hpath⟩

/-- The class goes with its instance side and with the array type over it. What is resolved through
them is given up: the parameter, its signature and the function. -/
example : ((classUsedElsewhere.program.unit? "class.ts").map fun u =>
    (classUsedElsewhere.dyingWith u,
      [10, 11, 12].map (classUsedElsewhere.detach u).graph.isResolved)) =
    some ([8, 9, 13], [false, false, false]) := by
  decide +kernel

end Workspace

end NameBinding
