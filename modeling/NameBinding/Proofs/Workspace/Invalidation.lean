import NameBinding.Proofs.Workspace.Adding

/-! # What a new unit invalidates

An answer was found by name, so it may change when a unit declares the name too. What was resolved to
such a symbol is given up, directly or through synthesized types, and with it what covers it. Nothing
else is: a symbol that only gets a declaration stays resolved. -/

namespace NameBinding

open SymbolGraph

/-- Edges from a symbol to what it was resolved to, or from an array type to its element type. -/
def EdgeKind.isReference (kind : EdgeKind) : Bool := kind.isResolution || kind == .arrayOf

namespace SymbolGraph

variable {g g' : SymbolGraph} {roots : List SymbolId} {s t x y z : SymbolId}

/-- The second symbol is a member, a signature or a parameter of the first one, or contained in it. -/
def HasPart (g : SymbolGraph) (x y : SymbolId) : Prop :=
  g.IsAround x y ∨ ∃ kind : EdgeKind, kind.isMembership ∧ g.hasEdge ⟨x, y, kind⟩

/-- A way from a synthesized symbol through the parts of synthesized types. It ends with a
reference. -/
inductive LeadsTo (g : SymbolGraph) : SymbolId → SymbolId → Prop where
  | last {x z : SymbolId} {kind : EdgeKind} (hx : g.isSynthesized x) (hk : kind.isReference)
      (he : g.hasEdge ⟨x, z, kind⟩) : LeadsTo g x z
  | reference {x y z : SymbolId} {kind : EdgeKind} (hx : g.isSynthesized x)
      (hk : kind.isReference) (he : g.hasEdge ⟨x, y, kind⟩) (hy : LeadsTo g y z) : LeadsTo g x z
  | part {x y z : SymbolId} (hx : g.isSynthesized x) (hp : g.HasPart x y) (hy : LeadsTo g y z) :
      LeadsTo g x z

/-- A symbol was resolved to another one, directly or by way of synthesized types. -/
def ResolvedTo (g : SymbolGraph) (s z : SymbolId) : Prop :=
  ∃ (kind : EdgeKind) (x : SymbolId), kind.isReference ∧ g.hasEdge ⟨s, x, kind⟩ ∧
    (x = z ∨ g.LeadsTo x z)

theorem LeadsTo.isSynthesized (h : g.LeadsTo x z) : g.isSynthesized x := by
  cases h <;> assumption

theorem LeadsTo.mono (h : g.LeadsTo x z) (hedge : ∀ {e : Edge}, g.hasEdge e → g'.hasEdge e)
    (hsyn : ∀ {x}, g.isSynthesized x → g'.isSynthesized x) : g'.LeadsTo x z := by
  induction h with
  | last hx hk he => exact .last (hsyn hx) hk (hedge he)
  | reference hx hk he _ ih => exact .reference (hsyn hx) hk (hedge he) ih
  | part hx hp _ ih =>
      refine .part (hsyn hx) (hp.imp (fun ha => ?_) fun ⟨kind, hk, he⟩ => ⟨kind, hk, hedge he⟩) ih
      exact ha.imp hedge fun ⟨kind, hk, he⟩ => ⟨kind, hk, hedge he⟩

theorem ResolvedTo.mono (h : g.ResolvedTo s z) (hedge : ∀ {e : Edge}, g.hasEdge e → g'.hasEdge e)
    (hsyn : ∀ {x}, g.isSynthesized x → g'.isSynthesized x) : g'.ResolvedTo s z := by
  obtain ⟨kind, x, hk, he, hx⟩ := h
  exact ⟨kind, x, hk, hedge he, hx.imp_right fun hx => hx.mono hedge hsyn⟩

theorem LeadsTo.lt_size (h : g.LeadsTo x z) (hg : g.Mirrored) : z < g.size := by
  induction h with
  | last _ _ he => exact (hg.lt_size he).2
  | reference _ _ _ _ ih => exact ih
  | part _ _ _ ih => exact ih

theorem ResolvedTo.lt_size (h : g.ResolvedTo s z) (hg : g.Mirrored) : z < g.size := by
  obtain ⟨kind, x, -, he, rfl | hx⟩ := h
  · exact (hg.lt_size he).2
  · exact hx.lt_size hg

/-! ### The search finds what was resolved to its roots -/

theorem mem_resolvedThrough_iff (h : g.Mirrored) :
    s ∈ g.resolvedThrough x ↔ ∃ kind : EdgeKind, kind.isReference ∧ g.hasEdge ⟨s, x, kind⟩ := by
  simp only [resolvedThrough, List.mem_map, List.mem_filter, h.mem_incoming_iff]
  constructor
  · rintro ⟨⟨source, target, kind⟩, ⟨⟨rfl, he⟩, hk⟩, rfl⟩
    exact ⟨kind, hk, he⟩
  · rintro ⟨kind, hk, he⟩
    exact ⟨⟨s, x, kind⟩, ⟨⟨rfl, he⟩, hk⟩, rfl⟩

theorem isAround_of_hasPart (h : g.WellFormed) (hp : g.HasPart x y) : g.IsAround x y := by
  rcases hp with ha | ⟨kind, hk, he⟩
  · exact ha
  · exact .inl (h.paired _ hk he)

theorem mem_owners_iff (h : g.Mirrored) :
    x ∈ g.owners y ↔ Relation.ReflTransGen (fun a b => g.container? a = some b) y x := by
  have hnext : ∀ a, ∀ b ∈ (g.container? a).toList, b < g.size := fun a b hb =>
    ((isAround_of_container? h (Option.mem_toList.mp hb)).lt_size h).1
  rw [owners, Walk.mem_reach_iff_reflTransGen hnext]
  simp only [List.mem_singleton, exists_eq_left, Option.mem_toList]

theorem lt_size_of_isSynthesized (hx : g.isSynthesized x) : x < g.size := by
  have hsyn := isSynthesized_iff.mp hx
  by_contra hge
  simp [has, (get?_eq_none_iff g x).mpr (Nat.not_lt.mp hge)] at hsyn

theorem lt_size_of_mem_synthesizedHolders (hy : y ∈ g.synthesizedHolders x) : y < g.size :=
  lt_size_of_isSynthesized (List.mem_filter.mp hy).2

theorem mem_allResolvedThrough_iff_reflTransGen :
    s ∈ g.allResolvedThrough roots ↔ ∃ r ∈ roots, ∃ x,
      Relation.ReflTransGen (fun a b => b ∈ g.synthesizedHolders a) r x ∧
        s ∈ g.resolvedThrough x := by
  have hnext : ∀ a, ∀ b ∈ g.synthesizedHolders a, b < g.size :=
    fun a b => lt_size_of_mem_synthesizedHolders
  rw [allResolvedThrough, List.mem_eraseDups, List.mem_flatMap]
  constructor
  · rintro ⟨x, hx, hs⟩
    obtain ⟨r, hr, hrx⟩ := (Walk.mem_reach_iff_reflTransGen hnext).mp hx
    exact ⟨r, hr, x, hrx, hs⟩
  · rintro ⟨r, hr, x, hrx, hs⟩
    exact ⟨x, (Walk.mem_reach_iff_reflTransGen hnext).mpr ⟨r, hr, hrx⟩, hs⟩

/-- Synthesized types are around synthesized symbols only, and the other way round. -/
def Separated (g : SymbolGraph) : Prop :=
  ∀ {x y}, g.IsAround x y → (g.isSynthesized x ↔ g.isSynthesized y)

/-- From the root backwards, every symbol on the way is around one that was resolved to a symbol
that the search comes to. By induction on the way. -/
theorem LeadsTo.exists_owner (h : g.WellFormed) (hc : g.Composed) (hx : g.LeadsTo x z) :
    ∃ p y, Relation.ReflTransGen (fun a b => b ∈ g.synthesizedHolders a) z p ∧
      y ∈ g.resolvedThrough p ∧ x ∈ g.owners y := by
  have hheld : ∀ {x p y}, g.isSynthesized x → y ∈ g.resolvedThrough p → x ∈ g.owners y →
      x ∈ g.synthesizedHolders p := fun hx hy ho =>
    List.mem_filter.mpr ⟨List.mem_flatMap.mpr ⟨_, hy, ho⟩, hx⟩
  induction hx with
  | last hx hk he =>
      exact ⟨_, _, .refl, (mem_resolvedThrough_iff h.toMirrored).mpr ⟨_, hk, he⟩,
        (mem_owners_iff h.toMirrored).mpr .refl⟩
  | reference hx hk he hy ih =>
      obtain ⟨p, y, hp, hyp, ho⟩ := ih
      exact ⟨_, _, hp.tail (hheld hy.isSynthesized hyp ho),
        (mem_resolvedThrough_iff h.toMirrored).mpr ⟨_, hk, he⟩,
        (mem_owners_iff h.toMirrored).mpr .refl⟩
  | part hx hpart hy ih =>
      obtain ⟨p, y, hp, hyp, ho⟩ := ih
      have ha := isAround_of_hasPart h hpart
      have hcontainer := hc.container?_eq h.toMirrored (isSynthesized_iff.mp hy.isSynthesized).1 ha
      exact ⟨p, y, hp, hyp, (mem_owners_iff h.toMirrored).mpr
        (((mem_owners_iff h.toMirrored).mp ho).tail hcontainer)⟩

/-- What holds a symbol that leads somewhere leads there too. -/
theorem LeadsTo.of_owner (h : g.Mirrored) (hsep : g.Separated)
    (hyx : Relation.ReflTransGen (fun a b => g.container? a = some b) y x)
    (hy : g.LeadsTo y z) : g.LeadsTo x z := by
  induction hyx with
  | refl => exact hy
  | tail _ hstep ih =>
      have ha := isAround_of_container? h hstep
      exact .part ((hsep ha).mpr ih.isSynthesized) (.inl ha) ih

/-- The search comes to its roots and to synthesized types that lead there. -/
theorem eq_or_leadsTo_of_reached (h : g.Mirrored) (hsep : g.Separated)
    (hx : Relation.ReflTransGen (fun a b => b ∈ g.synthesizedHolders a) z x) :
    x = z ∨ g.LeadsTo x z := by
  induction hx with
  | refl => exact .inl rfl
  | @tail p x _ hstep ih =>
      right
      obtain ⟨hmem, hsyn⟩ := List.mem_filter.mp hstep
      obtain ⟨y, hy, ho⟩ := List.mem_flatMap.mp hmem
      obtain ⟨kind, hk, he⟩ := (mem_resolvedThrough_iff h).mp hy
      have hchain := (mem_owners_iff h).mp ho
      have hysyn : g.isSynthesized y := by
        clear hy he hmem ih ho
        induction hchain using Relation.ReflTransGen.head_induction_on with
        | refl => exact hsyn
        | head hstep _ ih => exact (hsep (isAround_of_container? h hstep)).mp ih
      refine LeadsTo.of_owner h hsep hchain ?_
      rcases ih with rfl | ih
      · exact .last hysyn hk he
      · exact .reference hysyn hk he ih

/-- The search finds exactly what was resolved to its roots. -/
theorem mem_allResolvedThrough_iff (h : g.WellFormed) (hc : g.Composed) (hsep : g.Separated) :
    s ∈ g.allResolvedThrough roots ↔ ∃ z ∈ roots, g.ResolvedTo s z := by
  rw [mem_allResolvedThrough_iff_reflTransGen]
  constructor
  · rintro ⟨z, hz, x, hzx, hs⟩
    obtain ⟨kind, hk, he⟩ := (mem_resolvedThrough_iff h.toMirrored).mp hs
    exact ⟨z, hz, kind, x, hk, he, eq_or_leadsTo_of_reached h.toMirrored hsep hzx⟩
  · rintro ⟨z, hz, kind, x, hk, he, rfl | hx⟩
    · exact ⟨x, hz, x, .refl, (mem_resolvedThrough_iff h.toMirrored).mpr ⟨kind, hk, he⟩⟩
    · obtain ⟨p, y, hp, hy, ho⟩ := hx.exists_owner h hc
      refine ⟨z, hz, x, hp.tail (List.mem_filter.mpr ⟨?_, hx.isSynthesized⟩),
        (mem_resolvedThrough_iff h.toMirrored).mpr ⟨kind, hk, he⟩⟩
      exact List.mem_flatMap.mpr ⟨y, hy, ho⟩

/-- The second symbol is reached from the first one by going from symbols to what covers them. -/
def Covers (g : SymbolGraph) (s t : SymbolId) : Prop :=
  Relation.ReflTransGen (fun a b => b ∈ g.coveredBy a) s t

theorem isResolved_invalidateAll_iff (h : g.Mirrored) {ids : List SymbolId} :
    (g.invalidateAll ids).isResolved x ↔
      g.isResolved x ∧ ∀ s ∈ ids, g.Covers s x → g.has x .wellKnown := by
  have hnext : ∀ a, ∀ b ∈ g.coveredBy a, b < g.size := fun a b => lt_size_of_mem_coveredBy h
  rw [isResolved_invalidateAll]
  simp only [Walk.mem_reach_iff_reflTransGen hnext, List.mem_singleton, exists_eq_left]
  rfl

/-- The names of the second symbol and of some symbol with a declaration in the unit are the same. -/
def SharesName (g : SymbolGraph) (unit : UnitId) (z : SymbolId) : Prop :=
  ∃ y d, d ∈ g.declarations y ∧ d.unit = unit ∧ g.name y = g.name z

theorem mem_sharingNames_iff {unit : UnitId} :
    z ∈ g.sharingNames unit ↔ z < g.size ∧ g.SharesName unit z := by
  simp only [sharingNames, ids, List.mem_filter, List.mem_range, List.contains_iff_mem,
    List.mem_eraseDups, List.mem_map, mem_declaredIn_iff, SharesName]
  refine and_congr_right fun _ => exists_congr fun y => ?_
  constructor
  · rintro ⟨⟨d, hd, hunit⟩, hname⟩
    exact ⟨d, hd, hunit, hname⟩
  · rintro ⟨d, hd, hunit, hname⟩
    exact ⟨⟨d, hd, hunit⟩, hname⟩

/-- A new unit may give another meaning to a name that led to the symbol. -/
def IsAffected (g : SymbolGraph) (unit : UnitId) (z : SymbolId) : Prop :=
  z = WellKnown.error ∨ g.SharesName unit z

/-! ### Invalidation changes nothing of this -/

theorem resolvedTo_invalidateAll (g : SymbolGraph) (ids : List SymbolId) :
    (g.invalidateAll ids).ResolvedTo s z ↔ g.ResolvedTo s z := by
  have hedge : ∀ {e : Edge}, (g.invalidateAll ids).hasEdge e ↔ g.hasEdge e := by
    intro e
    rw [hasEdge_iff, hasEdge_iff, outgoing_invalidateAll]
  have hsyn : ∀ {x}, (g.invalidateAll ids).isSynthesized x = g.isSynthesized x :=
    isSynthesized_congr (label?_invalidateAll g ids _)
  exact ⟨fun h => h.mono hedge.mp fun hx => hsyn ▸ hx, fun h => h.mono hedge.mpr fun hx => hsyn ▸ hx⟩

theorem isAffected_invalidateAll (g : SymbolGraph) (ids : List SymbolId) (unit : UnitId) :
    (g.invalidateAll ids).IsAffected unit z ↔ g.IsAffected unit z := by
  simp only [IsAffected, SharesName, declarations_invalidateAll,
    name_congr (label?_invalidateAll g ids _)]

theorem covers_invalidateAll (g : SymbolGraph) (ids : List SymbolId) :
    (g.invalidateAll ids).Covers s t ↔ g.Covers s t := by
  rw [Covers, Covers, coveredBy_invalidateAll]

/-- The roots of the search are the affected symbols. -/
theorem mem_allResolvedThrough_names_iff (h : g.WellFormed) (hc : g.Composed) (hsep : g.Separated)
    (unit : UnitId) : s ∈ g.allResolvedThrough (g.sharingNames unit ++ [WellKnown.error]) ↔
      ∃ z, g.ResolvedTo s z ∧ g.IsAffected unit z := by
  rw [mem_allResolvedThrough_iff h hc hsep]
  constructor
  · rintro ⟨z, hz, hsz⟩
    refine ⟨z, hsz, ?_⟩
    rcases List.mem_append.mp hz with hz | hz
    · exact .inr (mem_sharingNames_iff.mp hz).2
    · exact .inl (List.mem_singleton.mp hz)
  · rintro ⟨z, hsz, rfl | hz⟩
    · exact ⟨_, List.mem_append_right _ (List.mem_singleton_self _), hsz⟩
    · exact ⟨z, List.mem_append_left _ (mem_sharingNames_iff.mpr
        ⟨hsz.lt_size h.toMirrored, hz⟩), hsz⟩

end SymbolGraph

namespace Workspace

variable {c : Chart} {w w₁ : Workspace} {s t x y z : SymbolId} {path : String} {tree : DocTree}
  {root : NodeRef} {answer : Request.Answer}

/-! ### Whatever was requested -/

theorem composed_ofOptions (options : Options) : (ofOptions options).graph.Composed where
  sole _ hx _ := by
    rcases hx with he | ⟨kind, -, he⟩
    · exact absurd he (not_hasEdge_ofOptions options _)
    · exact absurd he (not_hasEdge_ofOptions options _)
  array he := absurd he (not_hasEdge_ofOptions options _)

/-- What is there from the start is not synthesized. -/
theorem Surveyed.isSynthesized_of_has (h : Surveyed c w) (hx : w.graph.has x .synthesized) :
    w.graph.isSynthesized x := by
  refine isSynthesized_iff.mpr ⟨hx, fun hwk => ?_⟩
  have hlt := h.later hwk
  have hnone : ∀ x < WellKnown.count, ¬WellKnown.graph.has x .synthesized := by decide
  rw [has_congr (h.initial hlt).1] at hx
  exact hnone x hlt hx

/-- Edits make no parts of synthesized types. -/
theorem Leads.composed {c' : Chart} {w' : Workspace}
    {documents : List (String × DocTree × NodeRef)} (h : Leads c w documents c' w')
    (hc : w.graph.Composed) : w'.graph.Composed := by
  refine hc.of_edges (fun {x y} hy ha => ?_) fun {e} he hk => ?_
  · have hsyn := h.surveyed.isSynthesized_of_has hy
    rcases ha with he | ⟨kind, hk, he⟩
    · obtain ⟨hold, hsame⟩ := h.kept he (.inr (.inl hsyn))
      exact ⟨((hsame y (.inl rfl)).2.1 _).symm.trans hy, .inl hold⟩
    · obtain ⟨hold, hsame⟩ := h.kept he (.inr (.inr hsyn))
      exact ⟨((hsame y (.inr rfl)).2.1 _).symm.trans hy, .inr ⟨kind, hk, hold⟩⟩
  · obtain ⟨hold, hsame⟩ := h.kept he (.inl (by simp [hk, EdgeKind.isStructural]))
    exact ⟨hold, (hsame _ (.inl rfl)).1⟩

/-- Whatever was requested, nothing is a part of two synthesized types. -/
theorem Reachable.composed (h : Reachable w) : w.graph.Composed :=
  h.graph_induction composed_ofOptions (fun hl hc => hl.composed hc)
    fun hs hg hc => hg.composed hs.charted.wellFormed hc

/-- What stands around a declared symbol is declared, and so is what stands in it. -/
theorem Surveyed.separated (h : Surveyed c w) (hs : w.Sound) : w.graph.Separated := by
  have hedge : ∀ {e : Edge}, w.graph.hasEdge e → e.kind.isStructural →
      (w.graph.isSynthesized e.source ↔ w.graph.isSynthesized e.target) := by
    intro e he hk
    rcases h.anchored he hk with hj | ⟨hsource, htarget⟩
    · simp only [h.not_isSynthesized hs hj.placed.1, h.not_isSynthesized hs hj.placed.2]
    · simp only [hsource, htarget]
  rintro x y (he | ⟨kind, hk, he⟩)
  · exact (hedge he (by simp [EdgeKind.isStructural, EdgeKind.isResolution])).symm
  · exact hedge he (EdgeKind.isStructural_of_isSole hk)

/-- What covers a declared symbol is declared, and the invalidation gets there. -/
theorem Surveyed.covers_of_coveredBy (h : Surveyed c w) (hs : w.Sound)
    (hx : w.graph.declarations x ≠ []) (hcov : Relation.ReflTransGen w.graph.CoveredBy x y) :
    w.graph.declarations y ≠ [] ∧ w.graph.Covers x y := by
  induction hcov with
  | refl => exact ⟨hx, .refl⟩
  | @tail _ y _ hstep ih =>
      obtain ⟨q, hq⟩ := h.exists_place ih.1
      obtain ⟨e, he, hk, hends⟩ := hstep.exists_edge
      have hj := (h.charted.joined (EdgeKind.isStructural_of_isSole hk)
        (hends.imp (fun hends => by simp [hends.1, hq]) fun hends => by simp [hends.2, hq])).mp he
      have hplaced : ∃ r, c.place y = some r := by
        rcases hends with ⟨-, rfl, -⟩ | ⟨rfl, -⟩
        · exact Option.isSome_iff_exists.mp hj.placed.2
        · exact Option.isSome_iff_exists.mp hj.placed.1
      obtain ⟨r, hr⟩ := hplaced
      exact ⟨h.declarations_ne_nil hr,
        ih.2.tail (h.charted.mem_coveredBy hs.graph (by simp [hq]) hstep)⟩

/-! ### After a unit came -/

/-- Exactly the answers are given up that cover one which was found through an affected name. -/
theorem Reachable.isResolved_setUnit_iff (h : w.Reachable) (hpath : path ∉ w.program.paths)
    (hrun : (Request.setUnit path tree root).run w = .ok answer w₁) :
    ∃ u, w₁.program.unit? path = some u ∧ ∀ {t}, w₁.graph.declarations t ≠ [] →
      (w₁.graph.isResolved t ↔ w.graph.isResolved t ∧ ∀ s z, w₁.graph.ResolvedTo s z →
        w₁.graph.IsAffected u.id z → ¬w₁.graph.Covers s t) := by
  obtain ⟨u, hupath, hid, hu⟩ := h.exists_attached hpath hrun
  refine ⟨u, hupath ▸ hu.unit, fun {t} ht => ?_⟩
  obtain ⟨c, hc⟩ := h.exists_surveyed
  obtain ⟨b, hb, rfl⟩ := exists_bind_of_run_setUnit hpath hrun
  obtain ⟨c', hl⟩ := hc.leads_bound h.sound hpath hb
  have hsound := h.sound.sound_bound hpath hb
  have hfound := fun s => mem_allResolvedThrough_names_iff (s := s) hsound.graph.toWellFormed
    (hl.composed h.composed) (hl.surveyed.separated hsound) u.id
  have hplain : ¬(w.bound path tree root b).graph.has t .wellKnown := by
    obtain ⟨d, hd⟩ := List.exists_mem_of_ne_nil _ ht
    exact (hsound.graph.declarable (declarations_invalidateAll _ _ t ▸ hd)).2
  simp only [Workspace.afterBinding, ← hid, resolvedTo_invalidateAll, isAffected_invalidateAll,
    covers_invalidateAll, isResolved_invalidateAll_iff hsound.graph.toMirrored, hfound,
    hplain, Bool.false_eq_true, imp_false]
  refine and_congr ?_ ?_
  · rw [show (w.bound path tree root b).graph.isResolved t = w.graph.isResolved t from
      (h.sound.appended hpath hb).resolved t]
  · constructor
    · exact fun hall s z hsz hz => hall s ⟨z, hsz, hz⟩
    · rintro hall s ⟨z, hsz, hz⟩
      exact hall s z hsz hz

/-- A new unit invalidates every answer that was found through a name which it declares too, or not
found at all, by way of any synthesized types; and with the answer all that covers its symbol. -/
theorem setUnit_invalidates (h : w.Reachable) (hpath : path ∉ w.program.paths)
    (hrun : (Request.setUnit path tree root).run w = .ok answer w₁) :
    ∃ u, w₁.program.unit? path = some u ∧ ∀ s z, w₁.graph.declarations s ≠ [] →
      w₁.graph.ResolvedTo s z → w₁.graph.IsAffected u.id z →
      ∀ t, Relation.ReflTransGen w₁.graph.CoveredBy s t → ¬w₁.graph.isResolved t := by
  obtain ⟨u, hu, hiff⟩ := h.isResolved_setUnit_iff hpath hrun
  have hreach := h.apply (.setUnit path tree root)
  rw [Request.apply, hrun] at hreach
  obtain ⟨c, hc⟩ := hreach.exists_surveyed
  refine ⟨u, hu, fun s z hs hsz hz t hst hres => ?_⟩
  obtain ⟨ht, hcovers⟩ := hc.covers_of_coveredBy hreach.sound hs hst
  exact ((hiff ht).mp hres).2 s z hsz hz hcovers

/-- A function with a parameter whose type is an array of an interface. All is resolved. -/
def arrayParameter : Workspace := (ofOptions {}).after
  [.setStatements "one.ts" do
      let i ← Build.interfaceDecl "I" ∅ [] []
      let p ← Build.parameter "p" ∅ (← Build.arrayType (← Build.typeReference "I"))
      return [i, ← Build.function "f" ∅ [p] none none],
    .demand (.symbol 9)]

/-- The name of the interface is declared once more, in a module. -/
def interfaceInModule : Request := .setStatements "two.ts" do
  return [← Build.moduleDecl "M" ∅ [← Build.interfaceDecl "I" ∅ [] []]]

/-- The parameter, its signature and the function are given up. -/
theorem setUnit_invalidates_arrayParameter :
    arrayParameter.Reachable ∧ "two.ts" ∉ arrayParameter.program.paths ∧
      ∃ tree root answer w₁ u, interfaceInModule = .setUnit "two.ts" tree root ∧
        (Request.setUnit "two.ts" tree root).run arrayParameter = .ok answer w₁ ∧
        w₁.program.unit? "two.ts" = some u ∧ w₁.graph.declarations 11 ≠ [] ∧
        w₁.graph.ResolvedTo 11 8 ∧ w₁.graph.IsAffected u.id 8 ∧
        Relation.ReflTransGen w₁.graph.CoveredBy 11 9 ∧ ¬w₁.graph.isResolved 9 := by
  have hreach : arrayParameter.Reachable := ⟨_, _, rfl⟩
  have hpath : "two.ts" ∉ arrayParameter.program.paths := by decide +kernel
  obtain ⟨tree, root, hrequest⟩ : ∃ tree root, interfaceInModule = .setUnit "two.ts" tree root :=
    ⟨_, _, rfl⟩
  have hsucceeds : interfaceInModule.succeeds arrayParameter := by decide +kernel
  have hdecl : (interfaceInModule.apply arrayParameter).graph.declarations 11 ≠ [] := by
    decide +kernel
  have helement : (interfaceInModule.apply arrayParameter).graph.hasEdge ⟨12, 8, .arrayOf⟩ := by
    decide +kernel
  have hresolved : (interfaceInModule.apply arrayParameter).graph.ResolvedTo 11 8 :=
    ⟨.typedAs, 12, rfl, by decide +kernel, .inr (.last (by decide +kernel) rfl helement)⟩
  have hshares : (interfaceInModule.apply arrayParameter).graph.SharesName 1 8 :=
    ⟨14, ⟨1, 2⟩, by decide +kernel, rfl, by decide +kernel⟩
  have hid : ((interfaceInModule.apply arrayParameter).program.unit? "two.ts").map (·.id) =
      some 1 := by decide +kernel
  have hparameter : (interfaceInModule.apply arrayParameter).graph.CoveredBy 11 10 :=
    .signature (by decide +kernel) (by decide +kernel)
  have hcall : (interfaceInModule.apply arrayParameter).graph.hasEdge ⟨9, 10, .callSignature⟩ := by
    decide +kernel
  have hcovered : Relation.ReflTransGen
      (interfaceInModule.apply arrayParameter).graph.CoveredBy 11 9 :=
    .head hparameter (.single (.owner (by decide +kernel) rfl hcall))
  rw [hrequest] at hsucceeds hdecl hresolved hshares hid hcovered
  obtain ⟨answer, hrun⟩ := Request.exists_run_of_succeeds hsucceeds
  obtain ⟨u, hu, hinvalid⟩ := setUnit_invalidates hreach hpath hrun
  have haffected : u.id = 1 := by simpa [hu] using hid
  have hz := haffected ▸ hshares
  exact ⟨hreach, hpath, tree, root, answer, _, u, hrequest, hrun, hu, hdecl, hresolved, .inr hz,
    hcovered, hinvalid 11 8 hdecl hresolved (.inr hz) 9 hcovered⟩

/-! ### A symbol that gets a declaration -/

/-- A symbol stays resolved when a new unit adds a declaration to it, unless it covers an answer that
was found through an affected name. -/
theorem isResolved_of_merged_iff (h : w.Reachable) (hpath : path ∉ w.program.paths)
    (hrun : (Request.setUnit path tree root).run w = .ok answer w₁) :
    ∃ u, w₁.program.unit? path = some u ∧ ∀ x < w.graph.size,
      (∃ d ∈ w₁.graph.declarations x, d.unit = u.id) →
        (w₁.graph.isResolved x ↔ w.graph.isResolved x ∧ ∀ s z, w₁.graph.ResolvedTo s z →
          w₁.graph.IsAffected u.id z → ¬w₁.graph.Covers s x) := by
  obtain ⟨u, hu, hiff⟩ := h.isResolved_setUnit_iff hpath hrun
  refine ⟨u, hu, ?_⟩
  rintro x - ⟨d, hd, -⟩
  exact hiff (List.ne_nil_of_mem hd)

/-- An interface that is resolved. -/
def resolvedInterface : Workspace := (ofOptions {}).after
  [.setStatements "one.ts" do return [← Build.interfaceDecl "I" ∅ [] []], .demand (.symbol 8)]

/-- A second part of the interface. -/
def secondPart : Request := .setStatements "two.ts" do
  return [← Build.interfaceDecl "I" ∅ [] []]

theorem isResolved_of_merged_iff_resolvedInterface :
    resolvedInterface.Reachable ∧ "two.ts" ∉ resolvedInterface.program.paths ∧
      ∃ tree root answer w₁ u, secondPart = .setUnit "two.ts" tree root ∧
        (Request.setUnit "two.ts" tree root).run resolvedInterface = .ok answer w₁ ∧
        w₁.program.unit? "two.ts" = some u ∧ 8 < resolvedInterface.graph.size ∧
        (∃ d ∈ w₁.graph.declarations 8, d.unit = u.id) ∧
        (w₁.graph.isResolved 8 ↔ resolvedInterface.graph.isResolved 8 ∧
          ∀ s z, w₁.graph.ResolvedTo s z → w₁.graph.IsAffected u.id z → ¬w₁.graph.Covers s 8) := by
  have hreach : resolvedInterface.Reachable := ⟨_, _, rfl⟩
  have hpath : "two.ts" ∉ resolvedInterface.program.paths := by decide +kernel
  obtain ⟨tree, root, hrequest⟩ : ∃ tree root, secondPart = .setUnit "two.ts" tree root :=
    ⟨_, _, rfl⟩
  have hsucceeds : secondPart.succeeds resolvedInterface := by decide +kernel
  have hsize : 8 < resolvedInterface.graph.size := by decide +kernel
  have hmerged : ∃ d ∈ (secondPart.apply resolvedInterface).graph.declarations 8, d.unit = 1 := by
    decide +kernel
  have hid : ((secondPart.apply resolvedInterface).program.unit? "two.ts").map (·.id) = some 1 := by
    decide +kernel
  rw [hrequest] at hsucceeds hmerged hid
  obtain ⟨answer, hrun⟩ := Request.exists_run_of_succeeds hsucceeds
  obtain ⟨u, hu, hiff⟩ := isResolved_of_merged_iff hreach hpath hrun
  have hunit : u.id = 1 := by simpa [hu] using hid
  rw [← hunit] at hmerged
  exact ⟨hreach, hpath, tree, root, answer, _, u, hrequest, hrun, hu, hsize, hmerged,
    hiff 8 hsize hmerged⟩

/-- The interface stays marked, though nothing of its second part was looked at. -/
theorem not_unresolved_of_merged :
    ¬∀ (w w₁ : Workspace) (path : String) (tree : DocTree) (root : NodeRef)
      (answer : Request.Answer), w.Reachable → path ∉ w.program.paths →
      (Request.setUnit path tree root).run w = .ok answer w₁ → ∀ x < w.graph.size,
        (∃ d ∈ w₁.graph.declarations x, d ∉ w.graph.declarations x) →
          ¬w₁.graph.isResolved x := by
  intro hall
  obtain ⟨tree, root, hrequest⟩ : ∃ tree root, secondPart = .setUnit "two.ts" tree root :=
    ⟨_, _, rfl⟩
  have hsucceeds : secondPart.succeeds resolvedInterface := by decide +kernel
  have hmerged : ∃ d ∈ (secondPart.apply resolvedInterface).graph.declarations 8,
      d ∉ resolvedInterface.graph.declarations 8 := by decide +kernel
  have hresolved : (secondPart.apply resolvedInterface).graph.isResolved 8 := by decide +kernel
  rw [hrequest] at hsucceeds hmerged hresolved
  obtain ⟨answer, hrun⟩ := Request.exists_run_of_succeeds hsucceeds
  exact hall resolvedInterface _ "two.ts" tree root answer ⟨_, _, rfl⟩ (by decide +kernel) hrun 8
    (by decide +kernel) hmerged hresolved

end Workspace

end NameBinding
