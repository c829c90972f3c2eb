import NameBinding.Proofs.Graph.Visit
import NameBinding.Proofs.Workspace.Ownership
import NameBinding.Proofs.Workspace.Invalidation
import NameBinding.Workspace.Loop

/-! # The loops of an invalidation come to an end

What is invalidated is marked, and nothing else changes, so the loops go along the same edges all the
time. Owners are older than what they own, so the loop from owner to owner ends, and the others see each
symbol once. Main statement: in a graph where owners are older, each loop ends with what the graph says
without it. -/

namespace NameBinding

namespace SymbolGraph

variable {g g' g₀ : SymbolGraph} {ids ids' roots rest stack seen : List SymbolId}
  {x y z : SymbolId} {e e' e'' : Expansion} {s s' s'' : Search}

/-! ### Marks -/

/-- A graph is what its symbols are apart from their edges, its edges, and its marks. -/
theorem ext_parts (hlabel : ∀ x, g'.label? x = g.label? x)
    (ho : ∀ x, g'.outgoing x = g.outgoing x) (hi : ∀ x, g'.incoming x = g.incoming x)
    (hr : ∀ x, g'.isResolved x = g.isResolved x) : g' = g := by
  have hget : ∀ x, g'.get? x = g.get? x := by
    intro x
    have hx := hlabel x
    have hxo := ho x
    have hxi := hi x
    have hxr := hr x
    simp only [label?, outgoing, incoming, isResolved] at hx hxo hxi hxr
    cases hs : g.get? x with
    | none => simpa [hs] using hx
    | some s =>
        cases hs' : g'.get? x with
        | none => simp [hs, hs'] at hx
        | some s' =>
            obtain ⟨name, kind, flags, declarations, outgoing, incoming, resolved⟩ := s
            obtain ⟨name', kind', flags', declarations', outgoing', incoming', resolved'⟩ := s'
            simp_all [Symbol.label]
  obtain ⟨symbols⟩ := g
  obtain ⟨symbols'⟩ := g'
  exact congrArg SymbolGraph.mk (Array.ext_getElem? hget)

/-- The two graphs differ in what is resolved only. -/
structure Resembles (g g' : SymbolGraph) : Prop where
  label? : ∀ x, g'.label? x = g.label? x
  outgoing : ∀ x, g'.outgoing x = g.outgoing x
  incoming : ∀ x, g'.incoming x = g.incoming x

namespace Resembles

theorem refl (g : SymbolGraph) : Resembles g g := ⟨fun _ => rfl, fun _ => rfl, fun _ => rfl⟩

theorem symm (h : Resembles g g') : Resembles g' g :=
  ⟨fun x => (h.label? x).symm, fun x => (h.outgoing x).symm, fun x => (h.incoming x).symm⟩

theorem trans {g'' : SymbolGraph} (h : Resembles g g') (h' : Resembles g' g'') : Resembles g g'' :=
  ⟨fun x => (h'.label? x).trans (h.label? x), fun x => (h'.outgoing x).trans (h.outgoing x),
    fun x => (h'.incoming x).trans (h.incoming x)⟩

theorem invalidate (h : Resembles g g') (x : SymbolId) : Resembles g (g'.invalidate x) :=
  ⟨fun y => (label?_invalidate g' x y).trans (h.label? y),
    fun y => (outgoing_invalidate g' x y).trans (h.outgoing y),
    fun y => (incoming_invalidate g' x y).trans (h.incoming y)⟩

theorem foldl_invalidate (g : SymbolGraph) (ids : List SymbolId) :
    Resembles g (ids.foldl SymbolGraph.invalidate g) :=
  List.foldlRecOn (motive := Resembles g) ids _ (refl g) fun _ h x _ => h.invalidate x

theorem invalidateAll (g : SymbolGraph) (ids : List SymbolId) : Resembles g (g.invalidateAll ids) :=
  ⟨label?_invalidateAll g ids, outgoing_invalidateAll g ids, incoming_invalidateAll g ids⟩

theorem size (h : Resembles g g') : g'.size = g.size := size_eq_of_label? h.label?

theorem isSynthesized (h : Resembles g g') : g'.isSynthesized = g.isSynthesized :=
  funext fun x => isSynthesized_congr (h.label? x)

theorem coveredBy (h : Resembles g g') : g'.coveredBy = g.coveredBy :=
  funext fun x => coveredBy_congr (h.label? x) (h.outgoing x) (h.incoming x)

theorem container? (h : Resembles g g') : g'.container? = g.container? := by
  funext x
  simp only [SymbolGraph.container?, firstTarget, firstSource, targets_eq, sources_eq, h.outgoing,
    h.incoming]

theorem resolvedThrough (h : Resembles g g') : g'.resolvedThrough = g.resolvedThrough := by
  funext x
  simp only [SymbolGraph.resolvedThrough, h.incoming]

theorem hasEdge (h : Resembles g g') (e : Edge) : g'.hasEdge e ↔ g.hasEdge e := by
  rw [hasEdge_iff, hasEdge_iff, h.outgoing]

theorem descends (h : Resembles g g') (hd : g.Descends) : g'.Descends :=
  hd.mono fun _ he => (h.hasEdge _).mp he

theorem wellFormed (h : Resembles g g') (hg : g.WellFormed) : g'.WellFormed :=
  hg.of_edges_eq h.outgoing h.incoming

end Resembles

theorem Resembles.eq_of_marks {g'' : SymbolGraph} (h : Resembles g g') (h' : Resembles g g'')
    (hr : ∀ x, g'.isResolved x ↔ g''.isResolved x) : g' = g'' :=
  ext_parts (fun x => (h.label? x).trans (h'.label? x).symm)
    (fun x => (h.outgoing x).trans (h'.outgoing x).symm)
    (fun x => (h.incoming x).trans (h'.incoming x).symm) fun x => Bool.eq_iff_iff.mpr (hr x)

/-- The order in which symbols are invalidated does not matter, nor how often. -/
theorem foldl_invalidate_congr (g : SymbolGraph) (h : ∀ x, x ∈ ids ↔ x ∈ ids') :
    ids.foldl invalidate g = ids'.foldl invalidate g :=
  (Resembles.foldl_invalidate g ids).eq_of_marks (.foldl_invalidate g ids') fun x => by
    rw [isResolved_foldl_invalidate, isResolved_foldl_invalidate, h]

theorem invalidateAll_congr (g : SymbolGraph) (h : ∀ x, x ∈ ids ↔ x ∈ ids') :
    g.invalidateAll ids = g.invalidateAll ids' :=
  (Resembles.invalidateAll g ids).eq_of_marks (.invalidateAll g ids') fun x => by
    simp only [isResolved_invalidateAll, h]

/-! ### From owner to owner -/

namespace Climbs

theorem eq_of_eq {x : Option SymbolId} (h : g.Climbs x e e') (h' : g.Climbs x e e'') : e' = e'' := by
  induction h with
  | top e =>
      cases h'
      rfl
  | owner _ ih =>
      cases h' with
      | owner h' => exact ih h'

/-- The loop looks at owners and at what is synthesized only. -/
theorem congr (hc : g'.container? = g.container?) (hs : g'.isSynthesized = g.isSynthesized)
    {x : Option SymbolId} (h : g'.Climbs x e e') : g.Climbs x e e' := by
  induction h with
  | top e => exact .top e
  | owner _ ih =>
      rw [hc, Expansion.visit, hs] at ih
      exact .owner ih

end Climbs

theorem Resembles.climbs_iff (h : Resembles g g') {x : Option SymbolId} :
    g'.Climbs x e e' ↔ g.Climbs x e e' :=
  ⟨fun hc => hc.congr h.container? h.isSynthesized,
    fun hc => hc.congr h.symm.container? h.symm.isSynthesized⟩

/-- The loop ends where the owners do. -/
theorem exists_climbs_iff : (∃ e', g.Climbs (some x) e e') ↔
    Acc (fun owner x => g.container? x = some owner) x := by
  constructor
  · rintro ⟨e', h⟩
    generalize hstart : some x = start at h
    induction h generalizing x with
    | top => exact absurd hstart (by simp)
    | owner _ ih =>
        obtain rfl := Option.some.inj hstart
        exact ⟨_, fun y hy => ih hy.symm⟩
  · intro h
    induction h generalizing e with
    | intro x _ ih =>
        cases hx : g.container? x with
        | none => exact ⟨_, .owner (by rw [hx]; exact .top _)⟩
        | some y =>
            obtain ⟨e', he'⟩ := ih y hx (e := e.visit g x)
            exact ⟨e', .owner (by rw [hx]; exact he')⟩

/-- The numbers of the owners get smaller. -/
theorem Descends.exists_climbs (h : g.Descends) (hg : g.Mirrored) (x : SymbolId) (e : Expansion) :
    ∃ e', g.Climbs (some x) e e' :=
  exists_climbs_iff.mpr (Subrelation.accessible (fun hx => h.lt_of_container? hg hx)
    (Nat.lt_wfRel.wf.apply x))

/-! ### What a climb finds -/

/-- What is left to do: symbols that were never on the worklist can come there once. -/
def Expansion.left (e : Expansion) (n : Nat) : Nat :=
  (Walk.unseen n e.expanded).length + e.worklist.length

/-- The second one has the synthesized types among some symbols, and nothing more that is new. -/
structure Expansion.Meets (g : SymbolGraph) (met : SymbolId → Prop) (e e' : Expansion) : Prop where
  mem_expanded_iff : ∀ z, z ∈ e'.expanded ↔ z ∈ e.expanded ∨ (met z ∧ g.isSynthesized z)
  mem_worklist_iff : ∀ z, z ∈ e'.worklist ↔ z ∈ e.worklist ∨ (z ∈ e'.expanded ∧ z ∉ e.expanded)
  left_le : e'.left g.size ≤ e.left g.size

namespace Expansion.Meets

variable {met met' : SymbolId → Prop}

theorem refl (g : SymbolGraph) (e : Expansion) : Meets g (fun _ => False) e e where
  mem_expanded_iff z := by simp
  mem_worklist_iff z := by simp
  left_le := Nat.le_refl _

theorem congr (h : Meets g met e e') (hmet : ∀ z, met z ↔ met' z) : Meets g met' e e' :=
  (funext fun z => propext (hmet z) : met = met') ▸ h

theorem trans (h : Meets g met e e') (h' : Meets g met' e' e'') :
    Meets g (fun z => met z ∨ met' z) e e'' where
  mem_expanded_iff z := by
    rw [h'.mem_expanded_iff, h.mem_expanded_iff, or_and_right, or_assoc]
  mem_worklist_iff z := by
    have hexp := h'.mem_expanded_iff z
    have hexp₀ := h.mem_expanded_iff z
    rw [h'.mem_worklist_iff, h.mem_worklist_iff]
    tauto
  left_le := Nat.le_trans h'.left_le h.left_le

theorem visit (g : SymbolGraph) (x : SymbolId) (e : Expansion) :
    Meets g (· = x) e (e.visit g x) := by
  unfold Expansion.visit
  split
  · next h =>
    simp only [Bool.and_eq_true, Bool.not_eq_true', List.contains_eq_mem, decide_eq_false_iff_not]
      at h
    obtain ⟨hsyn, hnew⟩ := h
    have hlt := lt_size_of_isSynthesized hsyn
    constructor
    · intro z
      simp only [List.mem_append, List.mem_singleton]
      refine or_congr_right ⟨fun hz => ⟨hz, hz ▸ hsyn⟩, And.left⟩
    · intro z
      rw [List.mem_cons, List.mem_append, List.mem_singleton]
      constructor
      · rintro (rfl | hz)
        · exact .inr ⟨.inr rfl, hnew⟩
        · exact .inl hz
      · rintro (hz | ⟨hz | rfl, hno⟩)
        · exact .inr hz
        · exact absurd hz hno
        · exact .inl rfl
    · have hless := Walk.length_unseen_append_lt (List.mem_singleton_self x) hlt hnew
      simp only [left, List.length_cons]
      omega
  · next h =>
    have hold : g.isSynthesized x → x ∈ e.expanded := by
      intro hsyn
      simpa [hsyn, List.contains_eq_mem] using h
    constructor
    · rintro z
      refine ⟨.inl, ?_⟩
      rintro (hz | ⟨rfl, hsyn⟩)
      · exact hz
      · exact hold hsyn
    · intro z
      simp
    · exact Nat.le_refl _

end Expansion.Meets

/-- By induction on the loop. -/
theorem Climbs.meets_of {o : Option SymbolId} (h : g.Climbs o e e') :
    Expansion.Meets g (fun z => ∃ x, o = some x ∧
      Relation.ReflTransGen (fun a b => g.container? a = some b) x z) e e' := by
  induction h with
  | top e => simpa using Expansion.Meets.refl g e
  | @owner x e e' _ ih =>
      refine ((Expansion.Meets.visit g x e).trans ih).congr fun z => ?_
      constructor
      · rintro (rfl | ⟨y, hxy, hyz⟩)
        · exact ⟨z, rfl, .refl⟩
        · exact ⟨x, rfl, hyz.head hxy⟩
      · rintro ⟨_, hx, hxz⟩
        obtain rfl := Option.some.inj hx
        rcases hxz.cases_head with rfl | ⟨y, hxy, hyz⟩
        · exact .inl rfl
        · exact .inr ⟨y, hxy, hyz⟩

/-- The synthesized types among the owners are expanded. -/
theorem Climbs.meets (hg : g.Mirrored) (h : g.Climbs (some x) e e') :
    Expansion.Meets g (· ∈ g.owners x) e e' := by
  have hmet := h.meets_of
  simp only [Option.some.injEq, exists_eq_left', ← mem_owners_iff hg] at hmet
  exact hmet

/-! ### Up to what covers a symbol -/

/-- Where the loop from one symbol is. -/
structure Rising (g₀ : SymbolGraph) (x : SymbolId) (stack seen : List SymbolId) (g : SymbolGraph) :
    Prop where
  graph : g = seen.foldl invalidate g₀
  root : x ∈ seen ∨ x ∈ stack
  reached : ∀ a, a ∈ seen ∨ a ∈ stack → g₀.Covers x a
  closed : ∀ a ∈ seen, ∀ b ∈ g₀.coveredBy a, b ∈ seen ∨ b ∈ stack

namespace Rising

theorem start (g : SymbolGraph) (x : SymbolId) : Rising g x [x] [] g where
  graph := rfl
  root := .inr (List.mem_singleton_self x)
  reached a ha := by
    obtain rfl : a = x := by simpa using ha
    exact .refl
  closed a ha := absurd ha List.not_mem_nil

theorem skip (h : Rising g₀ x (y :: stack) seen g) (hy : y ∈ seen) : Rising g₀ x stack seen g := by
  have hstill : ∀ {a}, a ∈ seen ∨ a ∈ y :: stack → a ∈ seen ∨ a ∈ stack := by
    rintro a (ha | ha)
    · exact .inl ha
    · rcases List.mem_cons.mp ha with rfl | ha
      · exact .inl hy
      · exact .inr ha
  exact {
    graph := h.graph
    root := hstill h.root
    reached := fun a ha => h.reached a (ha.imp_right (List.mem_cons_of_mem y))
    closed := fun a ha b hb => hstill (h.closed a ha b hb) }

theorem coveredBy (h : Rising g₀ x stack seen g) : (g.invalidate y).coveredBy = g₀.coveredBy := by
  have hlike := Resembles.foldl_invalidate g₀ seen
  rw [← h.graph] at hlike
  exact (hlike.invalidate y).coveredBy

theorem invalidate (h : Rising g₀ x (y :: stack) seen g) :
    Rising g₀ x ((g.invalidate y).coveredBy y ++ stack) (seen ++ [y]) (g.invalidate y) := by
  have hstill : ∀ {a}, a ∈ seen ∨ a ∈ y :: stack →
      a ∈ seen ++ [y] ∨ a ∈ g₀.coveredBy y ++ stack := by
    intro a ha
    simp only [List.mem_append, List.mem_cons, List.not_mem_nil, or_false] at ha ⊢
    tauto
  rw [h.coveredBy]
  constructor
  · rw [List.foldl_append, ← h.graph]
    rfl
  · exact hstill h.root
  · intro a ha
    simp only [List.mem_append, List.mem_singleton] at ha
    rcases ha with (ha | rfl) | ha | ha
    · exact h.reached a (.inl ha)
    · exact h.reached a (.inr List.mem_cons_self)
    · exact (h.reached y (.inr List.mem_cons_self)).tail ha
    · exact h.reached a (.inr (List.mem_cons_of_mem y ha))
  · intro a ha b hb
    rcases List.mem_append.mp ha with ha | ha
    · exact hstill (h.closed a ha b hb)
    · obtain rfl := List.mem_singleton.mp ha
      exact .inr (List.mem_append_left _ hb)

end Rising

theorem Rises.rising (hr : Rises stack seen g g') (h : Rising g₀ x stack seen g) :
    ∃ seen', Rising g₀ x [] seen' g' := by
  induction hr with
  | done seen g => exact ⟨seen, h⟩
  | skip hy _ ih => exact ih (h.skip hy)
  | invalidate _ _ ih => exact ih h.invalidate

/-- What was seen in the end is what covers the symbol. -/
theorem Rising.eq_invalidateUpward (h : Rising g₀ x [] seen g) (hg : g₀.Mirrored) :
    g = g₀.invalidateUpward x := by
  have hnext : ∀ a, ∀ b ∈ g₀.coveredBy a, b < g₀.size := fun a b => lt_size_of_mem_coveredBy hg
  rw [h.graph, invalidateUpward]
  refine foldl_invalidate_congr g₀ fun y => ?_
  simp only [Walk.mem_reach_iff_reflTransGen hnext, List.mem_singleton, exists_eq_left]
  refine ⟨fun hy => h.reached y (.inl hy), fun hy => ?_⟩
  induction hy with
  | refl => exact h.root.resolve_right List.not_mem_nil
  | tail _ hstep ih => exact (h.closed _ ih _ hstep).resolve_right List.not_mem_nil

/-- A symbol is covered by one other at most, and what does not exist by none. -/
theorem length_coveredBy_le (g : SymbolGraph) (x : SymbolId) :
    (g.coveredBy x).length ≤ if x < g.size then 1 else 0 := by
  split
  · unfold coveredBy
    split <;> simp [Option.length_toList_le]
  · next hx =>
    have hnone : g.kind? x = none := by
      simp [kind?, (get?_eq_none_iff g x).mpr (Nat.not_lt.mp hx)]
    simp [coveredBy, hnone]

/-- By induction on the symbols that were not seen and those on the stack. Where one is seen it leaves
the stack, and at most one comes there. -/
theorem exists_rises (stack seen : List SymbolId) (g : SymbolGraph) :
    ∃ g', Rises stack seen g g' := by
  induction hm : (Walk.unseen g.size seen).length + stack.length using Nat.strong_induction_on
    generalizing stack seen g with
  | _ m ih =>
    cases stack with
    | nil => exact ⟨g, .done seen g⟩
    | cons x stack =>
      rw [List.length_cons] at hm
      by_cases hx : x ∈ seen
      · obtain ⟨g', hr⟩ := ih _ (by omega) stack seen g rfl
        exact ⟨g', .skip hx hr⟩
      · have hsize : (g.invalidate x).size = g.size := size_eq_of_label? (label?_invalidate g x)
        have hcovered := length_coveredBy_le (g.invalidate x) x
        have hless : (Walk.unseen g.size (seen ++ [x])).length + ((g.invalidate x).coveredBy x).length ≤
            (Walk.unseen g.size seen).length := by
          rw [hsize] at hcovered
          split at hcovered
          · next hlt =>
            have hseen := Walk.length_unseen_append_lt (List.mem_singleton_self x) hlt hx
            omega
          · have hseen := Walk.length_unseen_append_le g.size seen [x]
            omega
        obtain ⟨g', hr⟩ := ih _ (by rw [hsize, List.length_append]; omega)
          ((g.invalidate x).coveredBy x ++ stack) (seen ++ [x]) (g.invalidate x) rfl
        exact ⟨g', .invalidate hx hr⟩

theorem rises_iff (hg : g.Mirrored) : Rises [x] [] g g' ↔ g' = g.invalidateUpward x := by
  have hends : ∀ {g'}, Rises [x] [] g g' → g' = g.invalidateUpward x := fun hr =>
    have ⟨_, h⟩ := hr.rising (.start g x)
    h.eq_invalidateUpward hg
  refine ⟨hends, ?_⟩
  rintro rfl
  obtain ⟨g', hr⟩ := exists_rises [x] [] g
  exact hends hr ▸ hr

/-! ### The search -/

/-- Where a search is, with what was resolved through a symbol and is still to be looked at. -/
structure Searching (g₀ : SymbolGraph) (roots rest : List SymbolId) (s : Search) : Prop where
  graph : s.graph = g₀.invalidateAll s.invalidated
  nodup : s.invalidated.Nodup
  rooted : ∀ r ∈ roots, r ∈ s.expansion.expanded
  reached : ∀ z ∈ s.expansion.expanded, ∃ r ∈ roots,
    Relation.ReflTransGen (fun a b => b ∈ g₀.synthesizedHolders a) r z
  pending : ∀ z ∈ s.expansion.worklist, z ∈ s.expansion.expanded
  found : ∀ y, y ∈ s.invalidated ∨ y ∈ rest →
    ∃ z ∈ s.expansion.expanded, y ∈ g₀.resolvedThrough z
  /-- The synthesized types that hold something invalidated are expanded. -/
  held : ∀ y ∈ s.invalidated, ∀ z ∈ g₀.owners y, g₀.isSynthesized z → z ∈ s.expansion.expanded
  spent : ∀ z ∈ s.expansion.expanded, z ∉ s.expansion.worklist → ∀ y ∈ g₀.resolvedThrough z,
    y ∈ s.invalidated ∨ y ∈ rest

namespace Searching

theorem resembles (h : Searching g₀ roots rest s) : Resembles g₀ s.graph := by
  rw [h.graph]
  exact .invalidateAll g₀ _

theorem start (g : SymbolGraph) (roots : List SymbolId) : Searching g roots [] (.start g roots) where
  graph := rfl
  nodup := List.nodup_nil
  rooted _ hr := hr
  reached z hz := ⟨z, hz, .refl⟩
  pending _ hz := List.mem_reverse.mp hz
  found _ hy := by simp [Search.start] at hy
  held _ hy := absurd hy List.not_mem_nil
  spent _ hz hno := absurd (List.mem_reverse.mpr hz) hno

/-- The next symbol is taken from the worklist. -/
theorem expand (h : Searching g₀ roots [] s) (hx : s.expansion.worklist = x :: rest) :
    Searching g₀ roots (s.graph.resolvedThrough x)
      { s with expansion := { s.expansion with worklist := rest } } := by
  have hmem : x ∈ s.expansion.worklist := hx ▸ List.mem_cons_self
  rw [h.resembles.resolvedThrough]
  exact { h with
    pending := fun z hz => h.pending z (hx ▸ List.mem_cons_of_mem x hz)
    found := by
      rintro y (hy | hy)
      · exact h.found y (.inl hy)
      · exact ⟨x, h.pending x hmem, hy⟩
    spent := by
      intro z hz hno y hy
      by_cases hzx : z = x
      · exact .inr (hzx ▸ hy)
      · refine .inl ((h.spent z hz ?_ y hy).resolve_right List.not_mem_nil)
        rw [hx, List.mem_cons, not_or]
        exact ⟨hzx, hno⟩ }

theorem skip (h : Searching g₀ roots (x :: rest) s) (hx : x ∈ s.invalidated) :
    Searching g₀ roots rest s :=
  { h with
    found := fun y hy => h.found y (hy.imp_right (List.mem_cons_of_mem x))
    spent := by
      intro z hz hno y hy
      rcases h.spent z hz hno y hy with hy | hy
      · exact .inl hy
      · rcases List.mem_cons.mp hy with rfl | hy
        · exact .inl hx
        · exact .inr hy }

/-- What was resolved through a symbol is invalidated, and what holds it is put on the worklist. -/
theorem take (h : Searching g₀ roots (x :: rest) s) (hx : x ∉ s.invalidated)
    (hgraph : g = s.graph.invalidateUpward x)
    (he : Expansion.Meets g₀ (· ∈ g₀.owners x) s.expansion e) :
    Searching g₀ roots rest ⟨g, s.invalidated ++ [x], e⟩ where
  graph := by
    rw [hgraph, h.graph, invalidateAll, invalidateAll, List.foldl_append]
    rfl
  nodup := List.nodup_append.mpr ⟨h.nodup, List.nodup_singleton x, fun a ha b hb hab =>
    hx (List.mem_singleton.mp hb ▸ hab ▸ ha)⟩
  rooted r hr := (he.mem_expanded_iff r).mpr (.inl (h.rooted r hr))
  reached z hz := by
    rcases (he.mem_expanded_iff z).mp hz with hz | ⟨howner, hsyn⟩
    · exact h.reached z hz
    · obtain ⟨y, hy, hxy⟩ := h.found x (.inr List.mem_cons_self)
      obtain ⟨r, hr, hry⟩ := h.reached y hy
      exact ⟨r, hr, hry.tail (List.mem_filter.mpr ⟨List.mem_flatMap.mpr ⟨x, hxy, howner⟩, hsyn⟩)⟩
  pending z hz := by
    rcases (he.mem_worklist_iff z).mp hz with hz | hz
    · exact (he.mem_expanded_iff z).mpr (.inl (h.pending z hz))
    · exact hz.1
  found y hy := by
    obtain ⟨z, hz, hyz⟩ := h.found y (by
      simp only [List.mem_append, List.mem_cons, List.not_mem_nil, or_false] at hy ⊢
      tauto)
    exact ⟨z, (he.mem_expanded_iff z).mpr (.inl hz), hyz⟩
  held y hy z hz hsyn := by
    refine (he.mem_expanded_iff z).mpr ?_
    rcases List.mem_append.mp hy with hy | hy
    · exact .inl (h.held y hy z hz hsyn)
    · exact .inr ⟨List.mem_singleton.mp hy ▸ hz, hsyn⟩
  spent z hz hno y hy := by
    rw [he.mem_worklist_iff, not_or, not_and] at hno
    have hold : z ∈ s.expansion.expanded := by
      by_contra hnew
      exact hno.2 hz hnew
    rcases h.spent z hold hno.1 y hy with hy | hy
    · exact .inl (List.mem_append_left _ hy)
    · rcases List.mem_cons.mp hy with rfl | hy
      · exact .inl (List.mem_append_right _ (List.mem_singleton_self y))
      · exact .inr hy

/-- In the end all was found that was resolved through some root, and nothing else. -/
theorem perm (h : Searching g₀ roots [] s) (hend : s.expansion.worklist = []) :
    s.invalidated.Perm (g₀.allResolvedThrough roots) := by
  have hspent : ∀ z ∈ s.expansion.expanded, ∀ y ∈ g₀.resolvedThrough z, y ∈ s.invalidated :=
    fun z hz y hy => (h.spent z hz (hend ▸ List.not_mem_nil) y hy).resolve_right List.not_mem_nil
  have hclosed : ∀ {r z}, r ∈ s.expansion.expanded →
      Relation.ReflTransGen (fun a b => b ∈ g₀.synthesizedHolders a) r z →
      z ∈ s.expansion.expanded := by
    intro r z hr hrz
    induction hrz with
    | refl => exact hr
    | @tail a z _ hstep ih =>
        obtain ⟨hheld, hsyn⟩ := List.mem_filter.mp hstep
        obtain ⟨y, hy, howner⟩ := List.mem_flatMap.mp hheld
        exact h.held y (hspent a ih y hy) z howner hsyn
  refine (List.perm_ext_iff_of_nodup h.nodup (Walk.nodup_eraseDups _)).mpr fun y => ?_
  change _ ↔ y ∈ g₀.allResolvedThrough roots
  rw [mem_allResolvedThrough_iff_reflTransGen]
  constructor
  · intro hy
    obtain ⟨z, hz, hyz⟩ := h.found y (.inl hy)
    obtain ⟨r, hr, hrz⟩ := h.reached z hz
    exact ⟨r, hr, z, hrz, hyz⟩
  · rintro ⟨r, hr, z, hrz, hyz⟩
    exact hspent z (hclosed (h.rooted r hr) hrz) y hyz

end Searching

/-! ### Runs of the search -/

section Runs

variable (hg : g₀.WellFormed)

include hg

theorem Gathers.searching (hs : Gathers rest s s') (h : Searching g₀ roots rest s) :
    Searching g₀ roots [] s' := by
  induction hs with
  | done s => exact h
  | skip hx _ ih => exact ih (h.skip hx)
  | @take x rest s s' g e hx hrises hclimbs _ ih =>
      obtain rfl := (rises_iff (h.resembles.wellFormed hg).toMirrored).mp hrises
      have hlike := h.resembles.trans (.invalidateAll s.graph [x])
      exact ih (h.take hx rfl ((hlike.climbs_iff.mp hclimbs).meets hg.toMirrored))

theorem Searches.searching (hs : Searches s s') (h : Searching g₀ roots [] s) :
    Searching g₀ roots [] s' ∧ s'.expansion.worklist = [] := by
  induction hs with
  | done hend => exact ⟨h, hend⟩
  | expand hx hgathers _ ih => exact ih (hgathers.searching hg (h.expand hx))

variable (hd : g₀.Descends)

include hd

theorem Searching.exists_gathers (h : Searching g₀ roots rest s) :
    ∃ s', Gathers rest s s' ∧ s'.expansion.left g₀.size ≤ s.expansion.left g₀.size := by
  induction rest generalizing s with
  | nil => exact ⟨s, .done s, Nat.le_refl _⟩
  | cons x rest ih =>
      by_cases hx : x ∈ s.invalidated
      · obtain ⟨s', hs', hle⟩ := ih (h.skip hx)
        exact ⟨s', .skip hx hs', hle⟩
      · have hrises : Rises [x] [] s.graph (s.graph.invalidateUpward x) :=
          (rises_iff (h.resembles.wellFormed hg).toMirrored).mpr rfl
        have hlike := h.resembles.trans (.invalidateAll s.graph [x])
        obtain ⟨e, hclimbs⟩ := hd.exists_climbs hg.toMirrored x s.expansion
        have hmeets := hclimbs.meets hg.toMirrored
        obtain ⟨s', hs', hle⟩ := ih (h.take hx rfl hmeets)
        exact ⟨s', .take hx hrises (hlike.climbs_iff.mpr hclimbs) hs',
          Nat.le_trans hle hmeets.left_le⟩

/-- Each symbol that is expanded leaves less to do. -/
theorem Searching.exists_searches (h : Searching g₀ roots [] s) : ∃ s', Searches s s' := by
  induction hm : s.expansion.left g₀.size using Nat.strong_induction_on generalizing s with
  | _ m ih =>
      cases hx : s.expansion.worklist with
      | nil => exact ⟨s, .done hx⟩
      | cons x rest =>
          obtain ⟨s', hs', hle⟩ := (h.expand hx).exists_gathers hg hd
          have hless : s'.expansion.left g₀.size < m := by
            rw [← hm]
            refine Nat.lt_of_le_of_lt hle ?_
            simp [Expansion.left, hx]
          obtain ⟨s'', hs''⟩ := ih _ hless (hs'.searching hg (h.expand hx)) rfl
          exact ⟨s'', .expand hx hs' hs''⟩

end Runs

/-! ### Main statement -/

/-- Nothing is contained in two symbols, and owners are older. So every loop of an invalidation comes to
an end, and what it leaves behind is what can be read off the graph. -/
structure EndsInvalidation (g : SymbolGraph) : Prop where
  contained : ∀ x, (g.targets x .containedBy).length ≤ 1
  older : ∀ x y, g.container? x = some y → y < x
  climbs : ∀ x e, ∃! e', g.Climbs (some x) e e'
  rises : ∀ x g', Rises [x] [] g g' ↔ g' = g.invalidateUpward x
  searches : ∀ roots, ∃ s, Searches (.start g roots) s
  found : ∀ roots s, Searches (.start g roots) s →
    s.graph = g.invalidateAll (g.allResolvedThrough roots) ∧
      s.invalidated.Perm (g.allResolvedThrough roots)

theorem Descends.endsInvalidation (h : g.Descends) (hg : g.WellFormed)
    (hone : g.OneTarget .containedBy) : g.EndsInvalidation where
  contained x := hone.length_targets_le hg.toMirrored x
  older _ _ hx := h.lt_of_container? hg.toMirrored hx
  climbs x e := by
    obtain ⟨e', he'⟩ := h.exists_climbs hg.toMirrored x e
    exact ⟨e', he', fun _ he => he.eq_of_eq he'⟩
  rises _ _ := rises_iff hg.toMirrored
  searches roots := (Searching.start g roots).exists_searches hg h
  found roots s hs := by
    obtain ⟨hsearching, hend⟩ := hs.searching hg (.start g roots)
    have hperm := hsearching.perm hend
    exact ⟨hsearching.graph.trans (invalidateAll_congr g fun _ => hperm.mem_iff), hperm⟩

end SymbolGraph

namespace Workspace

open SymbolGraph

variable {w : Workspace} {g : SymbolGraph} {ids : List SymbolId}

/-- Whatever was requested, every loop of an invalidation comes to an end. The graph can also be one in
which not all has been invalidated yet: requests search before they invalidate. -/
theorem Reachable.invalidation_ends (h : w.Reachable) (hg : g.invalidateAll ids = w.graph) :
    g.EndsInvalidation := by
  have hlike : Resembles w.graph g := hg ▸ (Resembles.invalidateAll g ids).symm
  exact (hlike.descends h.descends).endsInvalidation (hlike.wellFormed h.sound.graph.toWellFormed)
    (h.oneTarget_containedBy.mono fun _ he => (hlike.hasEdge _).mp he)

/-- A class with a method, and a variable of a type with a method whose parameter has an interface as
its type. Another part of the interface was in a document that is gone. -/
def typedParts : Workspace := (ofOptions {}).after
  [.setStatements "i.ts" do return [← Build.interfaceDecl "I" ∅ [] []],
    .setStatements "k.ts" do
      let m ← Build.method "m" ∅ [← Build.parameter "p" ∅ none] none (some [])
      let q ← Build.parameter "q" ∅ (← Build.typeReference "I")
      let type ← Build.typeLiteral [← Build.methodSignature "f" ∅ [q] none]
      return [← Build.interfaceDecl "I" ∅ [] [], ← Build.classDecl "K" ∅ [] [] [m],
        ← Build.singleVariable "v" ∅ type none],
    .demand (.symbol 14), .removeUnit "i.ts"]

theorem invalidation_ends_typedParts : typedParts.Reachable ∧
    typedParts.graph.invalidateAll [] = typedParts.graph ∧ typedParts.graph.EndsInvalidation :=
  have h : typedParts.Reachable := ⟨_, _, rfl⟩
  have hids : typedParts.graph.invalidateAll [] = typedParts.graph := rfl
  ⟨h, hids, h.invalidation_ends hids⟩

/-- From the parameters to the class and to the type literal, by way of edges of all kinds. -/
example : typedParts.graph.owners 13 = [13, 12, 11, 10, 9] ∧
    typedParts.graph.owners 18 = [18, 17, 16, 15] ∧
    typedParts.graph.allResolvedThrough [8] = [18, 14] := by decide +kernel

end Workspace

end NameBinding
