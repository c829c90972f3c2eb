import Mathlib.Data.Set.Basic
import NameBinding.Proofs.Graph.Query
import NameBinding.Proofs.Resolve.Scene

/-! # From scene to scene

Each write of resolving leads from one scene to the next, and adds facts that do not depend on the
scene. -/

namespace NameBinding

open SymbolGraph

namespace SymbolGraph

variable {g : SymbolGraph} {e : Edge} {x : SymbolId} {kind : EdgeKind}

/-- The first edge of a kind. -/
theorem targets_addEdge_of_nil (hs : e.source < g.size) (hm : ¬e.kind.isMembership)
    (hnone : g.targets e.source e.kind = []) :
    (g.addEdge e).targets e.source e.kind = [e.target] := by
  have hnew : ¬g.hasEdge e := by
    intro he
    have hmem : e.target ∈ g.targets e.source e.kind := by
      rw [targets_eq]
      refine List.mem_map.mpr ⟨e, List.mem_filter.mpr ⟨hasEdge_iff.mp he, ?_⟩, rfl⟩
      exact beq_self_eq_true _
    rw [hnone] at hmem
    exact absurd hmem List.not_mem_nil
  rw [targets_eq] at hnone
  rw [addEdge, if_neg hm, targets_eq, outgoing_insertEdge, if_pos ⟨rfl, hs, hnew⟩,
    List.filter_append, List.map_append, hnone]
  simp

end SymbolGraph

namespace Scene

/-- The scene in which a symbol is marked. -/
def mark (s : Scene) (x : SymbolId) : Scene := s.setGraph (s.graph.setResolved x true)

/-- The scene in which a symbol with an origin was made. -/
def make (s : Scene) (o : Origin) (name : String) (kind : SymbolKind) (flags : Flags SymbolFlag) :
    Scene where
  resolution := { s.resolution with graph := s.graph.alloc name kind flags }
  origin x := if x = s.graph.size then o else s.origin x

/-- The scene in which the array type of an element type was made. -/
def makeArray (s : Scene) (x : SymbolId) : Scene :=
  let made :=
    s.make (.array (s.origin x)) (s.graph.name x ++ "[]") .array (Flags.single .synthesized)
  made.setGraph (made.graph.addEdge ⟨s.graph.size, x, .arrayOf⟩)

section Fields

variable (s : Scene) (g : SymbolGraph) (x : SymbolId)

@[simp] theorem graph_setGraph : (s.setGraph g).graph = g := rfl

@[simp] theorem origin_setGraph : (s.setGraph g).origin = s.origin := rfl

@[simp] theorem diagnostics_setGraph : (s.setGraph g).diagnostics = s.diagnostics := rfl

@[simp] theorem graph_mark : (s.mark x).graph = s.graph.setResolved x true := rfl

@[simp] theorem origin_mark : (s.mark x).origin = s.origin := rfl

@[simp] theorem diagnostics_mark : (s.mark x).diagnostics = s.diagnostics := rfl

end Fields

end Scene

namespace Start

variable {b : Start} {opened : List SymbolId} {s s' : Scene} {x : SymbolId}

/-! ### Scenes -/

namespace Valid

theorem wellFormed (h : b.Valid opened s) : s.graph.WellFormed :=
  h.resolves.wellFormed b.sound.graph.toWellFormed

theorem size_le (h : b.Valid opened s) : b.size ≤ s.graph.size := h.resolves.size_le

theorem lt_size (h : b.Valid opened s) (hx : x < b.size) : x < s.graph.size :=
  Nat.lt_of_lt_of_le hx h.size_le

theorem kind?_eq (h : b.Valid opened s) (hx : x < b.size) : s.graph.kind? x = b.graph.kind? x :=
  kind?_congr (h.resolves.label? hx)

theorem name_eq (h : b.Valid opened s) (hx : x < b.size) : s.graph.name x = b.graph.name x :=
  name_congr (h.resolves.label? hx)

/-- A symbol that has no type yet can be opened. -/
theorem opens (h : b.Valid opened s) (hx : x < s.graph.size)
    (hmarked : x < b.size → s.graph.isResolved x)
    (huntyped : ∀ {e : Edge}, s.graph.hasEdge e → e.kind = .typedAs ∨ e.kind = .returnType →
      e.source ≠ x) : b.Valid (x :: opened) s where
  __ := h
  typed he hk := ⟨List.not_mem_cons_of_ne_of_not_mem (huntyped he hk) (h.typed he hk).1,
    (h.typed he hk).2⟩
  aliased ha hr hn := h.aliased ha hr fun hmem => hn (List.mem_cons_of_mem x hmem)
  opened_lt := List.forall_mem_cons.mpr ⟨⟨hx, hmarked⟩, h.opened_lt⟩

theorem closes (h : b.Valid (x :: opened) s)
    (hsettled : b.graph.kind? x = some .alias →
      s.graph.targets x .typedAs = [b.aliasValue x] ∧ b.aliasReports x ⊆ s.diagnostics) :
    b.Valid opened s where
  __ := h
  typed he hk := ⟨fun hmem => (h.typed he hk).1 (List.mem_cons_of_mem x hmem), (h.typed he hk).2⟩
  aliased {a} ha hr hn := by
    by_cases hax : a = x
    · subst hax
      exact hsettled ha
    · exact h.aliased ha hr (List.not_mem_cons_of_ne_of_not_mem hax hn)
  opened_lt := (List.forall_mem_cons.mp h.opened_lt).2

end Valid

/-- The scene in which nothing was resolved. Something may have been reported before. -/
def scene (b : Start) (diagnostics : List Diagnostic) : Scene := ⟨⟨b.graph, diagnostics⟩, .given⟩

/-- No given edge is of a kind that resolving adds. -/
theorem not_hasEdge (b : Start) {e : Edge} (hk : e.kind.isResolution ∨ e.kind = .arrayOf) :
    ¬b.graph.hasEdge e := by
  intro he
  have hbound := b.bound he
  rcases hk with hk | hk <;> simp [EdgeKind.isStructural, hk] at hbound

theorem valid_scene (b : Start) (ds : List Diagnostic) : b.Valid [] (b.scene ds) where
  resolves := .refl _ _
  given _ := rfl
  injective _ _ heq := Origin.given.inj heq
  later hle hlt := absurd hlt (Nat.not_lt.mpr hle)
  array _ _ :=
    ⟨fun he => absurd he (b.not_hasEdge (.inr rfl)), fun ho => absurd ho (by simp [scene])⟩
  element _ ho := absurd ho (by simp [scene])
  arrayLabel he := absurd he (b.not_hasEdge (.inr rfl))
  owned _ ho := absurd ho (by simp [scene])
  typed he hk := absurd he (b.not_hasEdge (.inl (by rcases hk with hk | hk <;> rw [hk] <;> rfl)))
  based he hk := absurd he (b.not_hasEdge (.inl (by rcases hk with hk | hk <;> rw [hk] <;> rfl)))
  aliased _ hr := absurd hr (b.unmarked _)
  opened_lt _ hx := absurd hx List.not_mem_nil

/-! ### The same symbols -/

/-- A write that makes no symbol. -/
theorem Valid.rewrite (h : b.Valid opened s) (s' : Scene)
    (hres : b.graph.Resolves b.setting s'.graph) (horigin : s'.origin = s.origin)
    (hlabel : ∀ x, s'.graph.label? x = s.graph.label? x)
    (hmarks : ∀ {x}, s.graph.isResolved x → s'.graph.isResolved x)
    (harray : ∀ {e : Edge}, e.kind = .arrayOf → (s'.graph.hasEdge e ↔ s.graph.hasEdge e))
    {opened' : List SymbolId}
    (htyped : ∀ {e : Edge}, s'.graph.hasEdge e → e.kind = .typedAs ∨ e.kind = .returnType →
      e.source ∉ opened' ∧ (e.source < b.size → s'.graph.isResolved e.source))
    (hbased : ∀ {e : Edge}, s'.graph.hasEdge e → e.kind = .extends ∨ e.kind = .implements →
      s'.graph.isResolved (b.baseOwner e.source))
    (haliased : ∀ {a}, b.graph.kind? a = some .alias → s'.graph.isResolved a → a ∉ opened' →
      s'.graph.targets a .typedAs = [b.aliasValue a] ∧ b.aliasReports a ⊆ s'.diagnostics)
    (hopened : ∀ x ∈ opened', x < s.graph.size ∧ (x < b.size → s'.graph.isResolved x)) :
    b.Valid opened' s' := by
  have hsize : s'.graph.size = s.graph.size := size_eq_of_label? hlabel
  constructor
  · exact hres
  · rw [horigin]
    exact h.given
  · rw [hsize, horigin]
    exact h.injective
  · rw [hsize, horigin]
    exact h.later
  · intro x y
    rw [hsize, horigin, harray rfl]
    exact h.array
  · rw [hsize, horigin]
    exact h.element
  · intro x y he
    rw [hlabel, name_congr (hlabel y)]
    exact h.arrayLabel ((harray rfl).mp he)
  · intro x z n hx ho
    rw [hsize] at hx
    rw [horigin] at ho
    exact hmarks (h.owned hx ho)
  · exact htyped
  · exact hbased
  · exact haliased
  · rw [hsize]
    exact hopened

/-! ### Reports -/

/-- The facts that some problems were reported. -/
def reports (ds : List Diagnostic) : Set Fact := {f | ∃ d ∈ ds, f = .reported d}

theorem reported_mem_reports {ds : List Diagnostic} {d : Diagnostic} :
    .reported d ∈ reports ds ↔ d ∈ ds := by
  constructor
  · rintro ⟨_, hd, ⟨⟩⟩
    exact hd
  · exact fun hd => ⟨d, hd, rfl⟩

/-- What was reported since nothing was resolved. -/
theorem Leads.mem_diagnostics_iff {new : Set Fact} (hl : b.Leads new (b.scene []) s)
    (d : Diagnostic) : d ∈ s.diagnostics ↔ .reported d ∈ new := by
  constructor
  · intro hd
    rcases hl.only (f := .reported d) hd with hf | hf | hf
    · exact absurd hf List.not_mem_nil
    · exact hf
    · cases hf
  · exact hl.adds

theorem mem_reports_append {ds ds' : List Diagnostic} {f : Fact} :
    f ∈ reports (ds ++ ds') ↔ f ∈ reports ds ∪ reports ds' := by
  constructor
  · rintro ⟨d, hd, rfl⟩
    exact (List.mem_append.mp hd).imp (fun hd => ⟨d, hd, rfl⟩) fun hd => ⟨d, hd, rfl⟩
  · rintro (⟨d, hd, rfl⟩ | ⟨d, hd, rfl⟩)
    · exact ⟨d, List.mem_append_left _ hd, rfl⟩
    · exact ⟨d, List.mem_append_right _ hd, rfl⟩

theorem Valid.report (h : b.Valid opened s) (d : Diagnostic) :
    ∃ s', ResolveM.report d s.resolution = .ok () s'.resolution ∧ b.Valid opened s' ∧
      b.Leads (reports [d]) s s' := by
  obtain ⟨ds, hr, hmem⟩ : ∃ ds, ResolveM.report d s.resolution = .ok () ⟨s.graph, ds⟩ ∧
      ∀ d', d' ∈ ds ↔ d' ∈ s.diagnostics ∨ d' = d := by
    by_cases hd : d ∈ s.diagnostics
    · refine ⟨s.diagnostics, congrArg (EStateM.Result.ok ()) (if_pos hd), fun d' => ?_⟩
      exact ⟨.inl, fun hd' => hd'.elim id fun heq => heq ▸ hd⟩
    · refine ⟨s.diagnostics ++ [d], congrArg (EStateM.Result.ok ()) (if_neg hd), fun d' => ?_⟩
      rw [List.mem_append, List.mem_singleton]
  refine ⟨⟨⟨s.graph, ds⟩, s.origin⟩, hr, ?_, ?_⟩
  · refine h.rewrite ⟨⟨s.graph, ds⟩, s.origin⟩ h.resolves rfl (fun _ => rfl) id (fun _ => Iff.rfl)
      h.typed h.based (fun ha hr hn => ⟨(h.aliased ha hr hn).1, fun d' hd' => ?_⟩) h.opened_lt
    exact (hmem d').mpr (.inl ((h.aliased ha hr hn).2 hd'))
  · constructor
    · exact Nat.le_refl _
    · exact fun _ => rfl
    · exact fun _ => rfl
    · intro f hf
      cases f with
      | reported d' => exact (hmem d').mpr (.inl hf)
      | _ => exact hf
    · rintro f ⟨d', hd', rfl⟩
      exact (hmem d').mpr (.inr (List.mem_singleton.mp hd'))
    · intro f hf
      cases f with
      | reported d' =>
          refine ((hmem d').mp hf).imp_right fun heq => .inl ⟨d, List.mem_singleton_self d, ?_⟩
          rw [heq]
      | _ => exact .inl hf

/-! ### Marks -/

theorem isResolved_mark (s : Scene) {x y : SymbolId} (hx : x < s.graph.size) :
    (s.mark x).graph.isResolved y ↔ s.graph.isResolved y ∨ y = x := by
  rw [Scene.graph_mark, isResolved_setResolved]
  exact or_congr_right ⟨And.left, fun hy => ⟨hy, hy ▸ hx⟩⟩

theorem hasEdge_mark (s : Scene) (x : SymbolId) (e : Edge) :
    (s.mark x).graph.hasEdge e = s.graph.hasEdge e := hasEdge_setResolved s.graph x true e

theorem targets_mark (s : Scene) (x y : SymbolId) (kind : EdgeKind) :
    (s.mark x).graph.targets y kind = s.graph.targets y kind :=
  targets_setResolved s.graph x true y kind

/-- A symbol that is marked and was not marked before can be opened. -/
theorem Valid.mark (h : b.Valid opened s) (hx : x < s.graph.size) {opened' : List SymbolId}
    (hsub : opened ⊆ opened') (hnew : ∀ y ∈ opened', y ∈ opened ∨ y = x)
    (hopen : x ∈ opened' → x ∈ opened ∨ x < b.size ∧ ¬s.graph.isResolved x)
    (halias : b.graph.kind? x = some .alias → x ∈ opened' ∨ s.graph.isResolved x) :
    b.Valid opened' (s.mark x) := by
  have hold {y : SymbolId} (hy : s.graph.isResolved y) : (s.mark x).graph.isResolved y :=
    (isResolved_mark s hx).mpr (.inl hy)
  refine h.rewrite (s.mark x) (h.resolves.change (.mark x)) rfl (label?_setResolved s.graph x true)
    hold (fun _ => by rw [hasEdge_mark]) ?_ ?_ ?_ ?_
  · intro e he hk
    rw [hasEdge_mark] at he
    obtain ⟨hclosed, hmarked⟩ := h.typed he hk
    refine ⟨fun hmem => ?_, fun hlt => hold (hmarked hlt)⟩
    rcases hnew _ hmem with hopened | hsource
    · exact hclosed hopened
    · rcases hopen (hsource ▸ hmem) with hopened | ⟨hlt, hunmarked⟩
      · exact hclosed (hsource ▸ hopened)
      · exact hunmarked (hsource ▸ hmarked (hsource ▸ hlt))
  · intro e he hk
    rw [hasEdge_mark] at he
    exact hold (h.based he hk)
  · intro a ha hr hn
    rw [targets_mark]
    have hresolved : s.graph.isResolved a := ((isResolved_mark s hx).mp hr).elim id fun hax => by
      subst hax
      exact (halias ha).resolve_left hn
    exact h.aliased ha hresolved fun hmem => hn (hsub hmem)
  · intro y hy
    rcases hnew y hy with hopened | rfl
    · exact ⟨(h.opened_lt y hopened).1, fun hlt => hold ((h.opened_lt y hopened).2 hlt)⟩
    · exact ⟨hx, fun _ => (isResolved_mark s hx).mpr (.inr rfl)⟩

theorem leads_mark (b : Start) (s : Scene) {x : SymbolId} (hx : x < s.graph.size) :
    b.Leads {f | x < b.size ∧ f = .marked x} s (s.mark x) := by
  have hholds : ∀ f, b.Holds (s.mark x) f ↔ b.Holds s f ∨ x < b.size ∧ f = .marked x := by
    intro f
    cases f with
    | symbol o label => simp [Holds]
    | edge o kind o' => simp [Holds, hasEdge_mark, -Scene.graph_mark]
    | marked y =>
        simp only [Holds, isResolved_mark s hx, Fact.marked.injEq]
        constructor
        · rintro ⟨hy, hr | rfl⟩
          · exact .inl ⟨hy, hr⟩
          · exact .inr ⟨hy, rfl⟩
        · rintro (⟨hy, hr⟩ | ⟨hy, rfl⟩)
          · exact ⟨hy, .inl hr⟩
          · exact ⟨hy, .inr rfl⟩
    | reported d => simp [Holds]
  constructor
  · exact Nat.le_of_eq (size_setResolved s.graph x true).symm
  · exact fun _ => rfl
  · exact fun _ => label?_setResolved s.graph x true _
  · exact fun hf => (hholds _).mpr (.inl hf)
  · exact fun hf => (hholds _).mpr (.inr hf)
  · exact fun hf => ((hholds _).mp hf).imp_right .inl

/-! ### Edges -/

/-- The facts that an edge adds. -/
def edgeFacts (source : Origin) (kind : EdgeKind) (target : Origin) : Set Fact :=
  {f | f = .edge source kind target ∨
    kind.isMembership ∧ f = .edge target .containedBy source}

section AddEdge

variable {e : Edge} (hs : e.source < s.graph.size) (ht : e.target < s.graph.size)

include hs ht

theorem leads_addEdge (b : Start) :
    b.Leads (edgeFacts (s.origin e.source) e.kind (s.origin e.target)) s
      (s.setGraph (s.graph.addEdge e)) := by
  have hholds : ∀ f, b.Holds (s.setGraph (s.graph.addEdge e)) f ↔
      b.Holds s f ∨ f ∈ edgeFacts (s.origin e.source) e.kind (s.origin e.target) := by
    intro f
    cases f with
    | symbol o label => simp [Holds, edgeFacts]
    | marked y => simp [Holds, edgeFacts]
    | reported d => simp [Holds, edgeFacts]
    | edge o kind o' =>
        simp only [Holds, Scene.graph_setGraph, Scene.origin_setGraph, hasEdge_addEdge hs ht]
        constructor
        · rintro ⟨x, y, rfl, rfl, he | rfl | ⟨hm, he⟩⟩
          · exact .inl ⟨x, y, rfl, rfl, he⟩
          · exact .inr (.inl rfl)
          · obtain ⟨rfl, rfl, rfl⟩ := Edge.mk.inj he
            exact .inr (.inr ⟨hm, rfl⟩)
        · rintro (⟨x, y, rfl, rfl, he⟩ | heq | ⟨hm, heq⟩)
          · exact ⟨x, y, rfl, rfl, .inl he⟩
          · obtain ⟨rfl, rfl, rfl⟩ := Fact.edge.inj heq
            exact ⟨e.source, e.target, rfl, rfl, .inr (.inl rfl)⟩
          · obtain ⟨rfl, rfl, rfl⟩ := Fact.edge.inj heq
            exact ⟨e.target, e.source, rfl, rfl, .inr (.inr ⟨hm, rfl⟩)⟩
  constructor
  · exact Nat.le_of_eq (size_addEdge s.graph e).symm
  · exact fun _ => rfl
  · exact fun _ => label?_addEdge s.graph e _
  · exact fun hf => (hholds _).mpr (.inl hf)
  · exact fun hf => (hholds _).mpr (.inr hf)
  · exact fun hf => ((hholds _).mp hf).imp_right .inl

/-- Symbols that are opened may be closed with an edge. -/
theorem Valid.addEdge (h : b.Valid opened s)
    (hres : b.graph.Resolves b.setting (s.graph.addEdge e)) (harray : e.kind ≠ .arrayOf)
    {opened' : List SymbolId} (hsub : opened' ⊆ opened)
    (htyped : e.kind = .typedAs ∨ e.kind = .returnType → e.source ∉ opened' ∧
      (e.source < b.size → s.graph.isResolved e.source))
    (hbased : e.kind = .extends ∨ e.kind = .implements →
      s.graph.isResolved (b.baseOwner e.source))
    (haliased : ∀ {a}, b.graph.kind? a = some .alias → s.graph.isResolved a → a ∉ opened' →
      (s.graph.addEdge e).targets a .typedAs = [b.aliasValue a] ∧
        b.aliasReports a ⊆ s.diagnostics) :
    b.Valid opened' (s.setGraph (s.graph.addEdge e)) := by
  have hedge {e' : Edge} (hc : e'.kind ≠ .containedBy) :
      (s.graph.addEdge e).hasEdge e' ↔ s.graph.hasEdge e' ∨ e' = e := by
    rw [hasEdge_addEdge hs ht]
    refine or_congr_right ⟨fun he => he.resolve_right ?_, .inl⟩
    rintro ⟨-, rfl⟩
    exact hc rfl
  have hresolved (x : SymbolId) : (s.graph.addEdge e).isResolved x = s.graph.isResolved x :=
    isResolved_addEdge s.graph e x
  refine h.rewrite (s.setGraph (s.graph.addEdge e)) hres rfl (label?_addEdge s.graph e)
    (fun hr => (hresolved _).trans hr) (fun hk => ?_) (fun he hk => ?_) (fun he hk => ?_)
    (fun ha hr hn => ?_) fun x hx => ?_
  · refine (hedge (by simp [hk])).trans (or_iff_left ?_)
    rintro rfl
    exact harray hk
  · rw [Scene.graph_setGraph, hresolved]
    rcases (hedge (by rcases hk with hk | hk <;> simp [hk])).mp he with he | rfl
    · exact ⟨fun hmem => (h.typed he hk).1 (hsub hmem), (h.typed he hk).2⟩
    · exact htyped hk
  · rw [Scene.graph_setGraph, hresolved]
    rcases (hedge (by rcases hk with hk | hk <;> simp [hk])).mp he with he | rfl
    · exact h.based he hk
    · exact hbased hk
  · exact haliased ha ((hresolved _).symm.trans hr) hn
  · rw [Scene.graph_setGraph, hresolved]
    exact h.opened_lt x (hsub hx)

/-- An edge that gives nothing a type. -/
theorem Valid.link (h : b.Valid opened s)
    (hres : b.graph.Resolves b.setting (s.graph.addEdge e)) (harray : e.kind ≠ .arrayOf)
    (hplain : e.kind ≠ .typedAs ∧ e.kind ≠ .returnType)
    (hbased : e.kind = .extends ∨ e.kind = .implements →
      s.graph.isResolved (b.baseOwner e.source)) :
    b.Valid opened (s.setGraph (s.graph.addEdge e)) := by
  refine h.addEdge hs ht hres harray (List.Subset.refl _) (fun hk => ?_) hbased fun ha hr hn => ?_
  · exact absurd hk (not_or.mpr hplain)
  · rw [targets_addEdge_of_ne (fun _ => hplain.1) (by simp)]
    exact h.aliased ha hr hn

/-- A symbol is given its type and is closed. -/
theorem Valid.type (h : b.Valid (x :: opened) s)
    (hres : b.graph.Resolves b.setting (s.graph.addEdge e))
    (hk : e.kind = .typedAs ∨ e.kind = .returnType) (hx : e.source = x) (hclosed : x ∉ opened)
    (hsettled : b.graph.kind? x = some .alias → e.kind = .typedAs ∧ e.target = b.aliasValue x ∧
      b.aliasReports x ⊆ s.diagnostics) :
    b.Valid opened (s.setGraph (s.graph.addEdge e)) := by
  have hopen : x ∈ x :: opened := List.mem_cons_self
  refine h.addEdge hs ht hres ?_ (List.subset_cons_self x opened) (fun _ => ?_) (fun hb => ?_)
    fun {a} ha hr hn => ?_
  · rcases hk with hk | hk <;> simp [hk]
  · exact hx ▸ ⟨hclosed, (h.opened_lt x hopen).2⟩
  · rcases hk with hk | hk <;> simp [hk] at hb
  · by_cases hax : a = x
    · obtain ⟨hkind, htarget, hds⟩ := hsettled (hax ▸ ha)
      have hnone : s.graph.targets e.source e.kind = [] := by
        refine List.eq_nil_iff_forall_not_mem.mpr fun y hy => ?_
        exact (h.typed (h.wellFormed.mem_targets_iff.mp hy) hk).1 (hx ▸ hopen)
      have htargets := targets_addEdge_of_nil hs (by simp [hkind, EdgeKind.isMembership]) hnone
      rw [hax, ← hx, ← hkind, htargets, htarget, hx]
      exact ⟨rfl, hds⟩
    · rw [targets_addEdge_of_ne (fun hsource => absurd (hsource.symm.trans hx) hax) (by simp)]
      exact h.aliased ha hr (List.not_mem_cons_of_ne_of_not_mem hax hn)

end AddEdge

/-! ### New symbols -/

section Make

variable {o : Origin} {name : String} {kind : SymbolKind} {flags : Flags SymbolFlag}

theorem graph_make : (s.make o name kind flags).graph = s.graph.alloc name kind flags := rfl

theorem origin_make_of_lt (hx : x < s.graph.size) :
    (s.make o name kind flags).origin x = s.origin x :=
  if_neg (Nat.ne_of_lt hx)

theorem origin_make : (s.make o name kind flags).origin s.graph.size = o := if_pos rfl

theorem places_make : (s.make o name kind flags).Places s.graph.size o { name, kind, flags } where
  lt_size := by
    rw [graph_make, size_alloc]
    exact Nat.lt_succ_self _
  origin := origin_make
  label? := by rw [graph_make, label?_alloc, if_pos rfl]

theorem hasEdge_make (e : Edge) :
    (s.make o name kind flags).graph.hasEdge e = s.graph.hasEdge e := by
  simp only [graph_make, hasEdge, outgoing_alloc]

theorem label?_make (y : SymbolId) : (s.make o name kind flags).graph.label? y =
    if y = s.graph.size then some { name, kind, flags } else s.graph.label? y :=
  label?_alloc s.graph name kind flags y

theorem holds_symbol_make (h : b.Valid opened s) {o' : Origin} {label : Symbol} :
    b.Holds (s.make o name kind flags) (.symbol o' label) ↔
      b.Holds s (.symbol o' label) ∨ o' = o ∧ label = { name, kind, flags } := by
  simp only [Holds, label?_make]
  constructor
  · rintro ⟨x, hx, ho, hl⟩
    by_cases hlast : x = s.graph.size
    · subst hlast
      rw [origin_make] at ho
      rw [if_pos rfl, Option.some.injEq] at hl
      exact .inr ⟨ho.symm, hl.symm⟩
    · rw [if_neg hlast] at hl
      exact .inl ⟨x, hx, (if_neg hlast).symm.trans ho, hl⟩
  · rintro (⟨x, hx, ho, hl⟩ | ⟨rfl, rfl⟩)
    · have hlast : x ≠ s.graph.size := by
        rintro rfl
        have hsome := isSome_label? s.graph s.graph.size
        rw [hl] at hsome
        simp at hsome
      exact ⟨x, hx, (if_neg hlast).trans ho, (if_neg hlast).trans hl⟩
    · exact ⟨s.graph.size, h.size_le, origin_make, if_pos rfl⟩

theorem holds_make (h : b.Valid opened s) (f : Fact) : b.Holds (s.make o name kind flags) f ↔
    b.Holds s f ∨ f = .symbol o { name, kind, flags } := by
  cases f with
  | symbol o' label =>
      rw [holds_symbol_make h, Fact.symbol.injEq]
  | edge o' kind' o'' =>
      simp only [Holds, hasEdge_make, reduceCtorEq, or_false]
      refine exists_congr fun x => exists_congr fun y => ?_
      rw [← and_assoc, ← and_assoc]
      refine and_congr_left fun he => ?_
      obtain ⟨hx, hy⟩ := h.wellFormed.lt_size he
      rw [origin_make_of_lt hx, origin_make_of_lt hy]
  | marked x => simp [Holds, graph_make]
  | reported d => simp [Holds, Scene.make]

theorem leads_make (h : b.Valid opened s) :
    b.Leads {.symbol o { name, kind, flags }} s (s.make o name kind flags) where
  size_le := by
    rw [graph_make, size_alloc]
    exact Nat.le_succ _
  origin hx := origin_make_of_lt hx
  label hx := (label?_make _).trans (if_neg (Nat.ne_of_lt hx))
  keeps hf := (holds_make h _).mpr (.inl hf)
  adds hf := (holds_make h _).mpr (.inr hf)
  only hf := ((holds_make h _).mp hf).imp_right .inl

end Make

/-- The second scene has one more symbol, which may be the array type of another one. -/
structure HasNew (b : Start) (s s' : Scene) (o : Origin) : Prop where
  resolves : b.graph.Resolves b.setting s'.graph
  size : s'.graph.size = s.graph.size + 1
  old : ∀ {y}, y < s.graph.size → s'.origin y = s.origin y
  last : s'.origin s.graph.size = o
  fresh : ∀ y < s.graph.size, s.origin y ≠ o
  given : ∀ z, o ≠ .given z
  owned : ∀ {z n}, o = .made z n → s.graph.isResolved z
  element : ∀ {o'}, o = .array o' → ∃ y < s.graph.size, s.origin y = o'
  label : ∀ {y}, y < s.graph.size → s'.graph.label? y = s.graph.label? y
  marks : ∀ y, s'.graph.isResolved y = s.graph.isResolved y
  edge : ∀ {e : Edge}, e.kind ≠ .arrayOf → (s'.graph.hasEdge e ↔ s.graph.hasEdge e)
  targets : ∀ y, s'.graph.targets y .typedAs = s.graph.targets y .typedAs
  array : ∀ {y z}, s'.graph.hasEdge ⟨y, z, .arrayOf⟩ ↔ s.graph.hasEdge ⟨y, z, .arrayOf⟩ ∨
    y = s.graph.size ∧ z < s.graph.size ∧ o = .array (s.origin z)
  arrayLabel : ∀ {z}, z < s.graph.size → o = .array (s.origin z) →
    s'.graph.label? s.graph.size = some (Symbol.arrayType (s.graph.name z))
  diagnostics : s'.diagnostics = s.diagnostics

namespace HasNew

variable {o : Origin} {y z : SymbolId} (hnew : b.HasNew s s' o) (h : b.Valid opened s)

include hnew

theorem eq_or_lt (hy : y < s'.graph.size) : y = s.graph.size ∨ y < s.graph.size := by
  rw [hnew.size] at hy
  exact (Nat.lt_succ_iff_lt_or_eq.mp hy).symm

theorem lt_size (hy : y < s.graph.size) : y < s'.graph.size :=
  hnew.size ▸ Nat.lt_succ_of_lt hy

include h

theorem injective (hy : y < s'.graph.size) (hz : z < s'.graph.size)
    (ho : s'.origin y = s'.origin z) : y = z := by
  rcases hnew.eq_or_lt hy with rfl | hy <;> rcases hnew.eq_or_lt hz with rfl | hz
  · rfl
  · rw [hnew.last, hnew.old hz] at ho
    exact absurd ho.symm (hnew.fresh z hz)
  · rw [hnew.last, hnew.old hy] at ho
    exact absurd ho (hnew.fresh y hy)
  · rw [hnew.old hy, hnew.old hz] at ho
    exact h.injective hy hz ho

/-- An array type is after its element type, so the new symbol is of no type that was there. -/
theorem hasEdge_arrayOf_iff (hy : y < s'.graph.size) (hz : z < s'.graph.size) :
    s'.graph.hasEdge ⟨y, z, .arrayOf⟩ ↔ s'.origin y = .array (s'.origin z) := by
  rw [hnew.array]
  rcases hnew.eq_or_lt hy with rfl | hy
  · have hnone : ¬s.graph.hasEdge ⟨s.graph.size, z, .arrayOf⟩ := fun he =>
      Nat.lt_irrefl _ (h.wellFormed.lt_size he).1
    rw [hnew.last, or_iff_right hnone]
    rcases hnew.eq_or_lt hz with rfl | hz
    · rw [hnew.last]
      refine ⟨fun ho => absurd ho.2.1 (Nat.lt_irrefl _), fun ho => ?_⟩
      have hsame := congrArg sizeOf ho
      simp at hsame
    · rw [hnew.old hz]
      exact ⟨fun ho => ho.2.2, fun ho => ⟨rfl, hz, ho⟩⟩
  · rw [hnew.old hy, or_iff_left fun ho => Nat.ne_of_lt hy ho.1]
    rcases hnew.eq_or_lt hz with rfl | hz
    · rw [hnew.last]
      refine ⟨fun he => absurd (h.wellFormed.lt_size he).2 (Nat.lt_irrefl _), fun ho => ?_⟩
      obtain ⟨w, hw, how⟩ := h.element hy ho
      exact absurd how (hnew.fresh w hw)
    · rw [hnew.old hz]
      exact h.array hy hz

theorem exists_element {o' : Origin} (hy : y < s'.graph.size) (ho : s'.origin y = .array o') :
    ∃ z < s'.graph.size, s'.origin z = o' := by
  have hold : ∃ z < s.graph.size, s.origin z = o' := by
    rcases hnew.eq_or_lt hy with rfl | hy
    · exact hnew.element (hnew.last.symm.trans ho)
    · exact h.element hy ((hnew.old hy).symm.trans ho)
  obtain ⟨z, hz, hzo⟩ := hold
  exact ⟨z, hnew.lt_size hz, (hnew.old hz).trans hzo⟩

theorem label?_array (he : s'.graph.hasEdge ⟨y, z, .arrayOf⟩) :
    s'.graph.label? y = some (Symbol.arrayType (s'.graph.name z)) := by
  rcases hnew.array.mp he with he | ⟨rfl, hz, ho⟩
  · obtain ⟨hy, hz⟩ := h.wellFormed.lt_size he
    rw [hnew.label hy, name_congr (hnew.label hz)]
    exact h.arrayLabel he
  · rw [name_congr (hnew.label hz)]
    exact hnew.arrayLabel hz ho

end HasNew

theorem Valid.extend {o : Origin} (h : b.Valid opened s) (hnew : b.HasNew s s' o) :
    b.Valid opened s' where
  resolves := hnew.resolves
  given hx := (hnew.old (h.lt_size hx)).trans (h.given hx)
  injective := hnew.injective h
  later {y z} hle hy := by
    rcases hnew.eq_or_lt hy with rfl | hy
    · exact hnew.last ▸ hnew.given z
    · exact hnew.old hy ▸ h.later hle hy
  array := hnew.hasEdge_arrayOf_iff h
  element := hnew.exists_element h
  arrayLabel := hnew.label?_array h
  owned {y _ _} hy ho := by
    rw [hnew.marks]
    rcases hnew.eq_or_lt hy with rfl | hy
    · exact hnew.owned (hnew.last.symm.trans ho)
    · exact h.owned hy ((hnew.old hy).symm.trans ho)
  typed he hk := by
    rw [hnew.marks]
    exact h.typed ((hnew.edge (by rcases hk with hk | hk <;> simp [hk])).mp he) hk
  based he hk := by
    rw [hnew.marks]
    exact h.based ((hnew.edge (by rcases hk with hk | hk <;> simp [hk])).mp he) hk
  aliased {a} ha hr hn := by
    rw [hnew.targets, hnew.diagnostics]
    exact h.aliased ha (hnew.marks a ▸ hr) hn
  opened_lt y hy := by
    rw [hnew.marks]
    exact ⟨hnew.lt_size (h.opened_lt y hy).1, (h.opened_lt y hy).2⟩

/-- A new symbol for the type of a symbol that is being resolved. -/
theorem Valid.make (h : b.Valid opened s) {owner : SymbolId} {n : Nat} {name : String}
    {kind : SymbolKind} {flags : Flags SymbolFlag} (howner : s.graph.isResolved owner)
    (hfresh : ∀ y < s.graph.size, s.origin y ≠ .made owner n) (hflags : flags.has .synthesized)
    (hplain : ¬flags.has .wellKnown) :
    b.Valid opened (s.make (.made owner n) name kind flags) := by
  have hmake : b.graph.Resolves b.setting (s.make (.made owner n) name kind flags).graph :=
    h.resolves.change (.make name kind flags hflags hplain)
  refine h.extend (o := .made owner n) {
    resolves := hmake
    size := size_alloc _ _ _ _
    old := origin_make_of_lt
    last := origin_make
    fresh := hfresh
    given := by simp
    owned := ?_
    element := by simp
    label := (leads_make h).label
    marks := isResolved_alloc _ _ _ _
    edge := fun _ => by rw [hasEdge_make]
    targets := fun y => ?_
    array := ?_
    arrayLabel := by simp
    diagnostics := rfl }
  · rintro z m heq
    obtain ⟨rfl, -⟩ := Origin.made.inj heq
    exact howner
  · rw [graph_make, targets_eq, outgoing_alloc, ← targets_eq]
  · intro y z
    rw [hasEdge_make]
    simp

/-! ### Array types -/

section MakeArray

theorem origin_makeArray_of_lt {y : SymbolId} (hy : y < s.graph.size) :
    (s.makeArray x).origin y = s.origin y := if_neg (Nat.ne_of_lt hy)

theorem origin_makeArray : (s.makeArray x).origin s.graph.size = .array (s.origin x) := if_pos rfl

theorem hasEdge_makeArray (hx : x < s.graph.size) {e : Edge} : (s.makeArray x).graph.hasEdge e ↔
    s.graph.hasEdge e ∨ e = ⟨s.graph.size, x, .arrayOf⟩ := by
  have hlast := ResolveM.lt_size_alloc s.graph (s.graph.name x ++ "[]") .array (Flags.single .synthesized)
  refine (hasEdge_addEdge hlast (Nat.lt_trans hx hlast)).trans ?_
  simp [hasEdge, outgoing_alloc, EdgeKind.isMembership]

theorem places_makeArray (s : Scene) (x : SymbolId) : (s.makeArray x).Places s.graph.size
    (.array (s.origin x)) (.arrayType (s.graph.name x)) where
  lt_size := Nat.lt_of_lt_of_eq places_make.lt_size (size_addEdge _ _).symm
  origin := origin_makeArray
  label? := (label?_addEdge _ _ _).trans places_make.label?

theorem leads_makeArray (h : b.Valid opened s) (hx : x < s.graph.size) : b.Leads
    {.symbol (.array (s.origin x)) (.arrayType (s.graph.name x)),
      .edge (.array (s.origin x)) .arrayOf (s.origin x)} s (s.makeArray x) := by
  let made :=
    s.make (.array (s.origin x)) (s.graph.name x ++ "[]") .array (Flags.single .synthesized)
  have hmade : b.Leads {.symbol (.array (s.origin x)) (.arrayType (s.graph.name x))} s made :=
    leads_make h
  have hlast : s.graph.size < made.graph.size := ResolveM.lt_size_alloc _ _ _ _
  have hadd := leads_addEdge (s := made) (e := ⟨s.graph.size, x, .arrayOf⟩) hlast
    (Nat.lt_trans hx hlast) b
  refine (hmade.trans hadd).congr fun f => ?_
  rw [show made.origin s.graph.size = .array (s.origin x) from origin_make,
    show made.origin x = s.origin x from origin_make_of_lt hx]
  simp only [edgeFacts, EdgeKind.isMembership, Bool.false_eq_true, false_and, or_false]
  exact Iff.rfl

variable (h : b.Valid opened s) (hx : x < s.graph.size) (hnone : s.graph.arrayTypes x = [])

include h hx hnone

/-- No symbol comes from where the array type will come from. -/
theorem origin_ne_array {y : SymbolId} (hy : y < s.graph.size) :
    s.origin y ≠ .array (s.origin x) := by
  intro ho
  have hmem : y ∈ s.graph.arrayTypes x :=
    h.wellFormed.mem_sources_iff.mpr ((h.array hy hx).mpr ho)
  rw [hnone] at hmem
  exact absurd hmem List.not_mem_nil

theorem resolves_makeArray : b.graph.Resolves b.setting (s.makeArray x).graph := by
  have hmake := h.resolves.change (.make (s.graph.name x ++ "[]") .array
    (Flags.single .synthesized) (by decide) (by decide))
  have hlast := ResolveM.lt_size_alloc s.graph (s.graph.name x ++ "[]") .array (Flags.single .synthesized)
  refine hmake.change (.array ⟨s.graph.size, x, .arrayOf⟩ rfl hlast (Nat.lt_trans hx hlast)
    h.size_le ?_ ?_)
  · rw [sources_eq, incoming_alloc, ← sources_eq]
    exact hnone
  · rw [SymbolGraph.kind?_eq, label?_alloc, if_pos rfl]
    rfl

theorem hasNew_makeArray : b.HasNew s (s.makeArray x) (.array (s.origin x)) where
  resolves := resolves_makeArray h hx hnone
  size := (size_addEdge _ _).trans (size_alloc _ _ _ _)
  old := origin_makeArray_of_lt
  last := origin_makeArray
  fresh _ hy := origin_ne_array h hx hnone hy
  given := by simp
  owned := by simp
  element heq := ⟨x, hx, Origin.array.inj heq⟩
  label := (leads_makeArray h hx).label
  marks _ := (isResolved_addEdge _ _ _).trans (isResolved_alloc _ _ _ _ _)
  edge hk := by
    rw [hasEdge_makeArray hx]
    refine or_iff_left ?_
    rintro rfl
    exact hk rfl
  targets y := by
    refine (targets_addEdge_of_ne (by simp) (by simp)).trans ?_
    rw [graph_make, targets_eq, outgoing_alloc, ← targets_eq]
  array := by
    intro y z
    rw [hasEdge_makeArray hx, Edge.mk.injEq]
    refine or_congr_right ⟨?_, ?_⟩
    · rintro ⟨rfl, rfl, -⟩
      exact ⟨rfl, hx, rfl⟩
    · rintro ⟨rfl, hz, ho⟩
      exact ⟨rfl, h.injective hz hx (Origin.array.inj ho).symm, rfl⟩
  arrayLabel hz ho := by
    rw [(places_makeArray s x).label?, h.injective hz hx (Origin.array.inj ho).symm]
  diagnostics := rfl

/-- An element type that has no array type gets one. -/
theorem Valid.makeArray : b.Valid opened (s.makeArray x) :=
  h.extend (hasNew_makeArray h hx hnone)

end MakeArray

end Start

end NameBinding
