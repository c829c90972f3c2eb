import Mathlib.Data.Finset.Card
import NameBinding.Proofs.Bind.Sound
import NameBinding.Proofs.Graph.Query
import NameBinding.Proofs.Resolve.Steps
import NameBinding.Proofs.Tree.Below

/-! # Graphs in which everything can be answered

Resolving relies on declarations and instance sides that are there, on array types that are unique,
and on documents that are trees. Every step of resolving keeps what it relies on. -/

namespace NameBinding

open SymbolGraph

namespace SymbolGraph

variable {g g' g'' : SymbolGraph} {x : SymbolId} {kind : SymbolKind}

/-- The second graph has the symbols of the first one, with their declarations and marks. -/
structure Follows (g g' : SymbolGraph) : Prop where
  size_le : g.size ≤ g'.size
  label? : ∀ {x}, x < g.size → g'.label? x = g.label? x
  declarations : ∀ x, g'.declarations x = g.declarations x
  isResolved : ∀ {x}, g.isResolved x → g'.isResolved x

namespace Follows

theorem refl (g : SymbolGraph) : g.Follows g :=
  ⟨Nat.le_refl _, fun _ => rfl, fun _ => rfl, fun h => h⟩

theorem trans (h : g.Follows g') (h' : g'.Follows g'') : g.Follows g'' where
  size_le := Nat.le_trans h.size_le h'.size_le
  label? hx := (h'.label? (Nat.lt_of_lt_of_le hx h.size_le)).trans (h.label? hx)
  declarations x := (h'.declarations x).trans (h.declarations x)
  isResolved hr := h'.isResolved (h.isResolved hr)

theorem lt_size (h : g.Follows g') (hx : x < g.size) : x < g'.size :=
  Nat.lt_of_lt_of_le hx h.size_le

theorem kind? (h : g.Follows g') (hk : g.kind? x = some kind) : g'.kind? x = some kind :=
  (kind?_congr (h.label? (lt_size_of_kind? hk))).trans hk

/-- Changes that no label sees. -/
theorem of_label? (hlabel : ∀ x, g'.label? x = g.label? x)
    (hmark : ∀ {x}, g.isResolved x → g'.isResolved x) : g.Follows g' where
  size_le := Nat.le_of_eq (size_eq_of_label? hlabel).symm
  label? _ := hlabel _
  declarations x := declarations_congr (hlabel x)
  isResolved := hmark

theorem alloc (g : SymbolGraph) (name : String) (kind : SymbolKind) (flags : Flags SymbolFlag) :
    g.Follows (g.alloc name kind flags) where
  size_le := by simp
  label? hx := by rw [label?_alloc, if_neg (Nat.ne_of_lt hx)]
  declarations x := declarations_alloc g name kind flags x
  isResolved hr := by rwa [isResolved_alloc]

theorem addEdge (g : SymbolGraph) (e : Edge) : g.Follows (g.addEdge e) :=
  of_label? (label?_addEdge g e) fun hr => by rwa [isResolved_addEdge]

theorem removeEdge (g : SymbolGraph) (e : Edge) : g.Follows (g.removeEdge e) :=
  of_label? (label?_removeEdge g e) fun hr => by rwa [isResolved_removeEdge]

theorem mark (g : SymbolGraph) (x : SymbolId) : g.Follows (g.setResolved x true) :=
  of_label? (label?_setResolved g x true) fun hr => (isResolved_setResolved g x _).mpr (.inl hr)

end Follows

/-- The symbols before a bound that are not resolved. -/
def unresolvedBelow (g : SymbolGraph) (n : Nat) : Finset SymbolId :=
  (Finset.range n).filter (¬g.isResolved ·)

/-- A symbol that is marked is one less to resolve, whatever follows. -/
theorem card_unresolvedBelow_lt {n : Nat} (hx : x < g.size) (hn : x < n) (hnew : ¬g.isResolved x)
    (hf : (g.setResolved x true).Follows g') :
    (g'.unresolvedBelow n).card < (g.unresolvedBelow n).card := by
  refine Finset.card_lt_card ⟨fun y hy => ?_, fun hsub => ?_⟩
  · obtain ⟨hyn, hy⟩ := Finset.mem_filter.mp hy
    exact Finset.mem_filter.mpr ⟨hyn, fun hr => hy (((Follows.mark g x).trans hf).isResolved hr)⟩
  · have hmem := hsub (Finset.mem_filter.mpr ⟨Finset.mem_range.mpr hn, hnew⟩)
    refine (Finset.mem_filter.mp hmem).2 (hf.isResolved ?_)
    exact (isResolved_setResolved g x x).mpr (.inr ⟨rfl, hx⟩)

/-- The symbol exists, and if it is a class it is declared. -/
def Stands (g : SymbolGraph) (x : SymbolId) : Prop :=
  x < g.size ∧ (g.kind? x = some .classType → g.declarations x ≠ [])

theorem Stands.of_kind (h : g.kind? x = some kind) (hne : kind ≠ .classType) : g.Stands x :=
  ⟨lt_size_of_kind? h, fun hk => absurd (Option.some.inj (h.symm.trans hk)) hne⟩

theorem Stands.of_declared (h : g.declarations x ≠ []) : g.Stands x := by
  obtain ⟨d, hd⟩ := List.exists_mem_of_ne_nil _ h
  exact ⟨lt_size_of_mem_declarations hd, fun _ => h⟩

theorem Stands.follows (h : g.Stands x) (hf : g.Follows g') : g'.Stands x := by
  refine ⟨hf.lt_size h.1, fun hk => ?_⟩
  rw [kind?_congr (hf.label? h.1)] at hk
  rw [hf.declarations]
  exact h.2 hk

/-- What has a type has one that stands. -/
def Targeted (g : SymbolGraph) : Prop :=
  ∀ {e : Edge}, g.hasEdge e → e.kind = .typedAs → g.Stands e.target

/-- What a type node can denote. A function can be denoted if it was made for a node. -/
def DenotesType (g : SymbolGraph) (x : SymbolId) : Prop :=
  ∃ kind, g.kind? x = some kind ∧
    (kind ∈ [.primitive, .error, .instanceType, .interface, .typeLiteral, .array] ∨
      kind = .function ∧ g.has x .synthesized)

theorem DenotesType.of_kind (h : g.kind? x = some kind) (hmem : kind ∈
    [.primitive, .error, .instanceType, .interface, .typeLiteral, .array]) : g.DenotesType x :=
  ⟨kind, h, .inl hmem⟩

theorem DenotesType.stands (h : g.DenotesType x) : g.Stands x := by
  obtain ⟨kind, hk, hkind⟩ := h
  refine .of_kind hk ?_
  rintro rfl
  simp at hkind

theorem DenotesType.follows (h : g.DenotesType x) (hf : g.Follows g') : g'.DenotesType x := by
  obtain ⟨kind, hk, hkind⟩ := h
  refine ⟨kind, hf.kind? hk, ?_⟩
  rwa [has_congr (hf.label? (lt_size_of_kind? hk))]

end SymbolGraph

/-- No document has a node below itself. -/
def Program.HasTrees (p : Program) : Prop := ∀ u ∈ p.units, u.tree.IsTree

/-- The tree is that of a unit. -/
def Program.IsUnitTree (p : Program) (t : DocTree) : Prop := ∃ u ∈ p.units, u.tree = t

/-- The failure of a step that would go on without end. -/
def BindError.isEndless : BindError → Bool
  | .endlessTypeNode _ | .endlessHeritage _ => true
  | _ => false

/-- What resolving relies on in order to succeed. -/
structure Answerable (setting : Setting) (g : SymbolGraph) : Prop where
  sound : Binding.Sound ⟨g, setting.program⟩
  initial : ∀ {x}, x < WellKnown.count → g.label? x = WellKnown.graph.label? x
  arrayKind : ∀ {e : Edge}, g.hasEdge e → e.kind = .arrayOf → g.kind? e.source = some .array
  targeted : g.Targeted

namespace Answerable

variable {setting : Setting} {g g' : SymbolGraph} {x : SymbolId}

theorem mirrored (h : Answerable setting g) : g.Mirrored := h.sound.graph.toMirrored

/-- A class that is declared has an instance side. -/
theorem exists_instanceType? (h : Answerable setting g) (hx : g.Stands x)
    (hk : g.kind? x = some .classType) : ∃ inst, g.instanceType? x = some inst := by
  obtain ⟨d, hd⟩ := List.exists_mem_of_ne_nil _ (hx.2 hk)
  obtain ⟨_, hside⟩ := h.sound.graph.hasSide hk hd
  exact SymbolGraph.exists_instanceType? h.mirrored hside

/-! ### What is there from the start -/

theorem kind?_error (h : Answerable setting g) : g.kind? WellKnown.error = some .error := by
  rw [kind?_congr (h.initial (by decide))]
  rfl

theorem kind?_any (h : Answerable setting g) : g.kind? WellKnown.any = some .primitive := by
  rw [kind?_congr (h.initial (by decide))]
  rfl

theorem denotesType_error (h : Answerable setting g) : g.DenotesType WellKnown.error :=
  .of_kind h.kind?_error (by decide)

theorem denotesType_any (h : Answerable setting g) : g.DenotesType WellKnown.any :=
  .of_kind h.kind?_any (by decide)

theorem denotesType_keyword (h : Answerable setting g) (kind : NodeKind) :
    g.DenotesType ((WellKnown.ofKeyword? kind).getD WellKnown.any) := by
  cases hk : WellKnown.ofKeyword? kind with
  | none => exact h.denotesType_any
  | some x =>
      have hx : x < 7 := (List.findIdx?_eq_some_iff_getElem.mp hk).1
      have hprimitive : ∀ x < 7, WellKnown.graph.kind? x = some .primitive := by decide
      refine .of_kind ?_ List.mem_cons_self
      rw [Option.getD_some, kind?_congr (h.initial (Nat.lt_trans hx (by decide)))]
      exact hprimitive x hx

/-! ### Changes -/

/-- Array types stay array types, and what has a type stands for something. -/
theorem follows (h : Answerable setting g) (hg : g'.Sound) (hf : g.Follows g')
    (harray : ∀ {e : Edge}, g'.hasEdge e → e.kind = .arrayOf →
      g.hasEdge e ∨ g'.kind? e.source = some .array)
    (htyped : ∀ {e : Edge}, g'.hasEdge e → e.kind = .typedAs → g.hasEdge e ∨ g'.Stands e.target) :
    Answerable setting g' where
  sound := h.sound.setGraph hg hf.declarations
  initial {x} hx := by
    have hsome := isSome_label? WellKnown.graph x
    rw [← h.initial hx, isSome_label?, WellKnown.size_graph, decide_eq_true hx] at hsome
    exact (hf.label? (of_decide_eq_true hsome)).trans (h.initial hx)
  arrayKind he hk := (harray he hk).elim (fun he => hf.kind? (h.arrayKind he hk)) id
  targeted he hk := (htyped he hk).elim (fun he => (h.targeted he hk).follows hf) id

theorem alloc (h : Answerable setting g) (name : String) (kind : SymbolKind)
    (flags : Flags SymbolFlag) : Answerable setting (g.alloc name kind flags) := by
  have hedge : ∀ {e : Edge}, (g.alloc name kind flags).hasEdge e → g.hasEdge e := fun he => by
    simpa only [hasEdge, outgoing_alloc] using he
  exact h.follows (h.sound.graph.alloc name kind flags) (.alloc g name kind flags)
    (fun he _ => .inl (hedge he)) fun he _ => .inl (hedge he)

theorem mark (h : Answerable setting g) (x : SymbolId) :
    Answerable setting (g.setResolved x true) := by
  have hedge : ∀ {e : Edge}, (g.setResolved x true).hasEdge e → g.hasEdge e := fun he => by
    rwa [hasEdge_setResolved] at he
  exact h.follows (h.sound.graph.setResolved x true) (.mark g x) (fun he _ => .inl (hedge he))
    fun he _ => .inl (hedge he)

/-- An edge that makes no array type and no instance side. -/
theorem addEdge (h : Answerable setting g) {e : Edge} (hs : e.source < g.size)
    (ht : e.target < g.size) (harray : e.kind ≠ .arrayOf) (hside : e.kind ≠ .instanceType)
    (htyped : e.kind = .typedAs → g.Stands e.target) : Answerable setting (g.addEdge e) := by
  have hedge : ∀ {x : Edge}, (g.addEdge e).hasEdge x → x.kind ≠ .containedBy →
      g.hasEdge x ∨ x = e := by
    intro x hx hk
    obtain hx | hx | ⟨-, rfl⟩ := (hasEdge_addEdge hs ht).mp hx
    · exact .inl hx
    · exact .inr hx
    · exact absurd rfl hk
  refine h.follows (h.sound.graph.addEdge hs ht harray hside) (.addEdge g e) (fun hx hk => ?_)
    fun hx hk => ?_
  · refine .inl ((hedge hx (by simp [hk])).resolve_right ?_)
    rintro rfl
    exact harray hk
  · refine (hedge hx (by simp [hk])).imp_right ?_
    rintro rfl
    exact (htyped hk).follows (.addEdge g _)

/-- The first array type of an element type. -/
theorem addArray (h : Answerable setting g) {e : Edge} (hs : e.source < g.size)
    (ht : e.target < g.size) (hk : e.kind = .arrayOf) (hfirst : g.sources e.target .arrayOf = [])
    (harray : g.kind? e.source = some .array) : Answerable setting (g.addEdge e) := by
  have hedge : ∀ {x : Edge}, (g.addEdge e).hasEdge x → g.hasEdge x ∨ x = e := fun hx =>
    (hasEdge_addEdge_of_plain hs ht (by simp [hk, EdgeKind.isMembership])).mp hx
  refine h.follows (h.sound.graph.addArray hs ht hk hfirst) (.addEdge g e) (fun {x} hx hxk => ?_)
    fun hx hxk => ?_
  · refine (hedge hx).imp_right ?_
    rintro rfl
    exact (Follows.addEdge g _).kind? harray
  · refine .inl ((hedge hx).resolve_right ?_)
    rintro rfl
    simp [hk] at hxk

theorem removeEdge (h : Answerable setting g) {e : Edge} (hk : e.kind.isResolution) :
    Answerable setting (g.removeEdge e) := by
  have hg := h.sound.graph.toWellFormed
  have hsound : (g.removeEdge e).Sound :=
    Resolves.sound (.change (.refl setting g) (.drop e hk)) h.sound.graph
  exact h.follows hsound (.removeEdge g e) (fun he _ => .inl (hg.hasEdge_removeEdge.mp he).1)
    fun he _ => .inl (hg.hasEdge_removeEdge.mp he).1

theorem removeTargets (h : Answerable setting g) (x : SymbolId) {kind : EdgeKind}
    (hk : kind.isResolution) (ends : List SymbolId) :
    Answerable setting (g.removeTargets x kind ends) ∧ g.Follows (g.removeTargets x kind ends) :=
  removeTargets_induction (P := fun g' => Answerable setting g' ∧ g.Follows g')
    (fun g' _ hg' => ⟨hg'.1.removeEdge hk, hg'.2.trans (.removeEdge g' _)⟩) ends ⟨h, .refl g⟩

end Answerable

namespace ResolveM

variable {setting : Setting} {g g' : SymbolGraph} {x : SymbolId} {α β : Type}

/-- From the graph the step succeeds and answers as stated, and everything can still be answered.
Only a document with a node below itself can keep it from ending. -/
def Succeeds (setting : Setting) (g : SymbolGraph) (m : ResolveM α)
    (post : α → SymbolGraph → Prop := fun _ _ => True) : Prop :=
  ∀ r, r.graph = g → match m r with
    | .ok a r' => Answerable setting r'.graph ∧ g.Follows r'.graph ∧ post a r'.graph
    | .error e r' => Answerable setting r'.graph ∧ e.isEndless ∧ ¬setting.program.HasTrees

namespace Succeeds

variable {m : ResolveM α} {Q : α → SymbolGraph → Prop} {post : β → SymbolGraph → Prop}

protected theorem weaken {Q' : α → SymbolGraph → Prop} (h : Succeeds setting g m Q)
    (hQ : ∀ a g', Answerable setting g' → g.Follows g' → Q a g' → Q' a g') :
    Succeeds setting g m Q' := by
  intro r hr
  have hm := h r hr
  split at hm
  · exact ⟨hm.1, hm.2.1, hQ _ _ hm.1 hm.2.1 hm.2.2⟩
  · exact hm

protected theorem pure (ha : Answerable setting g) {a : α} (h : Q a g) :
    Succeeds setting g (pure a) Q := by
  rintro r rfl
  exact ⟨ha, .refl _, h⟩

protected theorem bind {f : α → ResolveM β} (h : Succeeds setting g m Q)
    (hf : ∀ a g', Answerable setting g' → g.Follows g' → Q a g' → Succeeds setting g' (f a) post) :
    Succeeds setting g (m >>= f) post := by
  intro r hr
  have hm := h r hr
  simp only [bind, EStateM.bind]
  split at hm
  · next a r' hmr =>
    rw [hmr]
    have hrun := hf a r'.graph hm.1 hm.2.1 hm.2.2 r' rfl
    dsimp only
    split at hrun
    · exact ⟨hrun.1, hm.2.1.trans hrun.2.1, hrun.2.2⟩
    · exact hrun
  · next hmr =>
    rw [hmr]
    exact hm

protected theorem graph_bind {f : SymbolGraph → ResolveM β} (h : Succeeds setting g (f g) post) :
    Succeeds setting g (graph >>= f) post := by
  rintro r rfl
  exact h r rfl

protected theorem modify {f : Resolution → Resolution} {Q : PUnit → SymbolGraph → Prop}
    (h : ∀ r, r.graph = g →
      Answerable setting (f r).graph ∧ g.Follows (f r).graph ∧ Q ⟨⟩ (f r).graph) :
    Succeeds setting g (modify f : ResolveM PUnit) Q := h

/-- What would go on without end, where a document has a node below itself. -/
protected theorem throw_endless (ha : Answerable setting g) {e : BindError} (he : e.isEndless)
    (htrees : ¬setting.program.HasTrees) : Succeeds setting g (throw e) Q := by
  rintro r rfl
  exact ⟨ha, he, htrees⟩

theorem contract (h : Succeeds setting g m Q) : Contract (fun r => r.graph = g) m
    (fun a r => Answerable setting r.graph ∧ g.Follows r.graph ∧ Q a r.graph)
    fun r => Answerable setting r.graph := by
  intro r hr
  have hm := h r hr
  cases hmr : m r with
  | ok a r' =>
      rw [hmr] at hm
      exact hm
  | error e r' =>
      rw [hmr] at hm
      exact hm.1

protected theorem forM {f : α → ResolveM PUnit} (ha : Answerable setting g) (as : List α)
    (h : ∀ a ∈ as, ∀ g', Answerable setting g' → g.Follows g' → Succeeds setting g' (f a)) :
    Succeeds setting g (as.forM f) := by
  induction as generalizing g with
  | nil => exact .pure ha True.intro
  | cons a as ih =>
      refine (h a List.mem_cons_self g ha (.refl g)).bind fun _ g₁ ha₁ hf _ => ih ha₁ ?_
      exact fun b hb g₂ ha₂ hf₂ => h b (List.mem_cons_of_mem a hb) g₂ ha₂ (hf.trans hf₂)

protected theorem findSomeM? {f : α → ResolveM (Option β)} {Q : Option β → SymbolGraph → Prop}
    (hnone : ∀ g', Q none g') (ha : Answerable setting g) (as : List α)
    (h : ∀ a ∈ as, ∀ g', Answerable setting g' → g.Follows g' → Succeeds setting g' (f a) Q) :
    Succeeds setting g (as.findSomeM? f) Q := by
  induction as generalizing g with
  | nil => exact .pure ha (hnone g)
  | cons a as ih =>
      refine (h a List.mem_cons_self g ha (.refl g)).bind fun b g₁ ha₁ hf hb => ?_
      cases b with
      | none =>
          refine ih ha₁ fun b hb g₂ ha₂ hf₂ => ?_
          exact h b (List.mem_cons_of_mem a hb) g₂ ha₂ (hf.trans hf₂)
      | some b => exact .pure ha₁ hb

/-- A step on the graph that succeeds. -/
protected theorem onGraph {step : GraphM α} {a : α} (hstep : step g = .ok a g')
    (ha : Answerable setting g') (hf : g.Follows g') :
    Succeeds setting g (onGraph step) fun a' g'' => a' = a ∧ g'' = g' := by
  rintro r rfl
  unfold ResolveM.onGraph
  rw [hstep]
  exact ⟨ha, hf, rfl, rfl⟩

end Succeeds

/-! ### Steps -/

theorem succeeds_report (ha : Answerable setting g) (d : Diagnostic) :
    Succeeds setting g (report d) := by
  refine Succeeds.modify fun r hr => ?_
  subst hr
  split
  · exact ⟨ha, .refl _, True.intro⟩
  · exact ⟨ha, .refl _, True.intro⟩

theorem succeeds_markResolved (ha : Answerable setting g) (x : SymbolId) :
    Succeeds setting g (markResolved x) fun _ g' => g' = g.setResolved x true := by
  refine Succeeds.modify fun r hr => ?_
  subst hr
  exact ⟨ha.mark x, .mark _ x, rfl⟩

theorem succeeds_alloc (ha : Answerable setting g) (name : String) (kind : SymbolKind)
    (flags : Flags SymbolFlag) : Succeeds setting g (alloc name kind flags)
      fun x g' => x = g.size ∧ g' = g.alloc name kind flags :=
  Succeeds.onGraph rfl (ha.alloc name kind flags) (.alloc g name kind flags)

/-- An edge that makes no array type and no instance side. -/
theorem succeeds_link (ha : Answerable setting g) {source target : SymbolId} {kind : EdgeKind}
    (hs : source < g.size) (ht : target < g.size) (harray : kind ≠ .arrayOf)
    (hside : kind ≠ .instanceType) (htyped : kind = .typedAs → g.Stands target) :
    Succeeds setting g (link source target kind) :=
  (Succeeds.onGraph (GraphM.link_eq_ok kind hs ht) (ha.addEdge hs ht harray hside htyped)
    (.addEdge g _)).bind fun _ _ ha' _ _ => .pure ha' True.intro

theorem succeeds_setSingle (ha : Answerable setting g) {source target : SymbolId} {kind : EdgeKind}
    (hs : source < g.size) (ht : target < g.size) (hk : kind.isResolution)
    (htyped : kind = .typedAs → g.Stands target) :
    Succeeds setting g (setSingle source target kind) := by
  obtain ⟨ha₁, hf₁⟩ := ha.removeTargets source hk ((g.targets source kind).filter (· != target))
  have ha₂ := ha₁.addEdge (e := ⟨source, target, kind⟩) (hf₁.lt_size hs) (hf₁.lt_size ht)
    (by rintro rfl; simp [EdgeKind.isResolution] at hk)
    (by rintro rfl; simp [EdgeKind.isResolution] at hk) fun h => (htyped h).follows hf₁
  exact (Succeeds.onGraph (GraphM.setSingle_eq_ok hs ht) ha₂ (hf₁.trans (.addEdge _ _))).weaken
    fun _ _ _ _ _ => True.intro

theorem succeeds_removeOutgoing (ha : Answerable setting g) (x : SymbolId) {kind : EdgeKind}
    (hk : kind.isResolution) : Succeeds setting g (removeOutgoing x kind) := by
  refine Succeeds.modify fun r hr => ?_
  subst hr
  obtain ⟨ha', hf⟩ := ha.removeTargets x hk (r.graph.targets x kind)
  exact ⟨ha', hf, True.intro⟩

theorem succeeds_begin (ha : Answerable setting g) (hx : x < g.size) :
    Succeeds setting g (begin x) fun b g' =>
      if b then ¬g.isResolved x ∧ g' = g.setResolved x true else g.isResolved x ∧ g' = g := by
  obtain ⟨y, hy⟩ := Option.isSome_iff_exists.mp ((isSome_get? g x).trans (decide_eq_true hx))
  refine .graph_bind ?_
  rw [hy]
  dsimp only
  split
  · next hr => exact .pure ha (by simp [isResolved, hy, hr])
  · next hr =>
    refine (succeeds_markResolved ha x).bind fun _ g' ha' _ hg' => .pure ha' ?_
    rw [if_pos rfl]
    exact ⟨by simpa [isResolved, hy] using hr, hg'⟩

/-- Work that is done once for a symbol, and another answer if it was done. -/
theorem succeeds_begin_else (ha : Answerable setting g) (hx : x < g.size) {work rest : ResolveM α}
    {Q : α → SymbolGraph → Prop}
    (hwork : ¬g.isResolved x → Succeeds setting (g.setResolved x true) work Q)
    (hrest : g.isResolved x → Succeeds setting g rest Q) :
    Succeeds setting g (do if ← begin x then work else rest) Q := by
  refine (succeeds_begin ha hx).bind fun b g' _ _ hb => ?_
  cases b with
  | true =>
      obtain ⟨hr, rfl⟩ := hb
      exact hwork hr
  | false =>
      obtain ⟨hr, rfl⟩ := hb
      exact hrest hr

theorem succeeds_begin_then (ha : Answerable setting g) (hx : x < g.size) {work : ResolveM Unit}
    (hwork : ¬g.isResolved x → Succeeds setting (g.setResolved x true) work) :
    Succeeds setting g (do if ← begin x then work) :=
  succeeds_begin_else ha hx hwork fun _ => .pure ha True.intro

theorem succeeds_declarations (ha : Answerable setting g) (hx : x < g.size) :
    Succeeds setting g (declarations x) fun ds g' => ds = g.declarations x ∧ g' = g := by
  obtain ⟨y, hy⟩ := Option.isSome_iff_exists.mp ((isSome_get? g x).trans (decide_eq_true hx))
  refine .graph_bind ?_
  rw [hy]
  exact .pure ha ⟨by rw [SymbolGraph.declarations, hy]; rfl, rfl⟩

/-- Declarations of symbols have a place in the document of a unit. -/
theorem succeeds_site (ha : Answerable setting g) {d : DeclId} (hd : d ∈ g.declarations x) :
    Succeeds setting g (site setting d) fun site g' =>
      setting.program.IsUnitTree site.tree ∧ g' = g := by
  obtain ⟨decl, hdecl⟩ := Option.isSome_iff_exists.mp (ha.sound.known hd)
  obtain ⟨u, hu, hdecl⟩ := Option.bind_eq_some_iff.mp hdecl
  unfold site
  rw [hu]
  dsimp only
  rw [hdecl]
  exact .pure ha ⟨⟨u, List.mem_of_find?_eq_some hu, rfl⟩, rfl⟩

theorem succeeds_firstSite (ha : Answerable setting g) (hx : x < g.size) :
    Succeeds setting g (firstSite setting x) fun site? g' =>
      (∀ site, site? = some site → setting.program.IsUnitTree site.tree) ∧ g' = g := by
  refine (succeeds_declarations ha hx).bind fun ds g' ha' _ ⟨hds, hg'⟩ => ?_
  subst hds hg'
  cases hd : (g'.declarations x).head? with
  | none => exact .pure ha' ⟨fun _ h => absurd h (by simp), rfl⟩
  | some d =>
      refine (succeeds_site ha' (List.mem_of_head? hd)).bind fun site g'' ha'' _ hsite => ?_
      refine .pure ha'' ⟨?_, hsite.2⟩
      rintro _ ⟨⟩
      exact hsite.1

end ResolveM

end NameBinding
