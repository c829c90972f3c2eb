import NameBinding.Proofs.Resolve.Bases

/-! # Symbols in any order

The symbols of a graph are resolved one after another. Main statement: when all of them were
resolved, the same holds in the scene, whatever the order was. -/

namespace NameBinding

open SymbolGraph ResolveM

/-- What was resolved after a symbol, also if it could not be resolved. -/
def Resolution.resolve (setting : Setting) (r : Resolution) (x : SymbolId) : Resolution :=
  match resolveSymbol setting x r with
  | .ok _ r | .error _ r => r

/-- What was resolved after some symbols, in their order. -/
def Resolution.resolveAll (setting : Setting) (order : List SymbolId) (r : Resolution) :
    Resolution :=
  order.foldl (·.resolve setting) r

theorem Scene.Runs.bind_error {α β : Type} {s s' s'' : Scene} {m : ResolveM α}
    {f : α → ResolveM β} {a : α} {e : BindError} (h : s.Runs m a s')
    (h' : f a s'.resolution = .error e s''.resolution) :
    (m >>= f) s.resolution = .error e s''.resolution := by
  rw [show (m >>= f) s.resolution = EStateM.bind m f s.resolution from rfl, EStateM.bind, h]
  exact h'

namespace Start

variable {b : Start} {ds : List Diagnostic} {s s' : Scene} {x : SymbolId} {f : Fact}

/-! ### One symbol -/

/-- A class without an instance side has nothing to link. -/
theorem not_heirFact (hk : b.graph.kind? x = some .classType)
    (hnone : b.graph.instanceType? x = none) : ¬b.HeirFact x f := by
  have hside : ∀ {y}, ¬b.graph.hasEdge ⟨x, y, .instanceType⟩ := by
    intro y he
    obtain ⟨inst, hinst⟩ := exists_instanceType? b.sound.graph.toMirrored he
    rw [hnone] at hinst
    exact absurd hinst (by simp)
  intro h
  cases h with
  | side he => exact hside he
  | entry h _ =>
      cases h with
      | extended hx h =>
          cases h with
          | ofClass he =>
              obtain rfl := (baseOwner_of_side he).symm.trans hx
              exact hside he
          | ofInterface hi =>
              obtain rfl := (baseOwner_of_interface hi).symm.trans hx
              rw [hk] at hi
              simp at hi
      | implemented he => exact hside he

/-- A class without an instance side cannot be resolved, and is marked nonetheless. -/
theorem Settled.resolve_of_no_side (h : b.Settled ds [] s)
    (hk : b.graph.kind? x = some .classType) (hnone : b.graph.instanceType? x = none) :
    ∃ s', s.resolution.resolve b.setting x = s'.resolution ∧ b.Settled ds [] s' ∧ b.Grows s s' ∧
      s'.graph.isResolved x := by
  have hx : x < b.size := lt_size_of_kind? hk
  have hlt : x < s.graph.size := h.valid.lt_size hx
  have hkind : s.graph.kind? x = some .classType := (h.valid.kind?_eq hx).trans hk
  by_cases hr : s.graph.isResolved x
  · have hruns : s.Runs (resolveSymbol b.setting x) () s := by
      refine .graph_bind ?_
      rw [hkind]
      exact (Scene.Runs.begin_of_isResolved hr).bind (.pure s ())
    refine ⟨s, ?_, h, .refl b s, hr⟩
    rw [Resolution.resolve, hruns]
  · obtain ⟨hclosed, hbegun⟩ := h.begin hx (by simp [hk]) hr
    have hwork : b.work x = pure () := by
      rw [work, hk, hnone]
    obtain ⟨s', hruns, h', hg⟩ := hbegun.finish hclosed (by simp [hk]) fun f hf =>
      absurd hf (not_heirFact hk hnone)
    have hsame : (s.mark x).resolution = s'.resolution := by
      rw [hwork] at hruns
      exact congrArg (fun r => match r with | .ok _ r | .error _ r => r) hruns
    have hfails : resolveSymbol b.setting x s.resolution =
        .error (.missingInstanceType x) (s.mark x).resolution := by
      have hmissing : (s.mark x).graph.instanceType? x = none := by
        rw [hbegun.valid.resolves.instanceType?_eq b.sound.graph.toWellFormed hx, hnone]
      refine Scene.Runs.bind_error (Scene.Runs.graph_bind (.pure s s.graph)) ?_
      rw [hkind]
      refine Scene.Runs.bind_error (.begin hlt hr) ?_
      refine Scene.Runs.bind_error (Scene.Runs.graph_bind (.pure (s.mark x) (s.mark x).graph)) ?_
      rw [hmissing]
      rfl
    have hmarked : (s.mark x).graph.isResolved x := (isResolved_mark s hlt).mpr (.inr rfl)
    refine ⟨s', ?_, h', (leads_mark b s hlt).grows.trans hg, hg.isResolved hx hmarked⟩
    rw [Resolution.resolve, hfails]
    exact hsame

/-- A symbol of any other kind is resolved. An instance side has no work of its own. -/
theorem Settled.advances_resolveSymbol (h : b.Settled ds [] s) (hx : x < b.size)
    (hside : b.graph.kind? x = some .classType → b.graph.instanceType? x ≠ none) :
    b.Advances ds [] s (resolveSymbol b.setting x) fun s' =>
      b.graph.kind? x ≠ some .instanceType → s'.graph.isResolved x := by
  have hcompletes : ∀ {m} {P : Prop}, b.Completes ds m x →
      b.Advances ds [] s m fun s' => P → s'.graph.isResolved x := by
    intro m P hm
    obtain ⟨s', hr, h', hg, hmarked⟩ := hm [] s h
    exact ⟨s', hr, h', hg, fun _ => hmarked⟩
  obtain ⟨kind, hkind⟩ := exists_kind? hx
  refine .graph_bind ?_
  rw [h.valid.kind?_eq hx, h.valid.resolves.classOfInstance?_eq b.sound.graph.toWellFormed hx,
    hkind]
  cases kind with
  | module => exact hcompletes (completes_resolveModule (.inl hkind))
  | dynamicModule => exact hcompletes (completes_resolveModule (.inr hkind))
  | classType =>
      obtain ⟨inst, hinst⟩ := Option.ne_none_iff_exists'.mp (hside hkind)
      exact hcompletes (completes_resolveClass
        (hasEdge_of_instanceType? b.sound.graph.toMirrored hinst))
  | instanceType =>
      dsimp only
      split
      · next cls hcls =>
        obtain ⟨s', hr, h', hg, -⟩ := completes_resolveClass
          (hasEdge_of_classOfInstance? b.sound.graph.toMirrored hcls) [] s h
        exact ⟨s', hr, h', hg, fun hne => absurd rfl hne⟩
      · exact h.advances_pure fun hne => absurd rfl hne
  | interface => exact hcompletes (completes_resolveInterface hkind)
  | function => exact hcompletes (completes_resolveFunction (.inl hkind))
  | method => exact hcompletes (completes_resolveFunction (.inr hkind))
  | signature => exact hcompletes (completes_resolveSignature hkind)
  | «variable» => exact hcompletes (completes_resolveValue (.inl hkind))
  | field => exact hcompletes (completes_resolveValue (.inr (.inl hkind)))
  | parameter => exact hcompletes (completes_resolveValue (.inr (.inr hkind)))
  | «alias» => exact hcompletes (completes_resolveAlias hkind)
  | primitive => exact hcompletes (completes_markResolved hkind (by decide))
  | error => exact hcompletes (completes_markResolved hkind (by decide))
  | typeLiteral => exact hcompletes (completes_markResolved hkind (by decide))
  | array => exact hcompletes (completes_markResolved hkind (by decide))

/-- Resolving one symbol leads from a settled scene to a settled scene. -/
theorem Settled.resolve (h : b.Settled ds [] s) (hx : x < b.size) :
    ∃ s', s.resolution.resolve b.setting x = s'.resolution ∧ b.Settled ds [] s' ∧ b.Grows s s' ∧
      (b.graph.kind? x ≠ some .instanceType → s'.graph.isResolved x) := by
  by_cases hside : b.graph.kind? x = some .classType ∧ b.graph.instanceType? x = none
  · obtain ⟨s', hr, h', hg, hmarked⟩ := h.resolve_of_no_side hside.1 hside.2
    exact ⟨s', hr, h', hg, fun _ => hmarked⟩
  · obtain ⟨s', hr, h', hg, hmarked⟩ :=
      h.advances_resolveSymbol hx fun hk hnone => hside ⟨hk, hnone⟩
    refine ⟨s', ?_, h', hg, hmarked⟩
    rw [Resolution.resolve, hr]

/-! ### All symbols -/

theorem settled_scene (b : Start) (ds : List Diagnostic) : b.Settled ds [] (b.scene ds) where
  valid := b.valid_scene ds
  clear := b.isClear_nil
  given _ hx := absurd hx List.not_mem_nil
  keeps hf := hf
  finished _ hr := absurd hr (b.unmarked _)
  accounted := .inl
  fresh _ hx := absurd hx List.not_mem_nil

/-- By induction on the symbols. -/
theorem Settled.resolveAll {order : List SymbolId} (h : b.Settled ds [] s)
    (horder : ∀ x ∈ order, x < b.size) :
    ∃ s', s.resolution.resolveAll b.setting order = s'.resolution ∧ b.Settled ds [] s' ∧
      b.Grows s s' ∧
      ∀ x ∈ order, b.graph.kind? x ≠ some .instanceType → s'.graph.isResolved x := by
  induction order generalizing s with
  | nil => exact ⟨s, rfl, h, .refl b s, fun _ hx => absurd hx List.not_mem_nil⟩
  | cons x order ih =>
      obtain ⟨hx, horder⟩ := List.forall_mem_cons.mp horder
      obtain ⟨s₁, hr₁, h₁, hg₁, hmarked⟩ := h.resolve hx
      obtain ⟨s₂, hr₂, h₂, hg₂, hall⟩ := ih h₁ horder
      refine ⟨s₂, ?_, h₂, hg₁.trans hg₂, List.forall_mem_cons.mpr ⟨fun hk => ?_, hall⟩⟩
      · rw [← hr₂, ← hr₁]
        rfl
      · exact hg₂.isResolved hx (hmarked hk)

/-- When all symbols are resolved there are the own facts of all symbols. -/
theorem Settled.holds_iff (h : b.Settled ds [] s)
    (hall : ∀ x < b.size, b.graph.kind? x ≠ some .instanceType → s.graph.isResolved x) :
    b.Holds s f ↔ b.Holds (b.scene ds) f ∨ ∃ x < b.size, b.Own x f := by
  refine ⟨h.accounted, ?_⟩
  rintro (hf | ⟨x, hx, hf⟩)
  · exact h.keeps hf
  · exact h.finished hx (hall x hx hf.not_instanceType) List.not_mem_nil hf

/-- Two orders lead to scenes in which the same holds. -/
theorem exists_same_facts (b : Start) (ds : List Diagnostic) {order order' : List SymbolId}
    (h : ∀ x, x ∈ order ↔ x < b.size) (h' : ∀ x, x ∈ order' ↔ x < b.size) :
    ∃ s s', Resolution.resolveAll b.setting order ⟨b.graph, ds⟩ = s.resolution ∧
      Resolution.resolveAll b.setting order' ⟨b.graph, ds⟩ = s'.resolution ∧
      b.Valid [] s ∧ b.Valid [] s' ∧ ∀ f, b.Holds s f ↔ b.Holds s' f := by
  obtain ⟨s, hr, hs, -, hall⟩ := (b.settled_scene ds).resolveAll fun x => (h x).mp
  obtain ⟨s', hr', hs', -, hall'⟩ := (b.settled_scene ds).resolveAll fun x => (h' x).mp
  refine ⟨s, s', hr, hr', hs.valid, hs'.valid, fun f => ?_⟩
  rw [hs.holds_iff fun x hx => hall x ((h x).mpr hx),
    hs'.holds_iff fun x hx => hall' x ((h' x).mpr hx)]

end Start

end NameBinding
