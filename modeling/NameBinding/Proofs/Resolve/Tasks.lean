import NameBinding.Proofs.Resolve.Settled

/-! # Resolving symbols that have no bases

Resolving a symbol asks for other symbols first, and then does the work for the symbol itself. From
a settled scene it leads to a settled scene in which the symbol is resolved. -/

namespace NameBinding

open SymbolGraph ResolveM

namespace Start

variable {b : Start} {ds : List Diagnostic} {opened : List SymbolId} {s : Scene}
  {x : SymbolId} {α : Type}

/-! ### Steps from settled scenes -/

/-- The step leads to a settled scene with what was there before. -/
abbrev Advances (b : Start) (ds : List Diagnostic) (opened : List SymbolId) (s : Scene)
    (m : ResolveM Unit) (P : Scene → Prop := fun _ => True) : Prop :=
  ∃ s', s.Runs m () s' ∧ b.Settled ds opened s' ∧ b.Grows s s' ∧ P s'

theorem Settled.advances_pure (h : b.Settled ds opened s) {P : Scene → Prop} (hP : P s) :
    b.Advances ds opened s (pure ()) P :=
  ⟨s, .pure s (), h, .refl b s, hP⟩

theorem Advances.graph_bind {f : SymbolGraph → ResolveM Unit} {P : Scene → Prop}
    (h : b.Advances ds opened s (f s.graph) P) :
    b.Advances ds opened s (ResolveM.graph >>= f) P := by
  obtain ⟨s', hr, h⟩ := h
  exact ⟨s', .graph_bind hr, h⟩

theorem Advances.after {m : ResolveM α} {a : α} {f : α → ResolveM Unit} {P : Scene → Prop}
    {s₁ : Scene} (hm : s.Runs m a s₁) (hg : b.Grows s s₁)
    (h : b.Advances ds opened s₁ (f a) P) : b.Advances ds opened s (m >>= f) P := by
  obtain ⟨s', hr, h', hg', hP⟩ := h
  exact ⟨s', hm.bind hr, h', hg.trans hg', hP⟩

/-- A step that only reads the scene goes first. -/
theorem Advances.read {m : ResolveM α} {a : α} {f : α → ResolveM Unit} {P : Scene → Prop}
    (hm : s.Runs m a s) (h : b.Advances ds opened s (f a) P) :
    b.Advances ds opened s (m >>= f) P := .after hm (.refl b s) h

theorem Advances.bind {opened' : List SymbolId} {m : ResolveM Unit} {f : Unit → ResolveM Unit}
    {P Q : Scene → Prop} (h : b.Advances ds opened s m P)
    (hf : ∀ s', b.Settled ds opened s' → b.Grows s s' → P s' → b.Advances ds opened' s' (f ()) Q) :
    b.Advances ds opened' s (m >>= f) Q := by
  obtain ⟨s₁, hr, h₁, hg, hP⟩ := h
  obtain ⟨s₂, hr', h₂, hg', hQ⟩ := hf s₁ h₁ hg hP
  exact ⟨s₂, hr.bind hr', h₂, hg.trans hg', hQ⟩

/-- Steps for the elements of a list. What holds after one of them still holds at the end. -/
theorem Settled.advances_forM (h : b.Settled ds opened s) (as : List α) {f : α → ResolveM Unit}
    {P : α → Scene → Prop} (hf : ∀ a ∈ as, ∀ s', b.Settled ds opened s' → b.Grows s s' →
      b.Advances ds opened s' (f a) (P a)) (hP : ∀ a {s s'}, P a s → b.Grows s s' → P a s') :
    b.Advances ds opened s (as.forM f) fun s' => ∀ a ∈ as, P a s' := by
  induction as generalizing s with
  | nil => exact h.advances_pure fun _ ha => absurd ha List.not_mem_nil
  | cons a as ih =>
      refine (hf a List.mem_cons_self s h (.refl b s)).bind fun s₁ h₁ hg₁ ha => ?_
      obtain ⟨s₂, hr, h₂, hg₂, hall⟩ := ih h₁ fun c hc s₂ h₂ hg₂ =>
        hf c (List.mem_cons_of_mem a hc) s₂ h₂ (hg₁.trans hg₂)
      exact ⟨s₂, hr, h₂, hg₂, List.forall_mem_cons.mpr ⟨hP a ha hg₂, hall⟩⟩

/-- Work that is done once for a symbol. -/
theorem Settled.advances_once (h : b.Settled ds opened s) (hx : x < b.size)
    (hk : b.graph.kind? x ≠ some .alias ∧ b.graph.kind? x ≠ some .instanceType)
    {m : ResolveM Unit} (hm : x ∉ opened → ¬s.graph.isResolved x →
      b.Settled ds (x :: opened) (s.mark x) → b.Advances ds opened (s.mark x) m) :
    b.Advances ds opened s (do if ← ResolveM.begin x then m) fun s' => s'.graph.isResolved x := by
  by_cases hr : s.graph.isResolved x
  · exact ⟨s, (Scene.Runs.begin_of_isResolved hr).bind (.pure s ()), h, .refl b s, hr⟩
  · have hlt : x < s.graph.size := h.valid.lt_size hx
    obtain ⟨hclosed, hbegun⟩ := h.begin hx hk hr
    obtain ⟨s', hruns, h', hg, -⟩ := hm hclosed hr hbegun
    have hmarked : (s.mark x).graph.isResolved x := (isResolved_mark s hlt).mpr (.inr rfl)
    exact ⟨s', (Scene.Runs.begin hlt hr).bind hruns, h', (leads_mark b s hlt).grows.trans hg,
      hg.isResolved hx hmarked⟩

/-- The work for a symbol that has no bases. -/
theorem Settled.advances_work (h : b.Settled ds (x :: opened) s) (hclosed : x ∉ opened)
    (hk : b.graph.kind? x ≠ some .instanceType ∧ b.graph.kind? x ≠ some .classType ∧
      b.graph.kind? x ≠ some .interface) : b.Advances ds opened s (b.work x) := by
  obtain ⟨s', hr, h', hg⟩ := h.finish hclosed hk.1 fun f hf =>
    hf.kind?.elim (fun hc => absurd hc hk.2.1) fun hi => absurd hi hk.2.2
  exact ⟨s', hr, h', hg, True.intro⟩

/-- From every settled scene the step resolves the symbol. -/
def Completes (b : Start) (ds : List Diagnostic) (m : ResolveM Unit) (x : SymbolId) : Prop :=
  ∀ opened s, b.Settled ds opened s → b.Advances ds opened s m fun s' => s'.graph.isResolved x

/-- A symbol that asks for nothing. -/
theorem completes_once {kind : SymbolKind} (hkind : b.graph.kind? x = some kind)
    (hne : kind ∉ [.alias, .instanceType, .classType, .interface]) :
    b.Completes ds (do if ← ResolveM.begin x then b.work x) x := by
  have hk : ∀ {k}, k ∈ [SymbolKind.alias, .instanceType, .classType, .interface] →
      b.graph.kind? x ≠ some k := by
    rintro k hmem hkx
    exact hne (Option.some.inj (hkind.symm.trans hkx) ▸ hmem)
  intro opened s h
  refine h.advances_once (lt_size_of_kind? hkind) ⟨hk (by simp), hk (by simp)⟩
    fun hclosed _ hbegun => ?_
  exact hbegun.advances_work hclosed ⟨hk (by simp), hk (by simp), hk (by simp)⟩

theorem completes_resolveModule
    (hk : b.graph.kind? x = some .module ∨ b.graph.kind? x = some .dynamicModule) :
    b.Completes ds (resolveModule b.setting x) x := by
  have hwork : checkCollisions b.setting x = b.work x := by
    unfold work
    rcases hk with hk | hk <;> rw [hk]
  unfold resolveModule
  rw [hwork]
  rcases hk with hk | hk <;> exact completes_once hk (by decide)

theorem completes_resolveValue (hk : b.graph.kind? x = some .variable ∨
      b.graph.kind? x = some .field ∨ b.graph.kind? x = some .parameter) :
    b.Completes ds (resolveValue b.setting x) x := by
  have hwork : resolveValue b.setting x = (do if ← ResolveM.begin x then b.work x) := by
    unfold work
    rcases hk with hk | hk | hk <;> rw [hk] <;> rfl
  rw [hwork]
  rcases hk with hk | hk | hk <;> exact completes_once hk (by decide)

/-- Each of some symbols is resolved. -/
theorem Settled.advances_each (h : b.Settled ds opened s) (xs : List SymbolId)
    {f : SymbolId → ResolveM Unit} (hf : ∀ x ∈ xs, x < b.size ∧ b.Completes ds (f x) x) :
    b.Advances ds opened s (xs.forM f) := by
  obtain ⟨s', hr, h', hg, -⟩ := h.advances_forM xs (P := fun _ _ => True)
    (fun x hx s₁ h₁ _ => by
      obtain ⟨s₂, hr, h₂, hg₂, -⟩ := (hf x hx).2 opened s₁ h₁
      exact ⟨s₂, hr, h₂, hg₂, True.intro⟩) fun _ _ _ h _ => h
  exact ⟨s', hr, h', hg, True.intro⟩

/-- The parameters of a signature are resolved first. -/
theorem completes_resolveSignature (hk : b.graph.kind? x = some .signature) :
    b.Completes ds (resolveSignature b.setting x) x := by
  have hg := b.sound.graph.toWellFormed
  intro opened s h
  have hx : x < b.size := lt_size_of_kind? hk
  refine h.advances_once hx (by simp [hk]) fun hclosed _ hbegun => .graph_bind ?_
  rw [hbegun.valid.resolves.parameters_eq hg hx]
  have hparameters := hbegun.advances_each (b.graph.parameters x) fun y hy => by
    have hparameter : b.graph.kind? y = some .parameter :=
      b.parameters (x := x) (hg.mem_targets_iff.mp (mem_of_mem_listFor hy))
    exact ⟨lt_size_of_kind? hparameter, completes_resolveValue (.inr (.inr hparameter))⟩
  refine hparameters.bind fun s₁ h₁ _ _ => ?_
  have hwork := h₁.advances_work hclosed (by simp [hk])
  unfold work at hwork
  rwa [hk] at hwork

/-- The signatures of a function are resolved first. -/
theorem completes_resolveFunction
    (hk : b.graph.kind? x = some .function ∨ b.graph.kind? x = some .method) :
    b.Completes ds (resolveFunction b.setting x) x := by
  have hg := b.sound.graph.toWellFormed
  have hne : ∀ {k}, k ∈ [SymbolKind.alias, .instanceType, .classType, .interface] →
      b.graph.kind? x ≠ some k := by
    rintro k hmem hkx
    rcases hk with hk | hk <;> cases hk.symm.trans hkx <;> simp at hmem
  intro opened s h
  have hx : x < b.size := hk.elim lt_size_of_kind? lt_size_of_kind?
  refine h.advances_once hx ⟨hne (by simp), hne (by simp)⟩ fun hclosed _ hbegun => .graph_bind ?_
  rw [hbegun.valid.resolves.callSignatures_eq hg hx]
  have hsignatures := hbegun.advances_each (b.graph.callSignatures x) fun y hy => by
    have hedge : b.graph.hasEdge ⟨x, y, .callSignature⟩ := by
      refine hg.mem_targets_iff.mp ?_
      rcases List.mem_append.mp (mem_of_mem_listFor hy) with hy | hy <;>
        exact (List.mem_filter.mp hy).1
    have hsignature := b.signatures hedge
    exact ⟨lt_size_of_kind? hsignature, completes_resolveSignature hsignature⟩
  refine hsignatures.bind fun s₁ h₁ _ _ => ?_
  have hwork := h₁.advances_work hclosed ⟨hne (by simp), hne (by simp), hne (by simp)⟩
  unfold work at hwork
  rcases hk with hk | hk <;> rwa [hk] at hwork

/-- An alias is pointed at what it stands for. -/
theorem completes_resolveAlias (hk : b.graph.kind? x = some .alias) :
    b.Completes ds (do let _ ← resolveAlias b.setting x) x := by
  intro opened s h
  obtain ⟨s', hr, -, hs', hl, hmarked⟩ := runs_aliasTarget h.clear hk h.valid
  have hx : x < b.size := lt_size_of_kind? hk
  refine ⟨s', hr.bind (.pure s' ()), ?_, hl.grows, hmarked⟩
  refine h.step hs' hl hx ?_ (fun _ _ => Iff.rfl) (fun hn hres f hf => ?_) fun hmem => ?_
  · rintro f ⟨d, hd, rfl⟩
    exact .reported hk hd
  · exact hs'.holds_of_alias hk hres hn hf
  · exact absurd hk (h.clear x hmem)

/-- A symbol that is only marked. -/
theorem completes_markResolved {kind : SymbolKind} (hkind : b.graph.kind? x = some kind)
    (hk : kind ∈ [.primitive, .error, .typeLiteral, .array]) :
    b.Completes ds (markResolved x) x := by
  have hdisjoint : ∀ k ∈ [SymbolKind.primitive, .error, .typeLiteral, .array],
      k ∉ [SymbolKind.alias, .instanceType, .classType, .interface] := by decide
  have hne : ∀ {k}, k ∈ [SymbolKind.alias, .instanceType, .classType, .interface] →
      b.graph.kind? x ≠ some k := by
    rintro k hmem hkx
    exact hdisjoint k (Option.some.inj (hkind.symm.trans hkx) ▸ hk) hmem
  have hx : x < b.size := lt_size_of_kind? hkind
  intro opened s h
  have hlt : x < s.graph.size := h.valid.lt_size hx
  have hl := leads_mark b s hlt
  have hmarked : (s.mark x).graph.isResolved x := (isResolved_mark s hlt).mpr (.inr rfl)
  by_cases hr : s.graph.isResolved x
  · refine ⟨s.mark x, .markResolved s x, ?_, hl.grows, hmarked⟩
    refine h.step ?_ hl hx ?_ (fun _ _ => Iff.rfl) (fun hn _ f hf => ?_) fun hmem => ?_
    · exact h.valid.mark hlt (List.Subset.refl _) (fun _ => .inl) .inl fun _ => .inr hr
    · rintro f ⟨-, rfl⟩
      exact .marked (hne (by simp))
    · exact hl.keeps (h.finished hx hr hn hf)
    · refine ⟨h.clear x hmem, fun y hy => h.fresh x hmem y ?_⟩
      rwa [Scene.graph_mark, size_setResolved] at hy
  · obtain ⟨hclosed, hbegun⟩ := h.begin hx ⟨hne (by simp), hne (by simp)⟩ hr
    obtain ⟨s', hruns, h', hg, -⟩ :=
      hbegun.advances_work hclosed ⟨hne (by simp), hne (by simp), hne (by simp)⟩
    have hnothing : b.work x = pure () := by
      simp only [List.mem_cons, List.not_mem_nil, or_false] at hk
      rw [work, hkind]
      rcases hk with rfl | rfl | rfl | rfl <;> rfl
    rw [hnothing] at hruns
    exact ⟨s', hruns, h', hl.grows.trans hg, hg.isResolved hx hmarked⟩

end Start

end NameBinding
