import NameBinding.Proofs.Graph.Lined

/-! # Overloads in order

A function lists its declarations in order, its signatures stand in the order of their declarations,
and one of them at most is a definition. While a declaration is bound, it comes after all others on
functions and signatures. -/

namespace NameBinding

namespace SymbolKind

/-- Symbols that declarations of functions and of signatures make. -/
def isCallable (kind : SymbolKind) : Bool := kind.isFunctionLike || kind == .signature

theorem isCallable_of_isFunctionLike {kind : SymbolKind} (h : kind.isFunctionLike) :
    kind.isCallable := by
  simp [isCallable, h]

end SymbolKind

namespace SymbolGraph

variable {g g₀ : SymbolGraph} {f s x : SymbolId} {d now : DeclId} {late : List SymbolId} {e : Edge}

/-- The declarations and the signatures of functions stand in order, and no function has two
definitions. -/
structure RanksOverloads (g : SymbolGraph) : Prop where
  functions : ∀ {f}, g.Is SymbolKind.isFunctionLike f →
    (g.declarations f).Pairwise DeclId.Before
  signatures : g.Lined .callSignature .signature
  definitions : ∀ {f}, g.Is SymbolKind.isFunctionLike f → ¬g.has f .synthesized →
    ((g.targets f .callSignature).filter g.isDefinition).length ≤ 1

theorem Is.not_signature (h : g.Is SymbolKind.isFunctionLike f) : ¬g.Is (· == .signature) f := by
  rintro ⟨kind, hk, hs⟩
  obtain ⟨kind', hk', hf⟩ := h
  obtain rfl := Option.some.inj (hk.symm.trans hk')
  rw [beq_iff_eq.mp hs] at hf
  exact absurd hf (by simp [SymbolKind.isFunctionLike])

/-- Definitions stay definitions. -/
theorem Calm.filter_isDefinition {kinds : SymbolKind → Bool} (h : Calm .callSignature kinds g₀ g)
    (h₀ : g₀.WellFormed) (hx : x < g₀.size) : (g.targets x .callSignature).filter g.isDefinition =
      (g₀.targets x .callSignature).filter g₀.isDefinition := by
  rw [h.targets hx]
  exact List.filter_congr fun t ht => h.has _ (lt_size_of_mem_targets h₀.toMirrored ht)

theorem Calm.definitions {kinds : SymbolKind → Bool} (h : Calm .callSignature kinds g₀ g)
    (h₀ : g₀.WellFormed) (hr : g₀.RanksOverloads) (hf : g.Is SymbolKind.isFunctionLike f)
    (hsyn : ¬g.has f .synthesized) :
    ((g.targets f .callSignature).filter g.isDefinition).length ≤ 1 := by
  by_cases hlt : f < g₀.size
  · rw [h.filter_isDefinition h₀ hlt]
    exact hr.definitions ((h.is_iff hlt).mp hf) (h.has _ hlt ▸ hsyn)
  · have hnil : g.targets f .callSignature = [] := List.eq_nil_iff_forall_not_mem.mpr
      fun t ht => hsyn (h.made (Nat.not_lt.mp hlt) t ht).2
    simp [hnil]

theorem RanksOverloads.calm (h : g₀.RanksOverloads) (h₀ : g₀.WellFormed)
    (hcalm : Calm .callSignature SymbolKind.isCallable g₀ g) : g.RanksOverloads where
  functions {f} hf := by
    rw [(hcalm.mono fun _ => SymbolKind.isCallable_of_isFunctionLike).declarations hf]
    by_cases hlt : f < g₀.size
    · exact h.functions ((hcalm.is_iff hlt).mp hf)
    · simp [declarations_eq_nil (Nat.not_lt.mp hlt)]
  signatures := h.signatures.calm h₀ hcalm rfl
  definitions := hcalm.definitions h₀ h

/-! ### While a declaration is bound -/

/-- Overloads stand in order, and what is listed on functions and signatures comes before the
declaration that is bound. That one is listed on some late symbols. -/
structure InOrder (g : SymbolGraph) (now : DeclId) (late : List SymbolId) : Prop
    extends RanksOverloads g where
  wellFormed : g.WellFormed
  dated : ∀ {x d}, g.Is SymbolKind.isCallable x → d ∈ g.declarations x →
    d.Before now ∨ d = now ∧ x ∈ late

namespace InOrder

theorem calm (h : g₀.InOrder now late) (hcalm : Calm .callSignature SymbolKind.isCallable g₀ g) :
    g.InOrder now late where
  toRanksOverloads := h.toRanksOverloads.calm h.wellFormed hcalm
  wellFormed := hcalm.wellFormed
  dated hx hd := by
    rw [hcalm.declarations hx] at hd
    exact h.dated ((hcalm.is_iff (lt_size_of_mem_declarations hd)).mp hx) hd

/-- The declaration that was bound is one of the earlier ones. -/
theorem next (h : g.InOrder now late) : g.InOrder now.next [] where
  toRanksOverloads := h.toRanksOverloads
  wellFormed := h.wellFormed
  dated hx hd := by
    rcases h.dated hx hd with hlt | ⟨rfl, -⟩
    · exact .inl (hlt.trans now.before_next_self)
    · exact .inl (DeclId.before_next_self _)

/-- The declaration is the last one of a function. -/
theorem declareFunction (h : g.InOrder now []) (hf : g.Is SymbolKind.isFunctionLike f) :
    (g.declare f now).InOrder now [f] := by
  have hcalm : Calm .callSignature (· == .signature) g (g.declare f now) :=
    (Calm.refl h.wellFormed).declare (.inl hf.not_signature)
  have hcallable : g.Is SymbolKind.isCallable f := by
    obtain ⟨kind, hk, hf⟩ := hf
    exact ⟨kind, hk, SymbolKind.isCallable_of_isFunctionLike hf⟩
  have hbefore : ∀ d ∈ g.declarations f, d.Before now := fun d hd =>
    (h.dated hcallable hd).resolve_right fun hlate => List.not_mem_nil hlate.2
  exact {
    functions := fun {x} hx => by
      have hold := h.functions ((is_congr (kind?_declare g f now x)).mp hx)
      rw [declarations_declare]
      split
      · next hnew =>
        obtain ⟨rfl, -, -⟩ := hnew
        refine List.pairwise_append.mpr ⟨hold, List.pairwise_singleton _ _, ?_⟩
        simpa using hbefore
      · exact hold
    signatures := h.signatures.calm h.wellFormed hcalm rfl
    definitions := hcalm.definitions h.wellFormed h.toRanksOverloads
    wellFormed := hcalm.wellFormed
    dated := fun {x d} hx hd => by
      rcases mem_declarations_declare.mp hd with hd | ⟨rfl, -, rfl⟩
      · have hold := h.dated ((is_congr (kind?_declare g f now x)).mp hx) hd
        exact .inl (hold.resolve_right fun hlate => List.not_mem_nil hlate.2)
      · exact .inr ⟨rfl, List.mem_singleton_self _⟩ }

/-- The declaration is listed on a signature that no edge leads to yet. -/
theorem declareSignature (h : g.InOrder now late) (hs : g.kind? s = some .signature)
    (hfree : ∀ x, s ∉ g.targets x .callSignature) :
    (g.declare s now).InOrder now (s :: late) := by
  have hcalm : Calm .callSignature SymbolKind.isFunctionLike g (g.declare s now) := by
    refine (Calm.refl h.wellFormed).declare (.inl ?_)
    rintro ⟨kind, hk, hf⟩
    obtain rfl := Option.some.inj (hs.symm.trans hk)
    exact absurd hf (by simp [SymbolKind.isFunctionLike])
  exact {
    functions := fun {x} hx => by
      rw [hcalm.declarations hx]
      exact h.functions ((is_congr (kind?_declare g s now x)).mp hx)
    signatures := h.signatures.declare hfree now
    definitions := hcalm.definitions h.wellFormed h.toRanksOverloads
    wellFormed := hcalm.wellFormed
    dated := fun {x d} hx hd => by
      rcases mem_declarations_declare.mp hd with hd | ⟨rfl, -, rfl⟩
      · have hold := h.dated ((is_congr (kind?_declare g s now x)).mp hx) hd
        exact hold.imp_right fun hlate => ⟨hlate.1, List.mem_cons_of_mem _ hlate.2⟩
      · exact .inr ⟨rfl, List.mem_cons_self⟩ }

/-- The signature of the declaration comes after the others of its owner. -/
theorem hang (h : g.InOrder now late) (hx : x < g.size) (hs : g.kind? s = some .signature)
    (hdecl : g.declarations s = [now])
    (hlate : ∀ t ∈ late, g.kind? t = some .signature → t = s)
    (hdefinition : g.Is SymbolKind.isFunctionLike x → g.isDefinition s →
      (g.targets x .callSignature).filter g.isDefinition = []) :
    (g.addEdge ⟨x, s, .callSignature⟩).InOrder now late := by
  have hlabel : ∀ y, (g.addEdge ⟨x, s, .callSignature⟩).label? y = g.label? y := label?_addEdge g _
  have his : ∀ {y kinds}, (g.addEdge ⟨x, s, .callSignature⟩).Is kinds y → g.Is kinds y :=
    fun hy => (is_congr (kind?_congr (hlabel _))).mp hy
  exact {
    functions := fun hf => by
      rw [declarations_congr (hlabel _)]
      exact h.functions (his hf)
    signatures := by
      refine h.signatures.addEdge (by simp) fun _ hnew t ht hkt _ d hd e he => ?_
      rw [hdecl, List.mem_singleton] at he
      subst he
      refine (h.dated ⟨_, hkt, rfl⟩ hd).resolve_right fun hl => hnew ?_
      rw [← hlate t hl.2 hkt]
      exact h.wellFormed.mem_targets_iff.mp ht
    definitions := fun {f} hf hsyn => by
      have hold := h.definitions (his hf) (has_congr (hlabel f) _ ▸ hsyn)
      have hsame : ∀ l : List SymbolId,
          l.filter (g.addEdge ⟨x, s, .callSignature⟩).isDefinition = l.filter g.isDefinition :=
        fun l => List.filter_congr fun t _ => has_congr (hlabel t) _
      rw [hsame, targets_addEdge g _ f (by simp)]
      split
      · next hnew =>
        obtain ⟨rfl, -⟩ := hnew
        rw [List.filter_append]
        by_cases hd : g.isDefinition s
        · simp [hdefinition (his hf) hd, hd]
        · simpa [hd] using hold
      · exact hold
    wellFormed := h.wellFormed.addEdge hx (lt_size_of_kind? hs)
    dated := fun hy hd => by
      rw [declarations_congr (hlabel _)] at hd
      exact h.dated (his hy) hd }

end InOrder

/-! ### A new signature -/

theorem InOrder.sign (h : g.InOrder now late) (name : String) (flags : Flags SymbolFlag) :
    (g.allocFor name .signature flags now).InOrder now (g.size :: late) := by
  refine (h.calm ((Calm.refl h.wellFormed).alloc name .signature flags)).declareSignature ?_ ?_
  · rw [kind?_alloc, if_pos rfl]
  · intro x
    exact h.wellFormed.size_not_mem_targets_alloc name .signature flags x .callSignature

/-- What was a definition among the signatures of a function is one, and no other is. -/
theorem filter_isDefinition_allocFor (name : String) (kind : SymbolKind) (flags : Flags SymbolFlag)
    (d : DeclId) (hg : g.WellFormed) (x : SymbolId) :
    ((g.allocFor name kind flags d).targets x .callSignature).filter
        (g.allocFor name kind flags d).isDefinition =
      (g.targets x .callSignature).filter g.isDefinition := by
  rw [targets_allocFor]
  refine List.filter_congr fun t ht => ?_
  exact has_allocFor _ _ _ _ _ (lt_size_of_mem_targets hg.toMirrored ht) _

/-! ### Parameters -/

/-- Parameters stand in order, and those of one signature come before some declarations. -/
structure Filling (g : SymbolGraph) (s : SymbolId) (rest : List DeclId) : Prop where
  wellFormed : g.WellFormed
  lined : g.Lined .parameter .parameter
  lt_size : s < g.size
  before : ∀ t ∈ g.targets s .parameter, g.kind? t = some .parameter →
    ∀ d ∈ g.declarations t, ∀ e ∈ rest, d.Before e

namespace Filling

variable {rest : List DeclId}

theorem calm (h : g₀.Filling s rest) (hcalm : Calm .parameter (· == .parameter) g₀ g) :
    g.Filling s rest where
  wellFormed := hcalm.wellFormed
  lined := h.lined.calm h.wellFormed hcalm rfl
  lt_size := Nat.lt_of_lt_of_le h.lt_size hcalm.size_le
  before t ht hkind x hx := by
    rw [hcalm.targets h.lt_size] at ht
    rw [hcalm.declarations ⟨_, hkind, rfl⟩] at hx
    rw [hcalm.kind? (lt_size_of_mem_targets h.wellFormed.toMirrored ht)] at hkind
    exact h.before t ht hkind x hx

theorem skip (h : g.Filling s (d :: rest)) : g.Filling s rest :=
  { h with before := fun t ht hkind x hx e he => h.before t ht hkind x hx e (List.mem_cons_of_mem _ he) }

/-- The parameter of a declaration comes after the others of its signature. -/
theorem parameter (h : g.Filling s (d :: rest)) (hrest : ∀ e ∈ rest, d.Before e) (name : String)
    (flags : Flags SymbolFlag) :
    ((g.allocFor name .parameter flags d).addEdge ⟨s, g.size, .parameter⟩).Filling s rest := by
  have hnew : ∀ x, g.size ∉ (g.alloc name .parameter flags).targets x .parameter := fun x =>
    h.wellFormed.size_not_mem_targets_alloc name .parameter flags x .parameter
  have halloc : Calm .parameter (· == .parameter) g (g.alloc name .parameter flags) :=
    (Calm.refl h.wellFormed).alloc name .parameter flags
  have hlined : (g.allocFor name .parameter flags d).Lined .parameter .parameter :=
    (h.lined.calm h.wellFormed halloc rfl).declare hnew d
  have hbefore : ∀ t ∈ (g.allocFor name .parameter flags d).targets s .parameter,
      (g.allocFor name .parameter flags d).kind? t = some .parameter →
        ∀ x ∈ (g.allocFor name .parameter flags d).declarations t, ∀ e ∈ d :: rest, x.Before e := by
    intro t ht hkind x hx
    rw [targets_allocFor] at ht
    have hlt := lt_size_of_mem_targets h.wellFormed.toMirrored ht
    rw [kind?_allocFor _ _ _ _ _ hlt] at hkind
    rw [declarations_allocFor _ _ _ _ _ hlt] at hx
    exact h.before t ht hkind x hx
  have hlabel := label?_addEdge (g.allocFor name .parameter flags d) ⟨s, g.size, .parameter⟩
  have hlt : s < (g.allocFor name .parameter flags d).size := by
    rw [size_allocFor]
    exact Nat.lt_succ_of_lt h.lt_size
  exact {
    wellFormed := (h.wellFormed.allocFor ..).addEdge hlt (by simp)
    lined := hlined.addEdge (by simp) fun _ _ t ht hkt _ x hx e he => by
      rw [declarations_allocFor_size, List.mem_singleton] at he
      exact hbefore t ht hkt x hx e (he ▸ List.mem_cons_self)
    lt_size := by rwa [size_addEdge]
    before := fun t ht hkind x hx e he => by
      rw [kind?_congr (hlabel t)] at hkind
      rw [declarations_congr (hlabel t)] at hx
      rw [targets_addEdge _ _ _ (by simp)] at ht
      split at ht
      · rcases List.mem_append.mp ht with ht | ht
        · exact hbefore t ht hkind x hx e (List.mem_cons_of_mem _ he)
        · obtain rfl := List.mem_singleton.mp ht
          rw [declarations_allocFor_size, List.mem_singleton] at hx
          exact hx ▸ hrest e he
      · exact hbefore t ht hkind x hx e (List.mem_cons_of_mem _ he) }

end Filling

/-! ### All together -/

/-- Overloads and parameters stand in the order of their declarations. -/
structure RanksSignatures (g : SymbolGraph) : Prop where
  overloads : g.RanksOverloads
  parameters : g.Lined .parameter .parameter

theorem RanksSignatures.calm (h : g₀.RanksSignatures) (h₀ : g₀.WellFormed)
    (hoverloads : Calm .callSignature SymbolKind.isCallable g₀ g)
    (hparameters : Calm .parameter (· == .parameter) g₀ g) : g.RanksSignatures where
  overloads := h.overloads.calm h₀ hoverloads
  parameters := h.parameters.calm h₀ hparameters rfl

/-- What is left when edges and declarations go is in order. -/
theorem RanksSignatures.thin (h : g₀.RanksSignatures)
    (htargets : ∀ x edge, (g.targets x edge).Sublist (g₀.targets x edge))
    (hkind : ∀ x, g.kind? x = g₀.kind? x) (hhas : ∀ x f, g.has x f = g₀.has x f)
    (hdecl : ∀ x, (g.declarations x).Sublist (g₀.declarations x)) : g.RanksSignatures where
  overloads := {
    functions := fun hf => (h.overloads.functions ((is_congr (hkind _)).mp hf)).sublist (hdecl _)
    signatures := h.overloads.signatures.thin (htargets · _) hkind fun x => (hdecl x).subset
    definitions := fun {f} hf hsyn => by
      have hold := h.overloads.definitions ((is_congr (hkind _)).mp hf) (hhas f _ ▸ hsyn)
      have hsame : g.isDefinition = g₀.isDefinition := funext fun x => hhas x .definition
      rw [hsame]
      exact Nat.le_trans ((htargets f _).filter _).length_le hold }
  parameters := h.parameters.thin (htargets · _) hkind fun x => (hdecl x).subset

end SymbolGraph

end NameBinding
