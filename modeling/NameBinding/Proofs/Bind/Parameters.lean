import NameBinding.Proofs.Bind.Overloads

/-! # Binding keeps parameters in order

A signature is filled with the parameters of its arguments when it is made, one after the other, and
never gets another one. -/

namespace NameBinding

open SymbolGraph

namespace Binding

open BindM

variable {b b' : Binding} {unit : UnitId} {scope : Option SymbolId} {d : Decl} {s : SymbolId}
  {known : List (SymbolId × SymbolKind)} {rest : List DeclId} {α : Type}

/-! ### Filling a signature -/

/-- The signature is filled. Some of its arguments are still to come. -/
structure Filling (s : SymbolId) (rest : List DeclId) (b : Binding) : Prop where
  program : b.program.WellFormed
  kind? : b.graph.kind? s = some .signature
  filling : b.graph.Filling s rest

theorem Filling.calmed (h : Filling s rest b)
    (hc : Calmed .parameter (· == .parameter) b.graph [] b') : Filling s rest b' where
  program := hc.program
  kind? := (hc.calm.kind? h.filling.lt_size).trans h.kind?
  filling := h.filling.calm hc.calm

theorem filling_bindArgument {arg : Decl} (hrest : ∀ e ∈ rest, arg.id.Before e)
    (fieldsOf : Option SymbolId) : Contract (Filling s (arg.id :: rest)) (bindArgument s fieldsOf arg)
      (fun _ => Filling s rest) fun _ => True := by
  unfold bindArgument
  refine Contract.each fun b hb => ?_
  refine Contract.bind (contract_alloc _ _ _) fun param => Contract.assuming ?_
  rintro rfl
  refine Contract.bind (contract_record _ _) fun _ => Contract.each fun b₁ ⟨hg, hp⟩ => ?_
  refine Contract.bind (contract_link _ _ _) fun _ => Contract.each fun b₂ ⟨_, _, hlink⟩ => ?_
  have hfilling : Filling s rest b₂ := by
    subst hlink
    refine ⟨hp hb.program, ?_, ?_⟩
    · rw [kind?_congr (label?_addEdge _ _ _), hg]
      exact (kind?_allocFor _ _ _ _ _ hb.filling.lt_size).trans hb.kind?
    · rw [hg]
      exact hb.filling.parameter hrest _ _
  have hfield : ∀ inst, Contract (· = b₂) (bindParameterField inst arg) (fun _ => Filling s rest)
      fun _ => True := by
    intro inst
    refine Contract.weaken (calmed_bindParameterField (by simp) (by simp [EdgeKind.isMembership])
      (by decide) inst arg) ?_ (fun _ _ hc => hfilling.calmed hc.1) fun _ _ => True.intro
    rintro _ rfl
    exact .refl hfilling.program hfilling.filling.wellFormed
  split
  · split
    · exact hfield _
    · exact Contract.pure _ fun _ hb => hb ▸ hfilling
  · exact Contract.pure _ fun _ hb => hb ▸ hfilling

/-- By induction on the declarations below. Those that are no arguments are passed over. -/
theorem filling_arguments {children : List DeclId} (h : children.Pairwise DeclId.Before)
    (fieldsOf : Option SymbolId) : Contract (Filling s children) (children.forM fun child => do
      match (← get).program.decl? child with
      | none => throw (.unknownDecl child)
      | some arg => if arg.kind = .argument then bindArgument s fieldsOf arg)
      (fun _ => Filling s []) fun _ => True := by
  induction children with
  | nil => exact Contract.pure _ fun _ hb => hb
  | cons child children ih =>
      obtain ⟨hrest, hsorted⟩ := List.pairwise_cons.mp h
      refine Contract.bind (Q := fun _ => Filling s children) ?_ fun _ => ih hsorted
      refine Contract.get_bind fun b hb => ?_
      cases harg : b.program.decl? child with
      | none => exact Contract.throw _ fun _ _ => True.intro
      | some arg =>
          obtain rfl := hb.program.id_eq harg
          dsimp only
          split
          · exact (filling_bindArgument hrest fieldsOf).weaken (fun _ hs => hs ▸ hb) (fun _ _ hs => hs)
              fun _ hs => hs
          · exact Contract.pure _ fun _ hs => hs ▸ { hb with filling := hb.filling.skip }

/-! ### The kinds of declarations -/

/-- Parameters stand in order, and the kinds of some symbols are known. -/
structure Parametrized (known : List (SymbolId × SymbolKind)) (b : Binding) : Prop where
  program : b.program.WellFormed
  wellFormed : b.graph.WellFormed
  lined : b.graph.Lined .parameter .parameter
  kind? : ∀ {x kind}, (x, kind) ∈ known → b.graph.kind? x = some kind

theorem Parametrized.forget (h : Parametrized known b) : Parametrized [] b :=
  { h with kind? := fun hx => absurd hx List.not_mem_nil }

theorem Parametrized.calmed (h : Parametrized known b) {known' : List (SymbolId × SymbolKind)}
    (hc : Calmed .parameter (· == .parameter) b.graph known' b') : Parametrized known' b' where
  program := hc.program
  wellFormed := hc.calm.wellFormed
  lined := h.lined.calm h.wellFormed hc.calm rfl
  kind? := hc.kind?

theorem parametrized_of_calmed {m : BindM α}
    (hm : ∀ g₀, Keeps (Calmed .parameter (· == .parameter) g₀ known) m) :
    Contract (Parametrized known) m (fun _ => Parametrized known) fun _ => True := by
  refine Contract.each fun b hb => ?_
  refine Contract.weaken (hm b.graph) ?_ (fun _ _ hc => hb.calmed hc.1) fun _ _ => True.intro
  rintro _ rfl
  exact ⟨hb.program, .refl hb.wellFormed, hb.kind?⟩

theorem parametrized_bindSignature (hsorted : d.children.Pairwise DeclId.Before)
    (flags : Flags SymbolFlag) (fieldsOf : Option SymbolId) : Contract (Parametrized known)
      (bindSignature d flags fieldsOf) (fun s => Parametrized [(s, .signature)])
      fun _ => True := by
  unfold bindSignature
  refine Contract.each fun b hb => ?_
  refine Contract.bind (contract_alloc _ _ _) fun s => Contract.assuming ?_
  rintro rfl
  refine Contract.bind (contract_contribute _ _) fun _ => ?_
  refine Contract.bind (Q := fun _ => Filling b.graph.size []) ?_ fun _ => Contract.pure _ ?_
  · refine (filling_arguments hsorted fieldsOf).weaken ?_ (fun _ _ hs => hs) fun _ hs => hs
    rintro _ rfl
    have hcalm : Calm .parameter (· == .parameter) b.graph
        (b.graph.allocFor d.name .signature flags d.id) := by
      refine ((Calm.refl hb.wellFormed).alloc _ _ _).declare (.inl ?_)
      rintro ⟨kind, hk, hin⟩
      rw [kind?_alloc, if_pos rfl] at hk
      obtain rfl := Option.some.inj hk
      exact absurd hin (by decide)
    refine ⟨hb.program, kind?_allocFor_size .., hcalm.wellFormed,
      hb.lined.calm hb.wellFormed hcalm rfl, by simp, fun t ht => ?_⟩
    have hnil : (b.graph.allocFor d.name .signature flags d.id).targets b.graph.size .parameter =
        [] := by
      rw [targets_allocFor, targets_eq_nil (Nat.le_refl _)]
    exact absurd (hnil ▸ ht) List.not_mem_nil
  · intro b₁ hb₁
    refine ⟨hb₁.program, hb₁.filling.wellFormed, hb₁.filling.lined, fun hx => ?_⟩
    obtain ⟨rfl, rfl⟩ := Prod.mk.inj (List.mem_singleton.mp hx)
    exact hb₁.kind?

theorem parametrized_signature (hsorted : d.children.Pairwise DeclId.Before) {kind : EdgeKind}
    (hkind : kind ≠ .parameter) (flags : Flags SymbolFlag) (fieldsOf : Option SymbolId)
    (inside : SymbolId → Inside) (owner : Option SymbolId) :
    Contract (Parametrized known) (bindSignature d flags fieldsOf >>= fun s =>
      hangSignature kind d.id (inside s) owner s) (fun _ => Parametrized []) fun _ => True := by
  refine Contract.bind (parametrized_bindSignature hsorted flags fieldsOf) fun s => ?_
  have hhang : Contract (Parametrized [(s, .signature)])
      (hangSignature kind d.id (inside s) owner s) (fun _ => Parametrized [(s, .signature)])
      fun _ => True := parametrized_of_calmed fun g₀ => calmed_hangSignature (by simp) (List.mem_singleton_self _)
      (by decide) hkind d.id (inside s) owner
  exact hhang.weaken (fun _ hb => hb) (fun _ _ hb => hb.forget) fun _ hb => hb

theorem parametrized_bindConstructor (hsorted : d.children.Pairwise DeclId.Before) :
    Contract (Parametrized []) (bindConstructor scope d) (fun _ => Parametrized [])
      fun _ => True := by
  rw [bindConstructor_eq]
  refine Contract.bind (parametrized_of_calmed fun g₀ => calmed_constructedType scope)
    fun fieldsOf => ?_
  exact parametrized_signature hsorted (by simp) _ fieldsOf (fun s => .scope (some s)) scope

theorem parametrized_bindMemberSignature (hsorted : d.children.Pairwise DeclId.Before) :
    Contract (Parametrized []) (bindMemberSignature scope d) (fun _ => Parametrized [])
      fun _ => True := by
  have hkind : d.signatureEdge ≠ .parameter := by
    intro heq
    have hsig := d.isSignature_signatureEdge
    rw [heq] at hsig
    exact absurd hsig (by decide)
  have hsignature : ∀ owner, Contract (Parametrized []) (bindSignatureIn d owner)
      (fun _ => Parametrized []) fun _ => True := fun owner =>
    parametrized_signature hsorted hkind _ none (fun _ => .closed) owner
  rw [bindMemberSignature_eq]
  split
  · exact hsignature scope
  · exact Contract.bind (parametrized_of_calmed fun g₀ => calmed_owner scope d) hsignature

theorem parametrized_bindFunction (hsorted : d.children.Pairwise DeclId.Before) :
    Contract (Parametrized []) (bindFunction unit scope d) (fun _ => Parametrized [])
      fun _ => True := by
  have hkind : ¬d.functionKind == .parameter := by
    have hlike := isFunctionLike_functionKind d
    intro heq
    rw [beq_iff_eq.mp heq] at hlike
    exact absurd hlike (by decide)
  rw [bindFunction_eq]
  refine Contract.bind (Q := fun f => Parametrized [(f, d.functionKind)]) ?_ fun f => ?_
  · refine Contract.each fun b hb => ?_
    refine Contract.weaken (calmed_mergeOrCreate (by simp) (by simp [EdgeKind.isMembership])
      (by simp)) ?_ (fun _ _ hc => hb.calmed hc) fun _ _ => True.intro
    rintro _ rfl
    exact .refl hb.program hb.wellFormed
  · refine Contract.bind (Q := fun _ => Parametrized [(f, d.functionKind)])
      (parametrized_of_calmed fun g₀ => ?_) fun _ => ?_
    · refine calmed_record (List.mem_singleton_self _) ?_ d.id
      exact hkind
    refine contract_graph_bind fun b hb => ?_
    refine Contract.bind (Q := fun s => Parametrized [(s, .signature)]) ?_ fun s => ?_
    · exact (parametrized_bindSignature hsorted _ none).weaken (fun _ hs => hs ▸ hb)
        (fun _ _ hs => hs) fun _ hs => hs
    · exact Contract.bind (parametrized_of_calmed fun g₀ => calmed_link (by simp) f s (by simp))
        fun _ => Contract.pure _ fun _ hs => hs.forget

theorem parametrized_bindDecl (hsorted : d.children.Pairwise DeclId.Before) :
    Contract (Parametrized []) (bindDecl unit scope d) (fun _ => Parametrized [])
      fun _ => True := by
  rcases aside_parameter.calmed_bindDecl unit scope d with hcalm | heq | heq | heq
  · exact parametrized_of_calmed hcalm
  · rw [heq]
    exact parametrized_bindConstructor hsorted
  · rw [heq]
    exact parametrized_bindFunction hsorted
  · rw [heq]
    exact parametrized_bindMemberSignature hsorted

/-! ### Units -/

/-- What is bound so far is in order, and comes before a declaration. -/
structure Ordered (now : DeclId) (b : Binding) : Prop where
  ranked : Ranked now [] b
  parametrized : Parametrized [] b

theorem ordered_bindNext (hsorted : d.children.Pairwise DeclId.Before) (opened : Array Inside) :
    Contract (Ordered d.id) (bindNext unit opened d) (fun _ => Ordered d.id.next) fun _ => True := by
  have hranked : ∀ scope, Contract (Ordered d.id) (bindDecl unit scope d)
      (fun _ => Ranked d.id.next []) fun _ => True := fun scope =>
    ranked_bindDecl.weaken (fun _ hb => hb.ranked) (fun _ _ hb => hb) fun _ hb => hb
  have hparametrized : ∀ scope, Contract (Ordered d.id) (bindDecl unit scope d)
      (fun _ => Parametrized []) fun _ => True := fun scope =>
    (parametrized_bindDecl hsorted).weaken (fun _ hb => hb.parametrized) (fun _ _ hb => hb)
      fun _ hb => hb
  unfold bindNext
  split
  · exact Contract.pure _ fun _ hb => { hb with ranked := hb.ranked.next }
  · refine Contract.bind (Q := fun _ => Ordered d.id.next) ?_ fun _ => Contract.pure _ fun _ hb => hb
    exact (Contract.both (hranked _) (hparametrized _)).weaken (fun _ hb => hb)
      (fun _ _ hb => ⟨hb.1, hb.2⟩) fun _ _ => True.intro

/-- By induction on the declarations, which are numbered in a row. -/
theorem ordered_foldlM_bindNext {ds : List Decl} {n : Nat}
    (hids : ∀ (i : Nat) (d : Decl), ds[i]? = some d → d.id = ⟨unit, n + i⟩)
    (hsorted : ∀ d ∈ ds, d.children.Pairwise DeclId.Before) (opened : Array Inside) :
    Contract (Ordered ⟨unit, n⟩) (ds.foldlM (bindNext unit) opened)
      (fun _ => Ordered ⟨unit, n + ds.length⟩) fun _ => True := by
  induction ds generalizing n opened with
  | nil => exact Contract.pure _ fun _ hb => hb
  | cons d ds ih =>
      have hid : d.id = ⟨unit, n⟩ := hids 0 d rfl
      have hnext : Contract (Ordered d.id) (bindNext unit opened d) (fun _ => Ordered d.id.next)
          fun _ => True := ordered_bindNext (hsorted d List.mem_cons_self) opened
      rw [hid] at hnext
      rw [List.foldlM_cons, List.length_cons, Nat.add_comm ds.length, ← Nat.add_assoc]
      refine Contract.bind hnext fun opened => ih (fun i e he => ?_)
        (fun e he => hsorted e (List.mem_cons_of_mem _ he)) opened
      rw [hids (i + 1) e he, Nat.add_comm i, Nat.add_assoc]

/-- What is bound in a graph in order leaves it in order, if it comes from a later unit. -/
theorem ordered_bindUnit {u : CompilationUnit} (hu : u ∈ b.program.units)
    (hsorted : ∀ d ∈ u.decls.toList, d.children.Pairwise DeclId.Before)
    (hp : b.program.WellFormed) (hg : b.graph.WellFormed) (hranks : b.graph.RanksSignatures)
    (hold : ∀ {x e}, e ∈ b.graph.declarations x → e.unit < u.id) :
    Contract (· = b) (bindUnit u.id) (fun _ b' => b'.graph.RanksSignatures) fun _ => True := by
  have hstart : Ordered ⟨u.id, 0⟩ b :=
    { ranked := ⟨hp, { hranks.overloads with
        wellFormed := hg
        dated := fun _ he => .inl (.inl (hold he)) }⟩
      parametrized := ⟨hp, hg, hranks.parameters, fun hx => absurd hx List.not_mem_nil⟩ }
  have hids : ∀ (i : Nat) (d : Decl), u.decls.toList[i]? = some d → d.id = ⟨u.id, 0 + i⟩ := by
    intro i d hd
    rw [Array.getElem?_toList] at hd
    rw [hp.numbered u hu i d hd, Nat.zero_add]
  unfold bindUnit
  refine Contract.get_bind ?_
  rintro _ rfl
  rw [hp.unitById?_eq_some_iff.mpr ⟨hu, rfl⟩]
  dsimp only
  split
  · exact Contract.throw _ fun _ _ => True.intro
  · refine Contract.bind ((ordered_foldlM_bindNext hids hsorted #[]).weaken
      (fun _ hb => hb ▸ hstart) (fun _ _ hb => hb) fun _ hb => hb) fun _ => Contract.pure _ ?_
    exact fun _ hb => ⟨hb.ranked.graph.toRanksOverloads, hb.parametrized.lined⟩

end Binding

end NameBinding
