import NameBinding.Proofs.Bind.Calm
import NameBinding.Proofs.Graph.Overloads

/-! # Binding keeps overloads in order

Declarations are bound in their order, so what one adds to a list comes last. -/

namespace NameBinding

open SymbolGraph

namespace Binding

open BindM

theorem aside_callSignature : Aside .callSignature SymbolKind.isCallable where
  edge := .inl rfl
  kinds _ h := by
    simp only [SymbolKind.isCallable, Bool.or_eq_true, beq_iff_eq] at h
    exact h.imp_right .inl

theorem aside_parameter : Aside .parameter (· == .parameter) where
  edge := .inr rfl
  kinds _ h := .inr (.inr (beq_iff_eq.mp h))

variable {b b' : Binding} {unit : UnitId} {scope : Option SymbolId} {d : Decl} {s f : SymbolId}
  {now : DeclId} {late : List SymbolId} {flags : Flags SymbolFlag}
  {known : List (SymbolId × SymbolKind)}

/-! ### Single steps -/

theorem contract_alloc (name : String) (kind : SymbolKind) (flags : Flags SymbolFlag) :
    Contract (· = b) (alloc name kind flags)
      (fun x b' => x = b.graph.size ∧ b' = ⟨b.graph.alloc name kind flags, b.program⟩)
      fun _ => True := by
  rintro _ rfl
  exact ⟨rfl, rfl⟩

theorem contract_contribute (x : SymbolId) (decl : DeclId) : Contract (· = b) (contribute x decl)
    (fun _ b' => b' = ⟨b.graph.declare x decl, b.program⟩) fun _ => True := by
  rintro b rfl
  have hstep := GraphM.contract_declare (P := (· = b.graph)) x decl b.graph rfl
  unfold contribute onGraph
  cases hs : GraphM.declare x decl b.graph with
  | error e g => exact True.intro
  | ok a g =>
      rw [hs] at hstep
      obtain ⟨_, rfl, -, rfl⟩ := hstep
      rfl

theorem contract_record (decl : DeclId) (x : SymbolId) : Contract (· = b) (record decl x)
    (fun _ b' => b'.graph = b.graph.declare x decl ∧
      (b.program.WellFormed → b'.program.WellFormed)) fun _ => True := by
  unfold record
  refine Contract.bind (contract_contribute x decl) fun _ => Contract.get_bind fun b₁ hb₁ => ?_
  dsimp only
  split
  · exact Contract.throw _ fun _ _ => True.intro
  · refine Contract.modify fun b₂ hb₂ => ?_
    rw [hb₂, hb₁]
    exact ⟨rfl, fun hp => wellFormed_bindTo hp decl x⟩

theorem contract_link (source target : SymbolId) (kind : EdgeKind) :
    Contract (· = b) (link source target kind)
      (fun _ b' => source < b.graph.size ∧ target < b.graph.size ∧
        b' = ⟨b.graph.addEdge ⟨source, target, kind⟩, b.program⟩) fun _ => True := by
  refine Contract.bind (Q := fun _ b' => source < b.graph.size ∧ target < b.graph.size ∧
    b' = ⟨b.graph.addEdge ⟨source, target, kind⟩, b.program⟩) ?_ fun _ =>
      Contract.pure _ fun _ h => h
  rintro b rfl
  have hstep := GraphM.contract_link (P := (· = b.graph)) source target kind b.graph rfl
  unfold onGraph
  cases hs : GraphM.link source target kind b.graph with
  | error e g => exact True.intro
  | ok a g =>
      rw [hs] at hstep
      obtain ⟨_, rfl, hsource, htarget, rfl⟩ := hstep
      exact ⟨hsource, htarget, rfl⟩

/-! ### Signatures -/

/-- Overloads stand in order while a declaration is bound. -/
structure Ranked (now : DeclId) (late : List SymbolId) (b : Binding) : Prop where
  program : b.program.WellFormed
  graph : b.graph.InOrder now late

/-- A signature was made for a declaration, and the overloads stayed as they were. -/
structure Signed (b : Binding) (d : Decl) (flags : Flags SymbolFlag) (s : SymbolId)
    (b' : Binding) : Prop where
  new : s = b.graph.size
  calmed : Calmed .callSignature SymbolKind.isCallable
    (b.graph.allocFor d.name .signature flags d.id) [] b'

theorem Ranked.calmed (h : Ranked now late b)
    (hc : Calmed .callSignature SymbolKind.isCallable b.graph known b') : Ranked now late b' :=
  ⟨hc.program, h.graph.calm hc.calm⟩

theorem Ranked.next (h : Ranked now late b) : Ranked now.next [] b := ⟨h.program, h.graph.next⟩

namespace Signed

variable (h : Signed b d flags s b')
include h

theorem lt_size : s < (b.graph.allocFor d.name .signature flags d.id).size := by
  simp [h.new]

theorem kind? : b'.graph.kind? s = some .signature := by
  rw [h.calmed.calm.kind? h.lt_size, h.new, kind?_allocFor_size]

theorem declarations : b'.graph.declarations s = [d.id] := by
  rw [h.calmed.calm.declarations ⟨_, h.kind?, rfl⟩, h.new, declarations_allocFor_size]

theorem isDefinition : b'.graph.isDefinition s = flags.has .definition := by
  have hhas := h.calmed.calm.has .definition h.lt_size
  rw [SymbolGraph.isDefinition, hhas, h.new]
  exact has_allocFor_size ..

theorem kind?_of_lt {x : SymbolId} (hx : x < b.graph.size) :
    b'.graph.kind? x = b.graph.kind? x := by
  rw [h.calmed.calm.kind? (by simpa using Nat.lt_succ_of_lt hx), kind?_allocFor _ _ _ _ _ hx]

theorem ranked (hb : Ranked d.id late b) : Ranked d.id (s :: late) b' := by
  rw [h.new]
  exact ⟨h.calmed.program, (hb.graph.sign _ _).calm h.calmed.calm⟩

theorem filter_isDefinition (hg : b.graph.WellFormed) {x : SymbolId} (hx : x < b.graph.size) :
    (b'.graph.targets x .callSignature).filter b'.graph.isDefinition =
      (b.graph.targets x .callSignature).filter b.graph.isDefinition := by
  rw [h.calmed.calm.filter_isDefinition (hg.allocFor ..) (by simpa using Nat.lt_succ_of_lt hx),
    filter_isDefinition_allocFor _ _ _ _ hg]

end Signed

/-- By what is known of the parameters, they do not touch the overloads. -/
theorem signed_bindSignature (hp : b.program.WellFormed) (hg : b.graph.WellFormed) (d : Decl)
    (flags : Flags SymbolFlag) (fieldsOf : Option SymbolId) : Contract (· = b)
      (bindSignature d flags fieldsOf) (Signed b d flags) fun _ => True := by
  unfold bindSignature
  refine Contract.bind (contract_alloc _ _ _) fun s => Contract.assuming ?_
  rintro rfl
  refine Contract.bind (contract_contribute _ _) fun _ => ?_
  refine Contract.bind (Q := fun _ => Calmed .callSignature SymbolKind.isCallable
    (b.graph.allocFor d.name .signature flags d.id) []) ?_ fun _ => Contract.pure _ fun _ hb => ⟨rfl, hb⟩
  refine Contract.weaken (aside_callSignature.calmed_arguments (by simp) (by decide) _ fieldsOf _)
    ?_ (fun _ _ hb => hb.1) fun _ _ => True.intro
  rintro _ rfl
  exact Calmed.refl (b := ⟨b.graph.allocFor d.name .signature flags d.id, b.program⟩) hp
    (hg.allocFor ..)

/-! ### The kinds of declarations -/

theorem ranked_of_calmed {α : Type} {m : BindM α}
    (hm : ∀ g₀, Keeps (Calmed .callSignature SymbolKind.isCallable g₀ []) m) :
    Contract (Ranked now late) m (fun _ => Ranked now late) fun _ => True := by
  refine Contract.each fun b hb => ?_
  refine Contract.weaken (hm b.graph) ?_ (fun _ _ hc => hb.calmed hc.1) fun _ _ => True.intro
  rintro _ rfl
  exact .refl hb.program hb.graph.wellFormed

/-- A signature that lists its declaration is hung on its owner, and recorded again. -/
theorem ranked_hangSignature (hb : Ranked d.id [s] b) (hs : b.graph.kind? s = some .signature)
    (hdecl : b.graph.declarations s = [d.id]) {kind : EdgeKind}
    (hdefinition : kind = .callSignature → ¬b.graph.isDefinition s) (inside : Inside)
    (owner : Option SymbolId) : Contract (· = b) (hangSignature kind d.id inside owner s)
      (fun _ => Ranked d.id.next []) fun _ => True := by
  have hlast : ∀ b, Ranked d.id [s] b → d.id ∈ b.graph.declarations s →
      Contract (· = b) (record d.id s >>= fun _ => pure inside) (fun _ => Ranked d.id.next [])
        fun _ => True := by
    intro b hb hmem
    refine Contract.bind (contract_record d.id s) fun _ => Contract.pure _ fun b' ⟨hg, hp⟩ => ?_
    have hcalm : Calm .callSignature SymbolKind.isCallable b.graph (b.graph.declare s d.id) :=
      (Calm.refl hb.graph.wellFormed).declare (.inr hmem)
    exact Ranked.next ⟨hp hb.program, hg ▸ hb.graph.calm hcalm⟩
  unfold hangSignature
  cases owner with
  | none => exact hlast b hb (by simp [hdecl])
  | some x =>
      refine Contract.bind (contract_link x s kind) fun _ => Contract.each ?_
      rintro _ ⟨hx, hlt, rfl⟩
      refine hlast _ ⟨hb.program, ?_⟩ ?_
      · by_cases hk : kind = .callSignature
        · subst hk
          exact hb.graph.hang hx hs hdecl (by simp) fun _ hd => absurd hd (hdefinition rfl)
        · exact hb.graph.calm ((Calm.refl hb.graph.wellFormed).addEdge hx hlt (by simp)
            fun heq => absurd heq hk)
      · rw [declarations_congr (label?_addEdge _ _ _), hdecl]
        exact List.mem_singleton_self _

theorem ranked_signature (d : Decl) {kind : EdgeKind} {flags : Flags SymbolFlag}
    (hflags : kind = .callSignature → ¬flags.has .definition) (fieldsOf : Option SymbolId)
    (inside : SymbolId → Inside) (owner : Option SymbolId) :
    Contract (Ranked d.id []) (bindSignature d flags fieldsOf >>= fun s =>
      hangSignature kind d.id (inside s) owner s) (fun _ => Ranked d.id.next []) fun _ => True := by
  refine Contract.each fun b hb => ?_
  refine Contract.bind (signed_bindSignature hb.program hb.graph.wellFormed d flags fieldsOf)
    fun s => Contract.each fun b' hs => ?_
  refine ranked_hangSignature (hs.ranked hb) hs.kind? hs.declarations (fun hk => ?_) _ _
  rw [hs.isDefinition]
  exact hflags hk

theorem ranked_bindConstructor : Contract (Ranked d.id []) (bindConstructor scope d)
    (fun _ => Ranked d.id.next []) fun _ => True := by
  rw [bindConstructor_eq]
  refine Contract.bind (ranked_of_calmed fun g₀ => calmed_constructedType scope) fun fieldsOf => ?_
  exact ranked_signature d (by simp) fieldsOf (fun s => .scope (some s)) scope

theorem ranked_bindMemberSignature : Contract (Ranked d.id []) (bindMemberSignature scope d)
    (fun _ => Ranked d.id.next []) fun _ => True := by
  have hsignature : ∀ owner, Contract (Ranked d.id []) (bindSignatureIn d owner)
      (fun _ => Ranked d.id.next []) fun _ => True := by
    refine fun owner => ranked_signature d (fun _ => ?_) none (fun _ => .closed) owner
    split <;> decide
  rw [bindMemberSignature_eq]
  split
  · exact hsignature scope
  · exact Contract.bind (ranked_of_calmed fun g₀ => calmed_owner scope d) hsignature

theorem isFunctionLike_functionKind (d : Decl) : d.functionKind.isFunctionLike := by
  unfold Decl.functionKind
  split <;> rfl

/-- A function without a definition has none among its signatures. -/
theorem filter_isDefinition_eq_nil {g : SymbolGraph} (hf : g.Is SymbolKind.isFunctionLike f)
    (h : (g.definition? f).isNone) :
    (g.targets f .callSignature).filter g.isDefinition = [] := by
  obtain ⟨kind, hk, hin⟩ := hf
  simpa [definition?, listFor, hk, hin] using h

/-- The declaration and its signature come last on the function, and it is a definition only if the
function had none. -/
theorem ranked_overload (hb : Ranked d.id [] b) (hf : b.graph.kind? f = some d.functionKind) :
    Contract (· = b) (record d.id f >>= fun _ => BindM.graph >>= fun g =>
      bindSignature d (if d.has .implementation && (g.definition? f).isNone then
        Flags.single .definition else ∅) none >>= fun s =>
          link f s .callSignature >>= fun _ => pure (Inside.scope (some f)))
      (fun _ => Ranked d.id.next []) fun _ => True := by
  have hlike : b.graph.Is SymbolKind.isFunctionLike f := ⟨_, hf, isFunctionLike_functionKind d⟩
  refine Contract.bind (contract_record d.id f) fun _ => Contract.each fun b₁ ⟨hg, hp⟩ => ?_
  have hb₁ : Ranked d.id [f] b₁ := ⟨hp hb.program, hg ▸ hb.graph.declareFunction hlike⟩
  have hf₁ : b₁.graph.kind? f = some d.functionKind := by rw [hg, kind?_declare, hf]
  have hlike₁ : b₁.graph.Is SymbolKind.isFunctionLike f := ⟨_, hf₁, isFunctionLike_functionKind d⟩
  refine contract_graph_bind fun s hs => ?_
  subst hs
  refine Contract.bind (signed_bindSignature hb₁.program hb₁.graph.wellFormed d _ none) fun s =>
    Contract.each fun b₂ hs => ?_
  have hb₂ := hs.ranked hb₁
  refine Contract.bind (contract_link f s .callSignature) fun _ => Contract.pure _ ?_
  rintro _ ⟨hlt, -, rfl⟩
  refine Ranked.next ⟨hb₂.program, hb₂.graph.hang hlt hs.kind? hs.declarations ?_ ?_⟩
  · intro t ht hkt
    rcases List.mem_cons.mp ht with rfl | ht
    · rfl
    · obtain rfl := List.mem_singleton.mp ht
      rw [hs.kind?_of_lt hlike₁.lt_size, hf₁] at hkt
      have hin := isFunctionLike_functionKind d
      rw [Option.some.inj hkt] at hin
      exact absurd hin (by decide)
  · intro _ hd
    rw [hs.isDefinition] at hd
    rw [hs.filter_isDefinition hb₁.graph.wellFormed hlike₁.lt_size]
    refine filter_isDefinition_eq_nil hlike₁ ?_
    by_contra hsome
    simp [hsome] at hd

theorem ranked_bindFunction : Contract (Ranked d.id []) (bindFunction unit scope d)
    (fun _ => Ranked d.id.next []) fun _ => True := by
  rw [bindFunction_eq]
  refine Contract.each fun b hb => ?_
  refine Contract.bind (Q := fun f => Calmed .callSignature SymbolKind.isCallable b.graph
    [(f, d.functionKind)]) ?_ fun f => Contract.each fun b₁ hc => ?_
  · refine Contract.weaken (calmed_mergeOrCreate (by simp) (by simp [EdgeKind.isMembership])
      (by simp)) ?_ (fun _ _ hc => hc) fun _ _ => True.intro
    rintro _ rfl
    exact .refl hb.program hb.graph.wellFormed
  · exact ranked_overload (hb.calmed hc) (hc.kind? (List.mem_singleton_self _))

theorem ranked_bindDecl : Contract (Ranked d.id []) (bindDecl unit scope d)
    (fun _ => Ranked d.id.next []) fun _ => True := by
  rcases aside_callSignature.calmed_bindDecl unit scope d with hcalm | heq | heq | heq
  · exact (ranked_of_calmed hcalm).weaken (fun _ hb => hb) (fun _ _ hb => hb.next) fun _ h => h
  · rw [heq]
    exact ranked_bindConstructor
  · rw [heq]
    exact ranked_bindFunction
  · rw [heq]
    exact ranked_bindMemberSignature

end Binding

end NameBinding
