import NameBinding.Proofs.Bind.Appended
import NameBinding.Proofs.Bind.Declarations
import NameBinding.Proofs.Graph.Lined

/-! # Steps of binding that are calm

Only functions and signatures, with their parameters, bring call signatures, parameters and
declarations on symbols of these kinds. All other steps are calm about them. -/

namespace NameBinding

open SymbolGraph

namespace Binding

open BindM

/-- The graph came calmly from an earlier one, and the kinds of some symbols are known. -/
structure Calmed (edge : EdgeKind) (kinds : SymbolKind → Bool) (g₀ : SymbolGraph)
    (known : List (SymbolId × SymbolKind)) (b : Binding) : Prop where
  program : b.program.WellFormed
  calm : Calm edge kinds g₀ b.graph
  kind? : ∀ {x kind}, (x, kind) ∈ known → b.graph.kind? x = some kind

variable {edge : EdgeKind} {kinds : SymbolKind → Bool} {g₀ : SymbolGraph}
  {known : List (SymbolId × SymbolKind)} {b : Binding} {unit : UnitId} {scope : Option SymbolId}
  {d : Decl} {x : SymbolId} {kind : SymbolKind} {α : Type}

namespace Calmed

theorem refl (hp : b.program.WellFormed) (hg : b.graph.WellFormed) :
    Calmed edge kinds b.graph [] b :=
  ⟨hp, .refl hg, fun h => absurd h List.not_mem_nil⟩

theorem alloc (h : Calmed edge kinds g₀ known b) (name : String) (kind : SymbolKind)
    (flags : Flags SymbolFlag) : Calmed edge kinds g₀ ((b.graph.size, kind) :: known)
      ⟨b.graph.alloc name kind flags, b.program⟩ where
  program := h.program
  calm := h.calm.alloc name kind flags
  kind? {x k} hx := by
    rw [kind?_alloc]
    rcases List.mem_cons.mp hx with heq | hx
    · obtain ⟨rfl, rfl⟩ := Prod.mk.inj heq
      exact if_pos rfl
    · rw [if_neg (Nat.ne_of_lt (lt_size_of_kind? (h.kind? hx)))]
      exact h.kind? hx

theorem addEdge (h : Calmed edge kinds g₀ known b) {e : Edge} (hs : e.source < b.graph.size)
    (ht : e.target < b.graph.size) (hc : edge ≠ .containedBy) (hne : e.kind ≠ edge) :
    Calmed edge kinds g₀ known ⟨b.graph.addEdge e, b.program⟩ where
  program := h.program
  calm := h.calm.addEdge hs ht hc fun heq => absurd heq hne
  kind? hx := by
    rw [kind?_congr (label?_addEdge _ _ _)]
    exact h.kind? hx

theorem forget (h : Calmed edge kinds g₀ ((x, kind) :: known) b) : Calmed edge kinds g₀ known b :=
  { h with kind? := fun hx => h.kind? (List.mem_cons_of_mem _ hx) }

end Calmed

/-- The steps that follow go on with the symbol that a step makes, and know its kind. -/
theorem keeps_calmed_bind {m : BindM SymbolId} {f : SymbolId → BindM α}
    (hm : Contract (Calmed edge kinds g₀ known) m
      (fun x => Calmed edge kinds g₀ ((x, kind) :: known)) (Calmed edge kinds g₀ known))
    (hf : ∀ x, Keeps (Calmed edge kinds g₀ ((x, kind) :: known)) (f x)) :
    Keeps (Calmed edge kinds g₀ known) (m >>= f) :=
  Contract.bind hm fun x => Contract.weaken (hf x) (fun _ hb => hb)
    (fun _ _ hb => ⟨hb.1.forget, hb.2⟩) fun _ hb => hb.forget

/-- The symbol is answered after a step. -/
theorem calmed_bind_pure {m : BindM PUnit}
    (hm : Keeps (Calmed edge kinds g₀ ((x, kind) :: known)) m) :
    Contract (Calmed edge kinds g₀ ((x, kind) :: known)) (m >>= fun _ => pure x)
      (fun x => Calmed edge kinds g₀ ((x, kind) :: known)) (Calmed edge kinds g₀ known) :=
  Contract.bind (Contract.weaken hm (fun _ hb => hb) (fun _ _ hb => hb.1) fun _ hb => hb.forget)
    fun _ => Contract.pure _ fun _ hb => hb

theorem calmed_alloc (name : String) (kind : SymbolKind) (flags : Flags SymbolFlag) :
    Contract (Calmed edge kinds g₀ known) (alloc name kind flags)
      (fun x => Calmed edge kinds g₀ ((x, kind) :: known)) (Calmed edge kinds g₀ known) := by
  intro b hb
  exact hb.alloc name kind flags

section Steps

variable (hc : edge ≠ .containedBy)

theorem calmed_contribute (hx : (x, kind) ∈ known) (hk : ¬kinds kind) (decl : DeclId) :
    Keeps (Calmed edge kinds g₀ known) (contribute x decl) := by
  refine keeps_onGraph fun b hb => ?_
  refine (GraphM.contract_declare x decl).weaken (fun _ hg => hg) ?_ fun _ hg => hg ▸ hb
  rintro - _ ⟨_, rfl, -, rfl⟩
  refine ⟨⟨hb.program, hb.calm.declare (.inl ?_), fun hx => ?_⟩, True.intro⟩
  · rintro ⟨k, hkx, hin⟩
    rw [hb.kind? hx] at hkx
    exact hk (Option.some.inj hkx ▸ hin)
  · rw [kind?_declare]
    exact hb.kind? hx

/-- What notes a symbol on a declaration changes the program alone. -/
theorem wellFormed_bindTo {p : Program} (hp : p.WellFormed) (decl : DeclId) (x : SymbolId) :
    (p.modifyUnit decl.unit (·.modifyDecl decl (·.bindTo x))).WellFormed :=
  hp.modifyUnit decl.unit (by intro u; simp) (by intro u; simp)
    fun u hu => hu.modifyDecl decl (by intro y; rfl)

theorem calmed_record (hx : (x, kind) ∈ known) (hk : ¬kinds kind) (decl : DeclId) :
    Keeps (Calmed edge kinds g₀ known) (record decl x) := by
  unfold record
  refine (calmed_contribute hx hk decl).bind fun _ _ => Keeps.get_bind fun b _ => ?_
  dsimp only
  split
  · exact Keeps.throw _
  · exact Keeps.modify fun b hb => { hb with program := wellFormed_bindTo hb.program decl x }

theorem calmed_addTopLevel (name : String) (x : SymbolId) :
    Keeps (Calmed edge kinds g₀ known) (addTopLevel unit name x) :=
  Keeps.modify fun b hb => { hb with
    program := hb.program.modifyUnit unit (by intro u; rfl) (by intro u; rfl) fun _ hu => hu }

theorem calmed_owner (scope : Option SymbolId) (d : Decl) :
    Keeps (Calmed edge kinds g₀ known) (owner scope d) := by
  unfold owner
  split
  · exact Keeps.pure True.intro
  · refine keeps_graph_bind fun g => ?_
    split
    · split
      · exact Keeps.pure True.intro
      · exact Keeps.throw _
    · exact Keeps.pure True.intro

theorem calmed_constructedType (scope : Option SymbolId) :
    Keeps (Calmed edge kinds g₀ known) (constructedType scope) := by
  unfold constructedType
  refine keeps_graph_bind fun g => ?_
  split
  · exact Keeps.pure True.intro
  · split
    · split
      · exact Keeps.pure True.intro
      · exact Keeps.throw _
    · exact Keeps.pure True.intro

include hc

theorem calmed_link (source target : SymbolId) {kind : EdgeKind} (hne : kind ≠ edge) :
    Keeps (Calmed edge kinds g₀ known) (link source target kind) := by
  refine Keeps.bind (Q := fun _ => True) (keeps_onGraph fun b hb => ?_) fun _ _ =>
    Keeps.pure True.intro
  refine (GraphM.contract_link source target kind).weaken (fun _ hg => hg) ?_ fun _ hg => hg ▸ hb
  rintro - _ ⟨_, rfl, hs, ht, rfl⟩
  exact ⟨hb.addEdge hs ht hc hne, True.intro⟩

variable (hm : ¬edge.isMembership)
include hm

theorem calmed_attach (owner : Option SymbolId) (x : SymbolId) (d : Decl) :
    Keeps (Calmed edge kinds g₀ known) (attach unit owner x d) := by
  unfold attach
  split
  · split
    · exact calmed_addTopLevel _ _
    · exact Keeps.pure True.intro
  · refine keeps_graph_bind fun g => ?_
    split
    · next membership hmembership =>
      refine calmed_link hc _ _ ?_
      rintro rfl
      split at hmembership
      · exact absurd hmembership (by simp)
      · obtain ⟨k, -, hk⟩ := Option.bind_eq_some_iff.mp hmembership
        exact hm (isMembership_of_membership? hk)
    · exact calmed_link hc _ _ hc.symm

omit hc hm in
theorem kind?_of_mergeable? {owner : Option SymbolId} {name : String}
    {accept : SymbolKind → Flags SymbolFlag → Bool} (haccept : ∀ k flags, accept k flags → k = kind)
    (h : mergeable? b owner name accept = some x) : b.graph.kind? x = some kind := by
  unfold mergeable? at h
  split at h
  · exact absurd h (by simp)
  · have hp := List.find?_some h
    cases hs : b.graph.get? x with
    | none => simp [hs] at hp
    | some s =>
        simp only [hs, Bool.and_eq_true] at hp
        simp [SymbolGraph.kind?, hs, haccept _ _ hp.2]

theorem calmed_mergeOrCreate {accept : SymbolKind → Flags SymbolFlag → Bool}
    (haccept : ∀ k flags, accept k flags → k = kind) :
    Contract (Calmed edge kinds g₀ known) (mergeOrCreate unit scope d kind accept)
      (fun x => Calmed edge kinds g₀ ((x, kind) :: known)) (Calmed edge kinds g₀ known) := by
  unfold mergeOrCreate
  refine Contract.bind (Q := fun _ => Calmed edge kinds g₀ known)
    (Contract.weaken (calmed_owner scope d) (fun _ hb => hb) (fun _ _ hb => hb.1) fun _ hb => hb)
    fun owner => ?_
  intro b hb
  have hcreate : Contract (Calmed edge kinds g₀ known)
      (alloc d.name kind d.flags.toSymbolFlags >>= fun x => attach unit owner x d >>= fun _ => pure x)
      (fun x => Calmed edge kinds g₀ ((x, kind) :: known)) (Calmed edge kinds g₀ known) := by
    exact Contract.bind (calmed_alloc _ _ _) fun x => calmed_bind_pure (calmed_attach hc hm owner x d)
  rw [run_get_bind]
  cases hmerge : mergeable? b owner d.name accept with
  | none => exact hcreate b hb
  | some x =>
      have hknown : Calmed edge kinds g₀ ((x, kind) :: known) b := by
        refine { hb with kind? := fun hx => ?_ }
        rcases List.mem_cons.mp hx with heq | hx
        · obtain ⟨rfl, rfl⟩ := Prod.mk.inj heq
          exact kind?_of_mergeable? haccept hmerge
        · exact hb.kind? hx
      have hlist : Contract (Calmed edge kinds g₀ ((x, kind) :: known))
          (if owner.isNone then addTopLevel unit d.name x >>= fun _ => pure x else pure x)
          (fun x => Calmed edge kinds g₀ ((x, kind) :: known)) (Calmed edge kinds g₀ known) := by
        split
        · exact calmed_bind_pure (calmed_addTopLevel _ _)
        · exact Contract.pure _ fun _ hb => hb
      exact hlist b hknown

omit hm in
theorem calmed_setInstanceType (hne : EdgeKind.instanceType ≠ edge) (cls inst : SymbolId) :
    Keeps (Calmed edge kinds g₀ known) (onGraph (GraphM.setInstanceType cls inst)) := by
  refine keeps_onGraph fun b hb => ?_
  refine (GraphM.contract_setInstanceType cls inst).weaken (fun _ hg => hg) ?_ fun _ hg => hg ▸ hb
  rintro - _ ⟨_, rfl, -, hs, ht, rfl⟩
  exact ⟨hb.addEdge hs ht hc hne, True.intro⟩

theorem calmed_bindParameterField (hk : ¬kinds .field) (inst : SymbolId) (arg : Decl) :
    Keeps (Calmed edge kinds g₀ known) (bindParameterField inst arg) := by
  unfold bindParameterField
  refine keeps_calmed_bind (calmed_alloc _ _ _) fun field => ?_
  refine (calmed_contribute List.mem_cons_self hk _).bind fun _ _ => calmed_link hc _ _ ?_
  rintro rfl
  refine hm ?_
  split <;> rfl

omit hm in
theorem calmed_hangSignature (hx : (x, kind) ∈ known) (hk : ¬kinds kind) {hung : EdgeKind}
    (hne : hung ≠ edge) (decl : DeclId) (inside : Inside) (owner : Option SymbolId) :
    Keeps (Calmed edge kinds g₀ known) (hangSignature hung decl inside owner x) := by
  have hlast : Keeps (Calmed edge kinds g₀ known) (record decl x >>= fun _ => pure inside) :=
    (calmed_record hx hk decl).bind fun _ _ => Keeps.pure True.intro
  unfold hangSignature
  split
  · exact (calmed_link hc _ _ hne).bind fun _ _ => hlast
  · exact hlast

end Steps

/-! ### The kinds of declarations -/

/-- Only functions and signatures touch the edges and the symbols of the kinds. -/
structure Aside (edge : EdgeKind) (kinds : SymbolKind → Bool) : Prop where
  edge : edge = .callSignature ∨ edge = .parameter
  kinds : ∀ kind, kinds kind → kind.isFunctionLike ∨ kind = .signature ∨ kind = .parameter

namespace Aside

variable (h : Aside edge kinds)
include h

theorem ne_containedBy : edge ≠ .containedBy := by
  rcases h.edge with rfl | rfl <;> simp

theorem not_isMembership : ¬edge.isMembership := by
  rcases h.edge with rfl | rfl <;> simp [EdgeKind.isMembership]

theorem instanceType_ne : EdgeKind.instanceType ≠ edge := by
  rcases h.edge with rfl | rfl <;> simp

theorem not_kinds (hf : ¬kind.isFunctionLike) (hs : kind ≠ .signature) (hp : kind ≠ .parameter) :
    ¬kinds kind := fun hk => (h.kinds kind hk).elim hf fun hk => hk.elim hs hp

theorem calmed_bindMerged (hk : ¬kinds kind) :
    Keeps (Calmed edge kinds g₀ known) (bindMerged unit scope d kind) := by
  unfold bindMerged
  refine keeps_calmed_bind (calmed_mergeOrCreate h.ne_containedBy h.not_isMembership (by simp))
    fun x => ?_
  exact (calmed_record List.mem_cons_self hk _).bind fun _ _ => Keeps.pure True.intro

theorem calmed_bindAccessor :
    Keeps (Calmed edge kinds g₀ known) (bindAccessor unit scope d) := by
  have haccept : ∀ (k : SymbolKind) (flags : Flags SymbolFlag),
      (k == .field && flags.has .accessor) → k = .field := by simp +contextual
  unfold bindAccessor
  refine keeps_calmed_bind (calmed_mergeOrCreate h.ne_containedBy h.not_isMembership haccept)
    fun x => ?_
  exact (calmed_record List.mem_cons_self (h.not_kinds (by decide) (by decide) (by decide)) _).bind
    fun _ _ => Keeps.pure True.intro

theorem calmed_bindValue (hk : ¬kinds kind) :
    Keeps (Calmed edge kinds g₀ known) (bindValue unit scope d kind) := by
  unfold bindValue create
  refine Keeps.bind (Q := fun _ => True) ?_ fun _ _ => Keeps.pure True.intro
  refine (calmed_owner scope d).bind fun owner _ => ?_
  refine keeps_calmed_bind (calmed_alloc _ _ _) fun x => ?_
  refine (calmed_attach h.ne_containedBy h.not_isMembership owner x d).bind fun _ _ => ?_
  exact calmed_record List.mem_cons_self hk _

theorem calmed_bindClass : Keeps (Calmed edge kinds g₀ known) (bindClass unit scope d) := by
  have hcls : ¬kinds .classType := h.not_kinds (by decide) (by decide) (by decide)
  have hinst : ¬kinds .instanceType := h.not_kinds (by decide) (by decide) (by decide)
  unfold bindClass
  refine (calmed_owner scope d).bind fun owner _ => ?_
  refine keeps_calmed_bind (calmed_alloc _ _ _) fun cls => ?_
  refine keeps_calmed_bind (calmed_alloc _ _ _) fun inst => ?_
  refine (calmed_setInstanceType h.ne_containedBy h.instanceType_ne cls inst).bind fun _ _ => ?_
  refine (calmed_contribute List.mem_cons_self hinst _).bind fun _ _ => ?_
  refine (calmed_attach h.ne_containedBy h.not_isMembership owner cls d).bind fun _ _ => ?_
  exact (calmed_record (List.mem_cons_of_mem _ List.mem_cons_self) hcls _).bind
    fun _ _ => Keeps.pure True.intro

section Arguments

variable (hedge : edge ≠ .parameter) (hk : ¬kinds .parameter)
include hedge hk

theorem calmed_bindArgument (s : SymbolId) (fieldsOf : Option SymbolId) (arg : Decl) :
    Keeps (Calmed edge kinds g₀ known) (bindArgument s fieldsOf arg) := by
  unfold bindArgument
  refine keeps_calmed_bind (calmed_alloc _ _ _) fun param => ?_
  refine (calmed_record List.mem_cons_self hk _).bind fun _ _ => ?_
  refine (calmed_link h.ne_containedBy _ _ hedge.symm).bind fun _ _ => ?_
  split
  · split
    · exact calmed_bindParameterField h.ne_containedBy h.not_isMembership
        (h.not_kinds (by decide) (by decide) (by decide)) _ _
    · exact Keeps.pure True.intro
  · exact Keeps.pure True.intro

/-- The parameters of a signature do not touch the overloads. -/
theorem calmed_arguments (s : SymbolId) (fieldsOf : Option SymbolId) (children : List DeclId) :
    Keeps (Calmed edge kinds g₀ known) (children.forM fun child => do
      match (← get).program.decl? child with
      | none => throw (.unknownDecl child)
      | some arg => if arg.kind = .argument then bindArgument s fieldsOf arg) := by
  refine Keeps.forM children fun child _ => Keeps.get_bind fun b _ => ?_
  split
  · exact Keeps.throw _
  · split
    · exact h.calmed_bindArgument hedge hk _ _ _
    · exact Keeps.pure True.intro

end Arguments

/-- Binding a declaration is calm, or it makes a signature. -/
theorem calmed_bindDecl (unit : UnitId) (scope : Option SymbolId) (d : Decl) :
    (∀ g₀, Keeps (Calmed edge kinds g₀ []) (bindDecl unit scope d)) ∨
      bindDecl unit scope d = bindConstructor scope d ∨
        bindDecl unit scope d = bindFunction unit scope d ∨
          bindDecl unit scope d = bindMemberSignature scope d := by
  have hplain : ∀ {kind : SymbolKind}, ¬kind.isFunctionLike → kind ≠ .signature →
      kind ≠ .parameter → ¬kinds kind := h.not_kinds
  unfold bindDecl
  split
  · exact .inl fun _ => Keeps.pure True.intro
  iterate 3 exact .inl fun _ => h.calmed_bindMerged (hplain (by decide) (by decide) (by decide))
  · exact .inl fun _ => h.calmed_bindClass
  iterate 3
    split
    · exact .inr (.inl rfl)
    · exact .inr (.inr (.inl rfl))
  iterate 2
    split
    · exact .inl fun _ => h.calmed_bindAccessor
    · exact .inl fun _ => h.calmed_bindValue (hplain (by decide) (by decide) (by decide))
  iterate 2 exact .inl fun _ => h.calmed_bindValue (hplain (by decide) (by decide) (by decide))
  iterate 3 exact .inr (.inr (.inr rfl))
  · exact .inl fun _ => Keeps.pure True.intro

end Aside

end Binding

end NameBinding
