import NameBinding.Proofs.Bind.Rest
import NameBinding.Proofs.Bind.Steps

/-! # Binding keeps a program sound

One lemma for each kind of declaration, and from them that a whole unit is bound soundly. -/

namespace NameBinding

open SymbolGraph

namespace Flags

/-- A declaration makes no symbol that looks as if it were there without it. -/
theorem areDeclarable_toSymbolFlags (d : Flags DeclFlag) : d.toSymbolFlags.AreDeclarable := by
  simp [AreDeclarable, toSymbolFlags, has_carry, Flag.bit]

end Flags

theorem Decl.areDeclarable_constructorFlags (d : Decl) : d.constructorFlags.AreDeclarable := by
  unfold constructorFlags
  split <;> decide

namespace Binding

open BindM

variable {b : Binding} {unit : UnitId} {scope : Option SymbolId} {d : Decl}

theorem binds_owner (hb : b.Sound) (scope : Option SymbolId) (d : Decl) :
    b.Binds (owner scope d) := by
  unfold owner
  split
  · exact Binds.pure hb True.intro
  · refine Binds.graph_bind ?_
    split
    · split
      · exact Binds.pure hb True.intro
      · exact Binds.throw _ hb
    · exact Binds.pure hb True.intro

theorem isMembership_of_membership? {kind : SymbolKind} {edge : EdgeKind}
    (h : membership? d kind = some edge) : edge.isMembership := by
  unfold membership? at h
  grind [EdgeKind.isMembership]

theorem binds_attach (hb : b.Sound) (unit : UnitId) (owner : Option SymbolId) (symbol : SymbolId)
    (d : Decl) : b.Binds (attach unit owner symbol d) := by
  unfold attach
  split
  · split
    · exact binds_addTopLevel hb unit d.name symbol
    · exact Binds.pure hb True.intro
  · next owner =>
    refine Binds.graph_bind ?_
    split
    · next kind hkind =>
      have hm : kind.isMembership := by
        split at hkind
        · exact absurd hkind (by simp)
        · obtain ⟨_, -, hkind⟩ := Option.bind_eq_some_iff.mp hkind
          exact isMembership_of_membership? hkind
      refine binds_link hb owner symbol ?_ ?_
      · rintro rfl
        simp [EdgeKind.isMembership] at hm
      · rintro rfl
        simp [EdgeKind.isMembership] at hm
    · exact binds_link hb symbol owner (by decide) (by decide)

/-- A symbol with which a declaration merges is declared, and so takes declarations. -/
theorem takes_of_mergeable? (hb : b.Sound) {owner : Option SymbolId} {name : String}
    {accept : SymbolKind → Flags SymbolFlag → Bool} {id : SymbolId}
    (haccept : ∀ k flags, accept k flags → k ≠ .classType)
    (h : mergeable? b owner name accept = some id) (d : DeclId) : b.graph.Takes id d := by
  unfold mergeable? at h
  split at h
  · exact absurd h (by simp)
  · have hp := List.find?_some h
    cases hs : b.graph.get? id with
    | none => simp [hs] at hp
    | some s =>
        simp only [hs, Bool.and_eq_true, beq_iff_eq] at hp
        obtain ⟨⟨-, hdecl⟩, hacc⟩ := hp
        have hk : b.graph.kind? id = some s.kind := by simp [kind?, hs]
        refine takes_of_kind hk (haccept _ _ hacc) ?_ d
        obtain ⟨x, hx⟩ : ∃ x, x ∈ s.declarations := by
          refine List.exists_mem_of_ne_nil _ fun hnil => ?_
          simp [Symbol.isDeclared, hnil] at hdecl
        exact hb.graph.declarable (d := x) (by simpa [SymbolGraph.declarations, hs] using hx)

theorem binds_mergeOrCreate (hb : b.Sound) {kind : SymbolKind}
    {accept : SymbolKind → Flags SymbolFlag → Bool} (hkind : kind ≠ .classType)
    (haccept : ∀ k flags, accept k flags → k ≠ .classType) :
    b.Binds (mergeOrCreate unit scope d kind accept) (fun id b' => ∀ x, b'.graph.Takes id x) := by
  unfold mergeOrCreate
  refine (binds_owner hb scope d).bind fun owner b₁ hb₁ _ _ => Binds.get_bind ?_
  split
  · next symbol hm =>
    have ht := takes_of_mergeable? hb₁ haccept hm
    dsimp only
    split
    · exact (binds_addTopLevel hb₁ unit d.name symbol).bind fun _ _ hb₂ hg _ =>
        Binds.pure hb₂ fun x => hg.takes (ht x)
    · exact Binds.pure hb₁ ht
  · refine (binds_make hb₁ d.name kind hkind d.flags.areDeclarable_toSymbolFlags).bind
      fun symbol _ hb₂ _ ht => ?_
    exact (binds_attach hb₂ unit owner symbol d).bind fun _ _ hb₃ hg _ =>
      Binds.pure hb₃ fun x => hg.takes (ht x)

/-- A declaration gets a symbol of its own. -/
theorem binds_create (hb : b.Sound) (hd : (b.program.decl? d.id).isSome) {kind : SymbolKind}
    (hkind : kind ≠ .classType) : b.Binds (create unit scope d kind) := by
  unfold create
  refine (binds_owner hb scope d).bind fun owner b₁ hb₁ hg₁ _ => ?_
  refine (binds_make hb₁ d.name kind hkind d.flags.areDeclarable_toSymbolFlags).bind
    fun symbol b₂ hb₂ hg₂ ht => ?_
  refine (binds_attach hb₂ unit owner symbol d).bind fun _ b₃ hb₃ hg₃ _ => ?_
  exact binds_record hb₃ (hg₃.known (hg₂.known (hg₁.known hd))) (hg₃.takes (ht d.id))

/-! ### The kinds of declarations -/

theorem binds_bindMerged (hb : b.Sound) (hd : (b.program.decl? d.id).isSome) {kind : SymbolKind}
    (hkind : kind ≠ .classType) : b.Binds (bindMerged unit scope d kind) := by
  unfold bindMerged
  have haccept : ∀ (k : SymbolKind) (_ : Flags SymbolFlag), (k == kind) → k ≠ .classType := by
    intro k _ hk
    rw [beq_iff_eq.mp hk]
    exact hkind
  exact (binds_mergeOrCreate hb hkind haccept).bind fun symbol b₁ hb₁ hg₁ ht =>
    (binds_record hb₁ (hg₁.known hd) (ht d.id)).bind fun _ _ hb₂ _ _ => Binds.pure hb₂ True.intro

/-- The instance side lists the declaration before the class does. -/
theorem binds_bindClass (hb : b.Sound) (hd : (b.program.decl? d.id).isSome) :
    b.Binds (bindClass unit scope d) := by
  unfold bindClass
  have hflags := d.flags.areDeclarable_toSymbolFlags
  refine (binds_owner hb scope d).bind fun owner b₁ hb₁ hg₁ _ => ?_
  refine (binds_alloc hb₁ d.name .classType d.flags.toSymbolFlags).bind
    fun cls b₂ hb₂ hg₂ hcls => ?_
  refine (binds_alloc hb₂ d.name .instanceType d.flags.toSymbolFlags).bind
    fun inst b₃ hb₃ hg₃ hinst => ?_
  obtain ⟨rfl, hg₂eq⟩ := hcls
  obtain ⟨rfl, hg₃eq⟩ := hinst
  have hclassKind : b₃.graph.kind? b₁.graph.size = some .classType := by
    rw [hg₃.kind (by simp [hg₂eq]), hg₂eq, kind?_eq, label?_alloc, if_pos rfl]
    rfl
  have hclassDecl : b₃.graph.IsDeclarable b₁.graph.size := by
    rw [IsDeclarable, hg₃.has _ (by simp [hg₂eq]), hg₃.has _ (by simp [hg₂eq]), hg₂eq, has_eq,
      has_eq, label?_alloc, if_pos rfl]
    exact hflags
  have hclassDecls : b₃.graph.declarations b₁.graph.size = [] := by
    rw [hg₃eq, declarations_alloc, hg₂eq, declarations_alloc, declarations_eq_nil (Nat.le_refl _)]
  have hinstKind : b₃.graph.kind? b₂.graph.size = some .instanceType := by
    rw [hg₃eq, kind?_eq, label?_alloc, if_pos rfl]
    rfl
  have hinstDecl : b₃.graph.IsDeclarable b₂.graph.size := by
    rw [hg₃eq, IsDeclarable, has_eq, has_eq, label?_alloc, if_pos rfl]
    exact hflags
  refine (binds_setInstanceType hb₃ hclassKind hinstKind hclassDecls).bind
    fun _ b₄ hb₄ hg₄ hside => ?_
  have hknown : (b₄.program.decl? d.id).isSome := hg₄.known (hg₃.known (hg₂.known (hg₁.known hd)))
  have hinst := hg₄.takes (takes_of_kind hinstKind (by decide) hinstDecl d.id)
  refine (binds_contribute hb₄ hknown hinst).bind fun _ b₅ hb₅ hg₅ hlisted => ?_
  refine (binds_attach hb₅ unit owner b₁.graph.size d).bind fun _ b₆ hb₆ hg₆ _ => ?_
  have hg₃₆ := hg₄.trans (hg₅.trans hg₆)
  have hlt : b₁.graph.size < b₃.graph.size := lt_size_of_kind? hclassKind
  have hcls : b₆.graph.Takes b₁.graph.size d.id :=
    { lt_size := Nat.lt_of_lt_of_le hlt hg₃₆.size_le
      declarable := by
        rw [IsDeclarable, hg₃₆.has _ hlt, hg₃₆.has _ hlt]
        exact hclassDecl
      side := fun _ => ⟨b₂.graph.size, (hg₅.trans hg₆).edge hside, hg₆.declarations _ hlisted⟩ }
  exact (binds_record hb₆ (hg₆.known (hg₅.known hknown)) hcls).bind fun _ _ hb₇ _ _ =>
    Binds.pure hb₇ True.intro

theorem binds_bindParameterField (hb : b.Sound) (inst : SymbolId)
    (hd : (b.program.decl? d.id).isSome) : b.Binds (bindParameterField inst d) := by
  unfold bindParameterField
  refine (binds_make hb d.name .field (by decide) d.flags.areDeclarable_toSymbolFlags).bind
    fun field b₁ hb₁ hg₁ ht => ?_
  refine (binds_contribute hb₁ (hg₁.known hd) (ht d.id)).bind fun _ b₂ hb₂ _ _ => ?_
  split
  · exact binds_link hb₂ inst field (by decide) (by decide)
  · exact binds_link hb₂ inst field (by decide) (by decide)

theorem binds_bindArgument (hb : b.Sound) (signature : SymbolId) (fieldsOf : Option SymbolId)
    (hd : (b.program.decl? d.id).isSome) : b.Binds (bindArgument signature fieldsOf d) := by
  unfold bindArgument
  have hflags := (d.flags ∩ Flags.single .optional).areDeclarable_toSymbolFlags
  refine (binds_make hb d.name .parameter (by decide) hflags).bind fun param b₁ hb₁ hg₁ ht => ?_
  refine (binds_record hb₁ (hg₁.known hd) (ht d.id)).bind fun _ b₂ hb₂ hg₂ _ => ?_
  refine (binds_link hb₂ signature param (by decide) (by decide)).bind fun _ b₃ hb₃ hg₃ _ => ?_
  split
  · split
    · exact binds_bindParameterField hb₃ _ (hg₃.known (hg₂.known (hg₁.known hd)))
    · exact Binds.pure hb₃ True.intro
  · exact Binds.pure hb₃ True.intro

theorem binds_bindSignature (hb : b.Sound) (hd : (b.program.decl? d.id).isSome)
    {flags : Flags SymbolFlag} (hflags : flags.AreDeclarable) (fieldsOf : Option SymbolId) :
    b.Binds (bindSignature d flags fieldsOf) (fun id b' => ∀ x, b'.graph.Takes id x) := by
  unfold bindSignature
  refine (binds_make hb d.name .signature (by decide) hflags).bind fun signature b₁ hb₁ hg₁ ht => ?_
  refine (binds_contribute hb₁ (hg₁.known hd) (ht d.id)).bind fun _ b₂ hb₂ hg₂ _ => ?_
  refine Binds.bind (Q := fun _ _ => True) (Binds.forM d.children hb₂ ?_)
    fun _ b₃ hb₃ hg₃ _ => Binds.pure hb₃ fun x => hg₃.takes (hg₂.takes (ht x))
  intro child _ b' hb' _
  refine Binds.get_bind ?_
  split
  · exact Binds.throw _ hb'
  · next arg harg =>
    have hid := hb'.program.id_eq harg
    split
    · exact binds_bindArgument hb' signature fieldsOf (by rw [hid, harg]; rfl)
    · exact Binds.pure hb' True.intro

theorem binds_bindFunction (hb : b.Sound) (hd : (b.program.decl? d.id).isSome) :
    b.Binds (bindFunction unit scope d) := by
  rw [bindFunction_eq]
  refine (binds_mergeOrCreate hb d.functionKind_ne_classType ?_).bind
    fun function b₁ hb₁ hg₁ ht => ?_
  · intro k _ hk
    rw [beq_iff_eq.mp hk]
    exact d.functionKind_ne_classType
  · refine (binds_record hb₁ (hg₁.known hd) (ht d.id)).bind fun _ b₂ hb₂ hg₂ _ => ?_
    refine Binds.graph_bind ?_
    refine (binds_bindSignature hb₂ (hg₂.known (hg₁.known hd)) ?_ none).bind
      fun signature b₃ hb₃ _ _ => ?_
    · split <;> decide
    · exact (binds_link hb₃ function signature (by decide) (by decide)).bind fun _ _ hb₄ _ _ =>
        Binds.pure hb₄ True.intro

theorem binds_constructedType (hb : b.Sound) (scope : Option SymbolId) :
    b.Binds (constructedType scope) := by
  unfold constructedType
  refine Binds.graph_bind ?_
  split
  · exact Binds.pure hb True.intro
  · split
    · split
      · exact Binds.pure hb True.intro
      · exact Binds.throw _ hb
    · exact Binds.pure hb True.intro

theorem binds_hangSignature (hb : b.Sound) (hd : (b.program.decl? d.id).isSome) {kind : EdgeKind}
    (hk : kind.isSignature) {signature : SymbolId} (ht : b.graph.Takes signature d.id)
    (inside : Inside) (owner : Option SymbolId) :
    b.Binds (hangSignature kind d.id inside owner signature) := by
  unfold hangSignature
  split
  · next owner =>
    refine (binds_link hb owner signature ?_ ?_).bind fun _ b₁ hb₁ hg₁ _ => ?_
    · rintro rfl
      exact absurd hk Bool.false_ne_true
    · rintro rfl
      exact absurd hk Bool.false_ne_true
    exact (binds_record hb₁ (hg₁.known hd) (hg₁.takes ht)).bind fun _ _ hb₂ _ _ =>
      Binds.pure hb₂ True.intro
  · exact (binds_record hb hd ht).bind fun _ _ hb₁ _ _ => Binds.pure hb₁ True.intro

theorem binds_bindConstructor (hb : b.Sound) (hd : (b.program.decl? d.id).isSome) :
    b.Binds (bindConstructor scope d) := by
  rw [bindConstructor_eq]
  refine (binds_constructedType hb scope).bind fun fieldsOf b₁ hb₁ hg₁ _ => ?_
  exact (binds_bindSignature hb₁ (hg₁.known hd) d.areDeclarable_constructorFlags fieldsOf).bind
    fun signature b₂ hb₂ hg₂ ht =>
      binds_hangSignature hb₂ (hg₂.known (hg₁.known hd)) rfl (ht d.id) _ scope

theorem binds_bindSignatureIn (hb : b.Sound) (hd : (b.program.decl? d.id).isSome)
    (owner : Option SymbolId) : b.Binds (bindSignatureIn d owner) := by
  refine (binds_bindSignature hb hd ?_ none).bind fun signature b₁ hb₁ hg₁ ht =>
    binds_hangSignature hb₁ (hg₁.known hd) d.isSignature_signatureEdge (ht d.id) _ owner
  split <;> decide

theorem binds_bindMemberSignature (hb : b.Sound) (hd : (b.program.decl? d.id).isSome) :
    b.Binds (bindMemberSignature scope d) := by
  rw [bindMemberSignature_eq]
  split
  · exact binds_bindSignatureIn hb hd scope
  · exact (binds_owner hb scope d).bind fun owner b₁ hb₁ hg₁ _ =>
      binds_bindSignatureIn hb₁ (hg₁.known hd) owner

theorem binds_bindAccessor (hb : b.Sound) (hd : (b.program.decl? d.id).isSome) :
    b.Binds (bindAccessor unit scope d) := by
  unfold bindAccessor
  refine (binds_mergeOrCreate hb (by decide) ?_).bind fun symbol b₁ hb₁ hg₁ ht => ?_
  · intro k _ hk
    simp only [Bool.and_eq_true, beq_iff_eq] at hk
    simp [hk.1]
  · exact (binds_record hb₁ (hg₁.known hd) (ht d.id)).bind fun _ _ hb₂ _ _ =>
      Binds.pure hb₂ True.intro

theorem binds_bindValue (hb : b.Sound) (hd : (b.program.decl? d.id).isSome) {kind : SymbolKind}
    (hkind : kind ≠ .classType) : b.Binds (bindValue unit scope d kind) := by
  unfold bindValue
  exact (binds_create hb hd hkind).bind fun _ _ hb₁ _ _ => Binds.pure hb₁ True.intro

theorem binds_bindDecl (hb : b.Sound) (hd : (b.program.decl? d.id).isSome) :
    b.Binds (bindDecl unit scope d) := by
  unfold bindDecl
  split
  · exact Binds.pure hb True.intro
  iterate 3 exact binds_bindMerged hb hd (by decide)
  · exact binds_bindClass hb hd
  iterate 3
    split
    · exact binds_bindConstructor hb hd
    · exact binds_bindFunction hb hd
  iterate 2
    split
    · exact binds_bindAccessor hb hd
    · exact binds_bindValue hb hd (by decide)
  iterate 2 exact binds_bindValue hb hd (by decide)
  iterate 3 exact binds_bindMemberSignature hb hd
  · exact Binds.pure hb True.intro

theorem binds_bindNext (hb : b.Sound) (hd : (b.program.decl? d.id).isSome) (opened : Array Inside) :
    b.Binds (bindNext unit opened d) := by
  unfold bindNext
  split
  · exact Binds.pure hb True.intro
  · exact (binds_bindDecl hb hd).bind fun _ _ hb₁ _ _ => Binds.pure hb₁ True.intro

/-- The declarations of a unit are known from the start and stay so while it is bound. -/
theorem binds_bindUnit (hb : b.Sound) (unit : UnitId) : b.Binds (bindUnit unit) := by
  unfold bindUnit
  refine Binds.get_bind ?_
  split
  · exact Binds.throw _ hb
  · next u hu =>
    obtain ⟨hu, -⟩ := hb.program.unitById?_eq_some_iff.mp hu
    dsimp only
    split
    · exact Binds.throw _ hb
    · refine (Binds.foldlM _ _ hb ?_).bind fun _ _ hb' _ _ => Binds.pure hb' True.intro
      intro opened d hd b' hb' hg
      have hknown : (b.program.decl? d.id).isSome := by
        rw [hb.program.decl?_id hu hd]
        rfl
      exact binds_bindNext hb' (hg.known hknown) opened

end Binding

end NameBinding
