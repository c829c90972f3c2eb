import Mathlib.Logic.Relation
import NameBinding.Proofs.Bind.Appended
import NameBinding.Proofs.Graph.Query

/-! # What binding writes

Binding makes symbols, lists declarations on them and links them. All that it does to a graph is a
sequence of these writes, so what each write keeps is kept when a unit is bound. -/

namespace NameBinding

open SymbolGraph

namespace SymbolGraph

/-- Static members are given to classes only, and classes get no others, unless they are instance
sides. -/
structure Proportioned (g : SymbolGraph) (e : Edge) : Prop where
  static : e.kind = .staticProperty → g.kind? e.source = some .classType
  others : e.kind.isMembership → g.kind? e.source = some .classType →
    e.kind = .staticProperty ∨ ∃ cls, e.source ∈ g.targets cls .instanceType

/-- One write while a unit is bound. -/
inductive Write (g : SymbolGraph) : SymbolGraph → Prop where
  | make (name : String) (kind : SymbolKind) (flags : Flags SymbolFlag) :
      Write g (g.alloc name kind flags)
  | list (id : SymbolId) (d : DeclId) : Write g (g.declare id d)
  | link (e : Edge) (hs : e.source < g.size) (ht : e.target < g.size) (hsides : g.Proportioned e) :
      Write g (g.addEdge e)

variable {g g' : SymbolGraph}

theorem Proportioned.of_not_isMembership {e : Edge} (hk : ¬e.kind.isMembership) :
    g.Proportioned e where
  static hstatic := absurd (by simp [hstatic, EdgeKind.isMembership]) hk
  others hm := absurd hm hk

theorem Write.hasEdge_mono (h : g.Write g') {e : Edge} (he : g.hasEdge e) : g'.hasEdge e := by
  cases h with
  | make name kind flags => simpa [hasEdge] using he
  | list id d => simpa [hasEdge] using he
  | link e' hs ht => exact (hasEdge_addEdge hs ht).mpr (.inl he)

theorem Write.targets_mono (h : g.Write g') {kind : EdgeKind} {x y : SymbolId}
    (hc : kind ≠ .containedBy) (hx : x ∈ g.targets y kind) : x ∈ g'.targets y kind := by
  cases h with
  | make name kind flags => rwa [targets_eq, outgoing_alloc, ← targets_eq]
  | list id d => rwa [targets_eq, outgoing_declare, ← targets_eq]
  | link e hs ht =>
      rw [targets_addEdge g e y hc]
      split
      · exact List.mem_append_left _ hx
      · exact hx

theorem Write.size_le (h : g.Write g') : g.size ≤ g'.size := by
  cases h <;> simp

end SymbolGraph

namespace Binding

open BindM

/-- The graph comes from an earlier one by what binding writes. -/
def Written (g₀ : SymbolGraph) (b : Binding) : Prop := Relation.ReflTransGen Write g₀ b.graph

variable {g₀ : SymbolGraph} {b : Binding} {unit : UnitId} {scope : Option SymbolId} {d : Decl}
  {α : Type}

theorem Written.write (h : Written g₀ b) {g : SymbolGraph} (hg : b.graph.Write g) :
    Written g₀ ⟨g, b.program⟩ := Relation.ReflTransGen.tail h hg

/-- What every write keeps is kept. -/
theorem Written.induction {P : SymbolGraph → Prop} (h : Written g₀ b) (h₀ : P g₀)
    (hwrite : ∀ {g g'}, g.Write g' → P g → P g') : P b.graph := by
  unfold Written at h
  generalize b.graph = g at h ⊢
  induction h with
  | refl => exact h₀
  | tail _ hw ih => exact hwrite hw ih

/-! ### Steps -/

theorem writes_alloc (name : String) (kind : SymbolKind) (flags : Flags SymbolFlag) :
    Keeps (Written g₀) (alloc name kind flags) := by
  refine keeps_onGraph fun b hb => ?_
  refine (GraphM.contract_alloc name kind flags).weaken (fun _ hg => hg) ?_ fun _ hg => hg ▸ hb
  rintro _ _ ⟨_, rfl, -, rfl⟩
  exact ⟨hb.write (.make name kind flags), True.intro⟩

theorem writes_contribute (symbol : SymbolId) (decl : DeclId) :
    Keeps (Written g₀) (contribute symbol decl) := by
  refine keeps_onGraph fun b hb => ?_
  refine (GraphM.contract_declare symbol decl).weaken (fun _ hg => hg) ?_ fun _ hg => hg ▸ hb
  rintro _ _ ⟨_, rfl, -, rfl⟩
  exact ⟨hb.write (.list symbol decl), True.intro⟩

theorem writes_record (decl : DeclId) (symbol : SymbolId) :
    Keeps (Written g₀) (record decl symbol) := by
  unfold record
  refine (writes_contribute symbol decl).bind fun _ _ => Keeps.get_bind fun b hb => ?_
  dsimp only
  split
  · exact Keeps.throw _
  · exact Keeps.modify fun _ hb => hb

theorem writes_setInstanceType (cls inst : SymbolId) :
    Keeps (Written g₀) (onGraph (GraphM.setInstanceType cls inst)) := by
  refine keeps_onGraph fun b hb => ?_
  refine (GraphM.contract_setInstanceType cls inst).weaken (fun _ hg => hg) ?_ fun _ hg => hg ▸ hb
  rintro _ _ ⟨_, rfl, -, hs, ht, rfl⟩
  exact ⟨hb.write (.link _ hs ht (.of_not_isMembership Bool.false_ne_true)), True.intro⟩

theorem written_link (hb : Written g₀ b) (source target : SymbolId) {kind : EdgeKind}
    (hsides : b.graph.Proportioned ⟨source, target, kind⟩) :
    Contract (· = b) (link source target kind) (fun _ b' => Written g₀ b' ∧ True) (Written g₀) := by
  refine Contract.bind (Q := fun _ b' => Written g₀ b' ∧ True) ?_ fun _ =>
    Contract.pure _ fun _ h => h
  rintro s rfl
  have hstep := GraphM.contract_link (P := (· = s.graph)) source target kind s.graph rfl
  unfold onGraph
  cases hs : GraphM.link source target kind s.graph with
  | error e g =>
      rw [hs] at hstep
      obtain rfl : g = s.graph := hstep
      exact hb
  | ok a g =>
      rw [hs] at hstep
      obtain ⟨_, rfl, hsource, htarget, rfl⟩ := hstep
      exact ⟨hb.write (.link _ hsource htarget hsides), True.intro⟩

theorem writes_link (source target : SymbolId) {kind : EdgeKind} (hk : ¬kind.isMembership) :
    Keeps (Written g₀) (link source target kind) := fun b hb =>
  written_link hb source target (.of_not_isMembership hk) b rfl

theorem writes_addTopLevel (name : String) (symbol : SymbolId) :
    Keeps (Written g₀) (addTopLevel unit name symbol) := Keeps.modify fun _ hb => hb

theorem writes_owner (scope : Option SymbolId) (d : Decl) :
    Keeps (Written g₀) (owner scope d) := by
  unfold owner
  split
  · exact Keeps.pure True.intro
  · refine keeps_graph_bind fun g => ?_
    split
    · split
      · exact Keeps.pure True.intro
      · exact Keeps.throw _
    · exact Keeps.pure True.intro

/-- The membership is a static one below classes only. -/
theorem eq_classType_of_membership? {kind : SymbolKind}
    (h : membership? d kind = some .staticProperty) : kind = .classType := by
  unfold membership? at h
  split at h
  · rfl
  all_goals grind

theorem writes_attach (owner : Option SymbolId) (symbol : SymbolId) (d : Decl) :
    Keeps (Written g₀) (attach unit owner symbol d) := by
  unfold attach
  split
  · split
    · exact writes_addTopLevel _ _
    · exact Keeps.pure True.intro
  · next owner =>
    refine contract_graph_bind fun b hb => ?_
    split
    · next kind hkind =>
      refine written_link hb owner symbol ?_
      split at hkind
      · exact absurd hkind (by simp)
      · obtain ⟨k, hk, hm⟩ := Option.bind_eq_some_iff.mp hkind
        refine ⟨?_, fun _ hcls => .inl ?_⟩
        · rintro rfl
          rw [hk, eq_classType_of_membership? hm]
        · obtain rfl : k = .classType := Option.some.inj (hk.symm.trans hcls)
          exact (Option.some.inj hm).symm
    · exact written_link hb symbol owner (.of_not_isMembership Bool.false_ne_true)

theorem writes_mergeOrCreate (kind : SymbolKind) (accept : SymbolKind → Flags SymbolFlag → Bool) :
    Keeps (Written g₀) (mergeOrCreate unit scope d kind accept) := by
  unfold mergeOrCreate
  refine (writes_owner scope d).bind fun owner _ => Keeps.get_bind fun b hb => ?_
  split
  · dsimp only
    split
    · exact (writes_addTopLevel _ _).bind fun _ _ => Keeps.pure True.intro
    · exact Keeps.pure True.intro
  · refine (writes_alloc _ _ _).bind fun symbol _ => ?_
    exact (writes_attach owner symbol d).bind fun _ _ => Keeps.pure True.intro

/-! ### Modules, interfaces and classes -/

theorem writes_bindMerged (kind : SymbolKind) :
    Keeps (Written g₀) (bindMerged unit scope d kind) := by
  unfold bindMerged
  refine (writes_mergeOrCreate _ _).bind fun symbol _ => ?_
  exact (writes_record _ _).bind fun _ _ => Keeps.pure True.intro

theorem writes_bindClass : Keeps (Written g₀) (bindClass unit scope d) := by
  unfold bindClass
  refine (writes_owner scope d).bind fun owner _ => (writes_alloc _ _ _).bind fun cls _ => ?_
  refine (writes_alloc _ _ _).bind fun inst _ => (writes_setInstanceType cls inst).bind fun _ _ => ?_
  refine (writes_contribute _ _).bind fun _ _ => (writes_attach owner cls d).bind fun _ _ => ?_
  exact (writes_record _ _).bind fun _ _ => Keeps.pure True.intro

/-! ### Constructors

What gets the fields of a constructor is an instance side, and it stays one. -/

/-- The graph is written, and what gets fields is an instance side. -/
def Furnished (g₀ : SymbolGraph) (fieldsOf : Option SymbolId) (b : Binding) : Prop :=
  Written g₀ b ∧ ∀ inst ∈ fieldsOf, ∃ cls, inst ∈ b.graph.targets cls .instanceType

theorem Written.targets_mono (h : Written g₀ b) {kind : EdgeKind} {x y : SymbolId}
    (hc : kind ≠ .containedBy) (hx : x ∈ g₀.targets y kind) : x ∈ b.graph.targets y kind :=
  h.induction hx fun hw h => hw.targets_mono hc h

theorem Furnished.written {fieldsOf : Option SymbolId} (h : Furnished g₀ fieldsOf b) {b' : Binding}
    (hb' : Written b.graph b') : Furnished g₀ fieldsOf b' :=
  ⟨h.1.trans hb', fun inst hinst =>
    (h.2 inst hinst).imp fun _ hcls => hb'.targets_mono (by simp) hcls⟩

/-- What writes from wherever it begins leaves instance sides as they are. -/
theorem keeps_furnished {fieldsOf : Option SymbolId} {step : BindM α}
    (h : ∀ g, Keeps (Written g) step) : Keeps (Furnished g₀ fieldsOf) step := fun b hb =>
  Contract.weaken (h b.graph) (fun _ h => h) (fun _ _ hb' => ⟨hb.written hb'.1, hb'.2⟩)
    (fun _ hb' => hb.written hb') b .refl

theorem furnished_bindParameterField (inst : SymbolId) (arg : Decl) :
    Keeps (Furnished g₀ (some inst)) (bindParameterField inst arg) := by
  unfold bindParameterField
  refine (keeps_furnished fun _ => writes_alloc _ _ _).bind fun field _ => ?_
  refine (keeps_furnished fun _ => writes_contribute _ _).bind fun _ _ => fun b hb => ?_
  have hsides : b.graph.Proportioned
      ⟨inst, field, if arg.has .privateAccess then .privateProperty else .publicProperty⟩ :=
    ⟨fun h => by dsimp only at h; split at h <;> simp at h, fun _ _ => .inr (hb.2 inst rfl)⟩
  exact (written_link (.refl : Written b.graph b) inst field hsides).weaken (fun _ h => h)
    (fun _ _ hb' => ⟨hb.written hb'.1, hb'.2⟩) (fun _ hb' => hb.written hb') b rfl

theorem furnished_bindArgument (signature : SymbolId) (fieldsOf : Option SymbolId) (arg : Decl) :
    Keeps (Furnished g₀ fieldsOf) (bindArgument signature fieldsOf arg) := by
  unfold bindArgument
  refine (keeps_furnished fun _ => writes_alloc _ _ _).bind fun param _ => ?_
  refine (keeps_furnished fun _ => writes_record _ _).bind fun _ _ => ?_
  refine (keeps_furnished fun _ => writes_link _ _ (by decide)).bind fun _ _ => ?_
  split
  · split
    · exact furnished_bindParameterField _ _
    · exact Keeps.pure True.intro
  · exact Keeps.pure True.intro

theorem furnished_bindSignature (flags : Flags SymbolFlag) (fieldsOf : Option SymbolId) :
    Keeps (Furnished g₀ fieldsOf) (bindSignature d flags fieldsOf) := by
  unfold bindSignature
  refine (keeps_furnished fun _ => writes_alloc _ _ _).bind fun signature _ => ?_
  refine (keeps_furnished fun _ => writes_contribute _ _).bind fun _ _ => ?_
  refine (Keeps.forM _ fun child _ => Keeps.get_bind fun b hb => ?_).bind fun _ _ =>
    Keeps.pure True.intro
  split
  · exact Keeps.throw _
  · split
    · exact furnished_bindArgument _ _ _
    · exact Keeps.pure True.intro

/-- Without fields there is nothing else to keep. -/
theorem writes_bindSignature (flags : Flags SymbolFlag) :
    Keeps (Written g₀) (bindSignature d flags none) :=
  Contract.weaken (furnished_bindSignature flags none) (fun _ hb => ⟨hb, by simp⟩)
    (fun _ _ hb => ⟨hb.1.1, hb.2⟩) fun _ hb => hb.1

theorem writes_constructedType : Contract (Written g₀) (constructedType scope)
    (fun fieldsOf b => Furnished g₀ fieldsOf b) (Written g₀) := by
  unfold constructedType
  refine contract_graph_bind fun b hb => ?_
  have hnone : Furnished g₀ none b := ⟨hb, by simp⟩
  split
  · exact Contract.pure _ fun _ h => h ▸ hnone
  · next cls =>
    split
    · split
      · next inst hinst =>
        refine Contract.pure _ fun _ h => h ▸ ⟨hb, ?_⟩
        rintro _ ⟨⟩
        exact ⟨cls, List.mem_of_head? hinst⟩
      · exact Contract.throw _ fun _ h => h ▸ hb
    · exact Contract.pure _ fun _ h => h ▸ hnone

theorem writes_hangSignature {kind : EdgeKind} (hk : kind.isSignature) (decl : DeclId)
    (inside : Inside) (owner : Option SymbolId) (signature : SymbolId) :
    Keeps (Written g₀) (hangSignature kind decl inside owner signature) := by
  have hlast : Keeps (Written g₀) (do record decl signature; return inside : BindM Inside) :=
    (writes_record _ _).bind fun _ _ => Keeps.pure True.intro
  have hne : ¬kind.isMembership := by
    cases kind <;> simp_all [EdgeKind.isSignature, EdgeKind.isMembership]
  unfold hangSignature
  split
  · exact (writes_link _ _ hne).bind fun _ _ => hlast
  · exact hlast

theorem writes_bindConstructor : Keeps (Written g₀) (bindConstructor scope d) := by
  rw [bindConstructor_eq]
  refine Contract.bind writes_constructedType fun fieldsOf => ?_
  refine Contract.bind (Q := fun _ b => Written g₀ b) ?_ fun signature =>
    writes_hangSignature rfl _ _ scope signature
  exact Contract.weaken (furnished_bindSignature _ fieldsOf) (fun _ h => h) (fun _ _ hb => hb.1.1)
    fun _ hb => hb.1

/-! ### The other kinds of declarations -/

theorem writes_bindFunction : Keeps (Written g₀) (bindFunction unit scope d) := by
  unfold bindFunction
  refine (writes_mergeOrCreate _ _).bind fun function _ => (writes_record _ _).bind fun _ _ => ?_
  refine keeps_graph_bind fun g => (writes_bindSignature _).bind fun signature _ => ?_
  exact (writes_link _ _ (by decide)).bind fun _ _ => Keeps.pure True.intro

theorem writes_bindSignatureIn (owner : Option SymbolId) :
    Keeps (Written g₀) (bindSignatureIn d owner) :=
  (writes_bindSignature _).bind fun signature _ =>
    writes_hangSignature d.isSignature_signatureEdge _ _ owner signature

theorem writes_bindMemberSignature : Keeps (Written g₀) (bindMemberSignature scope d) := by
  rw [bindMemberSignature_eq]
  split
  · exact writes_bindSignatureIn scope
  · exact (writes_owner _ _).bind fun owner _ => writes_bindSignatureIn owner

theorem writes_bindAccessor : Keeps (Written g₀) (bindAccessor unit scope d) := by
  unfold bindAccessor
  refine (writes_mergeOrCreate _ _).bind fun symbol _ => ?_
  exact (writes_record _ _).bind fun _ _ => Keeps.pure True.intro

theorem writes_bindValue (kind : SymbolKind) :
    Keeps (Written g₀) (bindValue unit scope d kind) := by
  unfold bindValue create
  refine Keeps.bind (Q := fun _ => True) ?_ fun _ _ => Keeps.pure True.intro
  refine (writes_owner _ _).bind fun owner _ => (writes_alloc _ _ _).bind fun symbol _ => ?_
  exact (writes_attach owner symbol d).bind fun _ _ => writes_record _ _

/-- One case for each kind of declaration. -/
theorem writes_bindDecl : Keeps (Written g₀) (bindDecl unit scope d) := by
  unfold bindDecl
  split
  · exact Keeps.pure True.intro
  iterate 3 exact writes_bindMerged _
  · exact writes_bindClass
  iterate 3
    split
    · exact writes_bindConstructor
    · exact writes_bindFunction
  iterate 2
    split
    · exact writes_bindAccessor
    · exact writes_bindValue _
  iterate 2 exact writes_bindValue _
  iterate 3 exact writes_bindMemberSignature
  · exact Keeps.pure True.intro

theorem writes_bindNext (opened : Array Inside) (d : Decl) :
    Keeps (Written g₀) (bindNext unit opened d) := by
  unfold bindNext
  split
  · exact Keeps.pure True.intro
  · exact writes_bindDecl.bind fun _ _ => Keeps.pure True.intro

/-- Whether or not a unit can be bound, its graph comes about by writes. -/
theorem writes_bindUnit (unit : UnitId) : Keeps (Written g₀) (bindUnit unit) := by
  unfold bindUnit
  refine Keeps.get_bind fun b hb => ?_
  split
  · exact Keeps.throw _
  · dsimp only
    split
    · exact Keeps.throw _
    · exact (Keeps.foldlM _ _ True.intro fun opened _ d _ => writes_bindNext opened d).bind
        fun _ _ => Keeps.pure True.intro

end Binding

end NameBinding
