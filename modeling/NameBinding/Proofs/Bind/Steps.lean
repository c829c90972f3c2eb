import NameBinding.Proofs.Bind.Sound

/-! # The steps that binding is made of -/

namespace NameBinding

open SymbolGraph

namespace Binding

variable {b : Binding}

/-! ### The graph -/

theorem binds_link (hb : b.Sound) (source target : SymbolId) {kind : EdgeKind}
    (harray : kind ≠ .arrayOf) (hside : kind ≠ .instanceType) :
    b.Binds (BindM.link source target kind) := by
  unfold BindM.link
  refine Binds.bind (Q := fun _ _ => True) (Binds.onGraph ?_) fun _ _ hb' _ _ =>
    Binds.pure hb' True.intro
  refine (GraphM.contract_link source target kind).weaken (fun _ hg => hg) ?_ fun _ hg => hg ▸ hb
  rintro - _ ⟨_, rfl, hs, ht, rfl⟩
  have hl : ∀ id, (b.graph.addEdge ⟨source, target, kind⟩).label? id = b.graph.label? id :=
    label?_addEdge b.graph _
  refine ⟨hb.setGraph (hb.graph.addEdge hs ht harray hside) fun id => declarations_congr (hl id),
    Grows.of_labels (fun id _ => hl id) (fun he => (hasEdge_addEdge hs ht).mpr (.inl he))
      (isResolved_addEdge b.graph _), True.intro⟩

theorem sound_alloc (hb : b.Sound) (name : String) (kind : SymbolKind) (flags : Flags SymbolFlag) :
    Sound ⟨b.graph.alloc name kind flags, b.program⟩ ∧
      b.Grows ⟨b.graph.alloc name kind flags, b.program⟩ := by
  refine ⟨hb.setGraph (hb.graph.alloc name kind flags) (declarations_alloc b.graph name kind flags),
    Grows.of_labels (fun id hid => ?_) (fun he => ?_) (isResolved_alloc b.graph name kind flags)⟩
  · rw [label?_alloc, if_neg (Nat.ne_of_lt hid)]
  · simpa only [hasEdge, outgoing_alloc] using he

/-- The new symbol is all that is added. -/
theorem binds_alloc (hb : b.Sound) (name : String) (kind : SymbolKind) (flags : Flags SymbolFlag) :
    b.Binds (BindM.alloc name kind flags) (fun id b' => id = b.graph.size ∧
      b'.graph = b.graph.alloc name kind flags) := by
  refine Binds.onGraph ((GraphM.contract_alloc name kind flags).weaken (fun _ hg => hg) ?_
    fun _ hg => hg ▸ hb)
  rintro id _ ⟨_, rfl, rfl, rfl⟩
  exact ⟨(sound_alloc hb name kind flags).1, (sound_alloc hb name kind flags).2, rfl, rfl⟩

/-- A new symbol that is no class takes declarations. -/
theorem binds_make (hb : b.Sound) (name : String) (kind : SymbolKind) {flags : Flags SymbolFlag}
    (hclass : kind ≠ .classType) (hdecl : flags.AreDeclarable) :
    b.Binds (BindM.alloc name kind flags) (fun id b' => ∀ d, b'.graph.Takes id d) := by
  refine (binds_alloc hb name kind flags).weaken ?_
  rintro id b' ⟨rfl, hg⟩ d
  refine takes_of_kind ?_ hclass ?_ d
  · rw [hg, kind?_eq, label?_alloc, if_pos rfl]
    rfl
  · rw [hg, IsDeclarable, has_eq, has_eq, label?_alloc, if_pos rfl]
    exact hdecl

/-- A class without declarations gets an instance side. -/
theorem binds_setInstanceType (hb : b.Sound) {cls inst : SymbolId}
    (hcls : b.graph.kind? cls = some .classType) (hinst : b.graph.kind? inst = some .instanceType)
    (hdecls : b.graph.declarations cls = []) :
    b.Binds (BindM.onGraph (GraphM.setInstanceType cls inst))
      (fun _ b' => b'.graph.hasEdge ⟨cls, inst, .instanceType⟩) := by
  refine Binds.onGraph ((GraphM.contract_setInstanceType cls inst).weaken (fun _ hg => hg) ?_
    fun _ hg => hg ▸ hb)
  rintro - _ ⟨_, rfl, hnone, hs, ht, rfl⟩
  have hl : ∀ id, (b.graph.addEdge ⟨cls, inst, .instanceType⟩).label? id = b.graph.label? id :=
    label?_addEdge b.graph _
  refine ⟨hb.setGraph (hb.graph.addSide hcls hinst (fun x hx => ?_) hdecls) fun id =>
    declarations_congr (hl id), Grows.of_labels (fun id _ => hl id)
      (fun he => (hasEdge_addEdge hs ht).mpr (.inl he)) (isResolved_addEdge b.graph _), (hasEdge_addEdge hs ht).mpr (.inr (.inl rfl))⟩
  rw [← hb.graph.mem_targets_iff, hnone] at hx
  exact absurd hx List.not_mem_nil

theorem binds_contribute (hb : b.Sound) {symbol : SymbolId} {d : DeclId}
    (hknown : (b.program.decl? d).isSome) (ht : b.graph.Takes symbol d) :
    b.Binds (BindM.contribute symbol d) (fun _ b' => d ∈ b'.graph.declarations symbol) := by
  refine Binds.onGraph ((GraphM.contract_declare symbol d).weaken (fun _ hg => hg) ?_
    fun _ hg => hg ▸ hb)
  rintro - _ ⟨_, rfl, hlt, rfl⟩
  have hsub : ∀ id, b.graph.declarations id ⊆ (b.graph.declare symbol d).declarations id :=
    fun id x hx => mem_declarations_declare.mpr (.inl hx)
  refine ⟨⟨hb.program, hb.graph.declare ht.declarable ht.side, ?_, ?_⟩, ⟨?_, ?_, ?_, hsub, ?_, ?_⟩, ?_⟩
  · intro id x hx
    rcases mem_declarations_declare.mp hx with hx | ⟨-, -, rfl⟩
    · exact hb.known hx
    · exact hknown
  · exact fun hx hs => hsub _ (hb.listed hx hs)
  · exact fun _ => kind?_declare b.graph symbol d _
  · exact fun f _ => has_declare b.graph symbol d _ f
  · exact fun he => by simpa only [hasEdge, outgoing_declare] using he
  · exact fun hx => hx
  · exact fun hm => by simpa only [isResolved_declare] using hm
  · exact mem_declarations_declare.mpr (.inr ⟨rfl, hlt, rfl⟩)

/-! ### The program -/

theorem binds_addTopLevel (hb : b.Sound) (unit : UnitId) (name : String) (symbol : SymbolId) :
    b.Binds (BindM.addTopLevel unit name symbol) := by
  have hd := Program.decl?_addTopLevel b.program unit name symbol
  refine Binds.modify ⟨?_, hb.graph, ?_, ?_⟩ ⟨?_, ?_, ?_, ?_, ?_, ?_⟩
  · exact hb.program.modifyUnit unit (by intro u; rfl) (by intro u; rfl) fun u hu => hu
  · exact fun hx => (hd _).symm ▸ hb.known hx
  · exact fun hx => hb.listed (hd _ ▸ hx)
  · exact fun _ => rfl
  · exact fun _ _ => rfl
  · exact fun he => he
  · exact fun _ => List.Subset.refl _
  · exact fun hx => (hd _).symm ▸ hx
  · exact fun hm => hm

/-- A declaration is bound to a symbol that lists it. -/
theorem binds_bindTo (hb : b.Sound) {symbol : SymbolId} {d : DeclId}
    (hd : d ∈ b.graph.declarations symbol) :
    b.Binds (modify fun b => { b with
      program := b.program.modifyUnit d.unit (·.modifyDecl d (·.bindTo symbol)) }) := by
  have hdecl := fun x => Program.decl?_modifyDecl b.program d x (·.bindTo symbol)
  have hknown : ∀ x, (b.program.decl? x).isSome →
      ((b.program.modifyUnit d.unit (·.modifyDecl d (·.bindTo symbol))).decl? x).isSome := by
    intro x hx
    rw [hdecl]
    split
    · simpa using hx
    · exact hx
  refine Binds.modify ⟨?_, hb.graph, fun hx => hknown _ (hb.known hx), ?_⟩
    ⟨fun _ => rfl, fun _ _ => rfl, fun he => he, fun _ => List.Subset.refl _, fun hx => hknown _ hx,
      fun hm => hm⟩
  · exact hb.program.modifyUnit d.unit (by intro u; simp) (by intro u; simp)
      fun u hu => hu.modifyDecl d (by intro x; rfl)
  · intro x y s hx hs
    rw [hdecl] at hx
    split at hx
    · next hxd =>
      subst hxd
      obtain ⟨z, hz, rfl⟩ := Option.map_eq_some_iff.mp hx
      rw [Decl.symbol_bindTo] at hs
      cases hzs : z.symbol with
      | none =>
          rw [hzs] at hs
          exact Option.some.inj hs ▸ hd
      | some s' =>
          rw [hzs] at hs
          exact Option.some.inj hs ▸ hb.listed hz hzs
    · exact hb.listed hx hs

theorem binds_record (hb : b.Sound) {symbol : SymbolId} {d : DeclId}
    (hknown : (b.program.decl? d).isSome) (ht : b.graph.Takes symbol d) :
    b.Binds (BindM.record d symbol) := by
  unfold BindM.record
  refine (binds_contribute hb hknown ht).bind fun _ b₁ hb₁ _ hd => Binds.get_bind ?_
  dsimp only
  split
  · exact Binds.throw _ hb₁
  · exact binds_bindTo hb₁ hd

end Binding

end NameBinding
