import NameBinding.Proofs.Bind.Rest
import NameBinding.Proofs.Program.Bare

/-! # Binding does not look at nodes

Each step of binding takes what is left of a program without its nodes to what is left of the outcome.

Main statement: units that differ in their nodes only are bound to one graph. -/

namespace NameBinding

namespace Binding

/-- The graph and the program without nodes. -/
def bare (b : Binding) : Binding := { b with program := b.program.bare }

theorem decl?_bare (b : Binding) (d : DeclId) :
    b.bare.program.decl? d = (b.program.decl? d).map Decl.bare := b.program.decl?_bare d

theorem bare_modifyUnit (b : Binding) (unit : UnitId) {f : CompilationUnit → CompilationUnit}
    (hf : ∀ u, (f u).bare = f u.bare) :
    ({ b with program := b.program.modifyUnit unit f } : Binding).bare =
      { b.bare with program := b.bare.program.modifyUnit unit f } :=
  congrArg (Binding.mk b.graph) (b.program.bare_modifyUnit unit hf)

end Binding

namespace BindM

variable {α β : Type}

/-- What is left of an outcome. -/
def bareOutcome : EStateM.Result BindError Binding α → EStateM.Result BindError Binding α
  | .ok a b => .ok a b.bare
  | .error e b => .error e b.bare

/-- The step does not look at nodes. -/
structure Overlooks (m : BindM α) : Prop where
  run_bare : ∀ b : Binding, m b.bare = bareOutcome (m b)

namespace Overlooks

protected theorem pure (a : α) : Overlooks (pure a) := ⟨fun _ => rfl⟩

protected theorem throw (e : BindError) : Overlooks (throw e : BindM α) := ⟨fun _ => rfl⟩

protected theorem bind {m : BindM α} {f : α → BindM β} (hm : Overlooks m)
    (hf : ∀ a, Overlooks (f a)) : Overlooks (m >>= f) := by
  refine ⟨fun b => ?_⟩
  change EStateM.bind m f b.bare = bareOutcome (EStateM.bind m f b)
  unfold EStateM.bind
  rw [hm.run_bare b]
  cases m b with
  | ok a b' => exact (hf a).run_bare b'
  | error e b' => rfl

/-- What is left of the outcome depends on what is left of the program. -/
theorem bareOutcome_eq {m : BindM α} (h : Overlooks m) {b b' : Binding} (hb : b.bare = b'.bare) :
    bareOutcome (m b) = bareOutcome (m b') := by
  rw [← h.run_bare, hb, h.run_bare]

/-- What is read goes on alike without the nodes. -/
protected theorem get_bind {f : Binding → BindM α} (hsame : ∀ b : Binding, f b.bare = f b)
    (hf : ∀ b, Overlooks (f b)) : Overlooks (get >>= f) := by
  refine ⟨fun b => ?_⟩
  change f b.bare b.bare = bareOutcome (f b b)
  rw [hsame, (hf b).run_bare]

protected theorem graph_bind {f : SymbolGraph → BindM α} (hf : ∀ g, Overlooks (f g)) :
    Overlooks (graph >>= f) := ⟨fun b => (hf b.graph).run_bare b⟩

protected theorem modify {f : Binding → Binding} (h : ∀ b : Binding, (f b).bare = f b.bare) :
    Overlooks (modify f : BindM PUnit) :=
  ⟨fun b => congrArg (EStateM.Result.ok PUnit.unit) (h b).symm⟩

protected theorem onGraph (step : GraphM α) : Overlooks (onGraph step) := by
  refine ⟨fun b => ?_⟩
  have hgraph : b.bare.graph = b.graph := rfl
  unfold BindM.onGraph
  rw [hgraph]
  cases step b.graph <;> rfl

protected theorem forM {f : α → BindM PUnit} (hf : ∀ a, Overlooks (f a)) :
    ∀ as : List α, Overlooks (as.forM f)
  | [] => .pure _
  | a :: as => (hf a).bind fun _ => Overlooks.forM hf as

protected theorem foldlM {f : β → α → BindM β} (hf : ∀ b a, Overlooks (f b a)) :
    ∀ (as : List α) (b : β), Overlooks (as.foldlM f b)
  | [], b => .pure b
  | a :: as, b => (hf b a).bind fun b => Overlooks.foldlM hf as b

end Overlooks

/-! ### Single steps -/

theorem overlooks_alloc (name : String) (kind : SymbolKind) (flags : Flags SymbolFlag) :
    Overlooks (alloc name kind flags) := .onGraph _

theorem overlooks_link (source target : SymbolId) (kind : EdgeKind) :
    Overlooks (link source target kind) := (Overlooks.onGraph _).bind fun _ => .pure _

theorem overlooks_contribute (symbol : SymbolId) (decl : DeclId) :
    Overlooks (contribute symbol decl) := .onGraph _

theorem overlooks_addTopLevel (unit : UnitId) (name : String) (symbol : SymbolId) :
    Overlooks (addTopLevel unit name symbol) :=
  .modify fun b => b.bare_modifyUnit unit fun _ => rfl

theorem overlooks_record (decl : DeclId) (symbol : SymbolId) : Overlooks (record decl symbol) := by
  have hbind : Overlooks (modify fun b : Binding => { b with
      program := b.program.modifyUnit decl.unit (·.modifyDecl decl (·.bindTo symbol)) }) :=
    .modify fun b => b.bare_modifyUnit decl.unit fun u => u.bare_modifyDecl decl fun _ => rfl
  refine (overlooks_contribute symbol decl).bind fun _ => .get_bind (fun b => ?_) fun b => ?_
  · rw [b.decl?_bare, Option.isNone_map]
  · dsimp only
    split
    · exact (Overlooks.throw _).bind fun _ => hbind
    · exact hbind

theorem overlooks_owner (scope : Option SymbolId) (d : Decl) : Overlooks (owner scope d) := by
  unfold owner
  cases scope with
  | none => exact .pure none
  | some scope =>
      refine .graph_bind fun g => ?_
      split
      · split
        · exact .pure _
        · exact .throw _
      · exact .pure _

theorem overlooks_attach (unit : UnitId) (owner : Option SymbolId) (symbol : SymbolId) (d : Decl) :
    Overlooks (attach unit owner symbol d) := by
  unfold attach
  cases owner with
  | none =>
      dsimp only
      split
      · exact overlooks_addTopLevel ..
      · exact .pure _
  | some owner =>
      refine .graph_bind fun g => ?_
      split <;> exact overlooks_link ..

theorem mergeable?_bare (b : Binding) (owner : Option SymbolId) (name : String)
    (accept : SymbolKind → Flags SymbolFlag → Bool) :
    mergeable? b.bare owner name accept = mergeable? b owner name accept := by
  have hglobal : b.bare.program.globalSymbols name = b.program.globalSymbols name :=
    b.program.globalSymbols_bare name
  have hgraph : b.bare.graph = b.graph := rfl
  unfold mergeable?
  rw [hglobal, hgraph]

theorem overlooks_mergeOrCreate (unit : UnitId) (scope : Option SymbolId) (d : Decl)
    (kind : SymbolKind) (accept : SymbolKind → Flags SymbolFlag → Bool) :
    Overlooks (mergeOrCreate unit scope d kind accept) := by
  refine (overlooks_owner scope d).bind fun owner => .get_bind (fun b => ?_) fun b => ?_
  · rw [mergeable?_bare]
  · cases mergeable? b owner d.name accept with
    | none =>
        exact (overlooks_alloc ..).bind fun symbol =>
          (overlooks_attach ..).bind fun _ => .pure symbol
    | some symbol =>
        dsimp only
        split
        · exact (overlooks_addTopLevel ..).bind fun _ => .pure symbol
        · exact .pure symbol

theorem overlooks_create (unit : UnitId) (scope : Option SymbolId) (d : Decl) (kind : SymbolKind) :
    Overlooks (create unit scope d kind) :=
  (overlooks_owner scope d).bind fun _ => (overlooks_alloc ..).bind fun _ =>
    (overlooks_attach ..).bind fun _ => overlooks_record ..

/-! ### The kinds of declarations -/

theorem overlooks_bindMerged (unit : UnitId) (scope : Option SymbolId) (d : Decl)
    (kind : SymbolKind) : Overlooks (bindMerged unit scope d kind) :=
  (overlooks_mergeOrCreate ..).bind fun _ => (overlooks_record ..).bind fun _ => .pure _

theorem overlooks_bindClass (unit : UnitId) (scope : Option SymbolId) (d : Decl) :
    Overlooks (bindClass unit scope d) :=
  (overlooks_owner scope d).bind fun _ => (overlooks_alloc ..).bind fun _ =>
    (overlooks_alloc ..).bind fun _ => (Overlooks.onGraph _).bind fun _ =>
      (overlooks_contribute ..).bind fun _ => (overlooks_attach ..).bind fun _ =>
        (overlooks_record ..).bind fun _ => .pure _

theorem overlooks_bindArgument (signature : SymbolId) (fieldsOf : Option SymbolId) (arg : Decl) :
    Overlooks (bindArgument signature fieldsOf arg) := by
  refine (overlooks_alloc ..).bind fun param => (overlooks_record ..).bind fun _ =>
    (overlooks_link ..).bind fun _ => ?_
  cases fieldsOf with
  | none => exact .pure _
  | some inst =>
      dsimp only
      split
      · exact (overlooks_alloc ..).bind fun _ => (overlooks_contribute ..).bind fun _ =>
          overlooks_link ..
      · exact .pure _

theorem overlooks_bindSignature (d : Decl) (flags : Flags SymbolFlag) (fieldsOf : Option SymbolId) :
    Overlooks (bindSignature d flags fieldsOf) := by
  refine (overlooks_alloc ..).bind fun signature => (overlooks_contribute ..).bind fun _ =>
    (Overlooks.forM (fun child => .get_bind (fun b => ?_) fun b => ?_) d.children).bind fun _ =>
      .pure signature
  · rw [b.decl?_bare]
    cases b.program.decl? child <;> rfl
  · cases b.program.decl? child with
    | none => exact .throw _
    | some arg =>
        dsimp only
        split
        · exact overlooks_bindArgument ..
        · exact .pure _

theorem overlooks_bindFunction (unit : UnitId) (scope : Option SymbolId) (d : Decl) :
    Overlooks (bindFunction unit scope d) := by
  rw [bindFunction_eq]
  exact (overlooks_mergeOrCreate ..).bind fun _ => (overlooks_record ..).bind fun _ =>
    .graph_bind fun _ => (overlooks_bindSignature ..).bind fun _ =>
      (overlooks_link ..).bind fun _ => .pure _

theorem overlooks_constructedType (scope : Option SymbolId) :
    Overlooks (constructedType scope) := by
  refine .graph_bind fun g => ?_
  cases scope with
  | none => exact .pure none
  | some cls =>
      dsimp only
      split
      · split
        · exact .pure _
        · exact .throw _
      · exact .pure none

theorem overlooks_hangSignature (kind : EdgeKind) (decl : DeclId) (inside : Inside)
    (owner : Option SymbolId) (signature : SymbolId) :
    Overlooks (hangSignature kind decl inside owner signature) := by
  have hrest := (overlooks_record decl signature).bind fun _ => Overlooks.pure inside
  cases owner with
  | none => exact hrest
  | some owner => exact (overlooks_link ..).bind fun _ => hrest

theorem overlooks_bindConstructor (scope : Option SymbolId) (d : Decl) :
    Overlooks (bindConstructor scope d) := by
  rw [bindConstructor_eq]
  exact (overlooks_constructedType scope).bind fun _ => (overlooks_bindSignature ..).bind fun _ =>
    overlooks_hangSignature ..

theorem overlooks_bindMemberSignature (scope : Option SymbolId) (d : Decl) :
    Overlooks (bindMemberSignature scope d) := by
  have hin : ∀ owner, Overlooks (bindSignatureIn d owner) := fun _ =>
    (overlooks_bindSignature ..).bind fun _ => overlooks_hangSignature ..
  rw [bindMemberSignature_eq]
  split
  · exact hin scope
  · exact (overlooks_owner scope d).bind hin

/-- One case for each group of kinds. -/
theorem overlooks_bindDecl (unit : UnitId) (scope : Option SymbolId) (d : Decl) :
    Overlooks (bindDecl unit scope d) := by
  have hvalue : ∀ kind, Overlooks (bindValue unit scope d kind) := fun _ =>
    (overlooks_create ..).bind fun _ => .pure _
  unfold bindDecl
  cases d.kind with
  | script | argument => exact .pure _
  | module | dynamicModule | interface => exact overlooks_bindMerged ..
  | classDecl => exact overlooks_bindClass ..
  | function | method | staticMethod =>
      dsimp only
      split
      · exact overlooks_bindConstructor ..
      · exact overlooks_bindFunction ..
  | field | staticField =>
      dsimp only
      split
      · exact (overlooks_mergeOrCreate ..).bind fun _ => (overlooks_record ..).bind fun _ => .pure _
      · exact hvalue _
  | callSignature | constructSignature | indexSignature => exact overlooks_bindMemberSignature ..
  | _ => exact hvalue _

theorem overlooks_bindNext (unit : UnitId) (opened : Array Inside) (d : Decl) :
    Overlooks (bindNext unit opened d) := by
  unfold bindNext
  split
  · exact .pure _
  · exact (overlooks_bindDecl ..).bind fun _ => .pure _

theorem foldlM_bindNext_bare (unit : UnitId) (ds : List Decl) (opened : Array Inside) :
    (ds.map Decl.bare).foldlM (bindNext unit) opened = ds.foldlM (bindNext unit) opened := by
  induction ds generalizing opened with
  | nil => rfl
  | cons d ds ih =>
      have hnext : bindNext unit opened d.bare = bindNext unit opened d := rfl
      rw [List.map_cons, List.foldlM_cons, List.foldlM_cons, hnext]
      exact congrArg _ (funext ih)

theorem overlooks_bindUnit (unit : UnitId) : Overlooks (bindUnit unit) := by
  refine .get_bind (fun b => ?_) fun b => ?_
  · have hunit : b.bare.program.unitById? unit = (b.program.unitById? unit).map (·.bare) :=
      b.program.unitById?_bare unit
    rw [hunit]
    cases b.program.unitById? unit with
    | none => rfl
    | some u =>
        have hroot : (u.bare.decl? u.bare.rootDecl).isNone = (u.decl? u.rootDecl).isNone := by
          rw [u.decl?_bare, Option.isNone_map]
          rfl
        have hdecls : u.bare.decls.toList = u.decls.toList.map Decl.bare := Array.toList_map
        dsimp only [Option.map_some]
        rw [hroot, hdecls, foldlM_bindNext_bare]
        rfl
  · cases b.program.unitById? unit with
    | none => exact .throw _
    | some u =>
        have hbind := (Overlooks.foldlM (overlooks_bindNext unit) u.decls.toList #[]).bind fun _ =>
          Overlooks.pure PUnit.unit
        dsimp only
        split
        · exact (Overlooks.throw _).bind fun _ => hbind
        · exact hbind

end BindM

end NameBinding
