import NameBinding.Program.Collect
import NameBinding.Proofs.Program.WellFormed

/-! # What collecting leaves

Collecting writes in two ways only: it adds a declaration, or it reports a node. What both keep of
two units with one text holds when both are collected, whatever the tree looks like. -/

namespace NameBinding

namespace Collect

variable {rel : Collection → Collection → Prop} {same : DeclId → DeclId → Prop} {α β : Type}

/-- From related collections both steps lead to related ones, with related answers. -/
def Relates (rel : Collection → Collection → Prop) (m m' : Collect α) (post : α → α → Prop) :
    Prop :=
  ∀ c c', rel c c' → rel (m.run c).2 (m'.run c').2 ∧ post (m.run c).1 (m'.run c').1

/-- Nothing is said of the answers. -/
def Unspecified (_ _ : α) : Prop := True

namespace Relates

protected theorem pure {post : α → α → Prop} {a a' : α} (h : post a a') :
    Relates rel (pure a) (pure a') post := fun _ _ hc => ⟨hc, h⟩

protected theorem skip : Relates rel (pure () : Collect Unit) (pure ()) Unspecified :=
  Relates.pure True.intro

protected theorem bind {m m' : Collect α} {f f' : α → Collect β} {post : α → α → Prop}
    {post' : β → β → Prop} (hm : Relates rel m m' post)
    (hf : ∀ a a', post a a' → Relates rel (f a) (f' a') post') :
    Relates rel (m >>= f) (m' >>= f') post' := fun c c' hc =>
  have h := hm c c' hc
  hf (m.run c).1 (m'.run c').1 h.2 (m.run c).2 (m'.run c').2 h.1

protected theorem get : Relates rel (get : Collect Collection) get rel := fun _ _ hc => ⟨hc, hc⟩

protected theorem forM {f f' : α → Collect PUnit} :
    ∀ (as : List α), (∀ a, Relates rel (f a) (f' a) Unspecified) →
      Relates rel (as.forM f) (as.forM f') Unspecified
  | [], _ => Relates.pure True.intro
  | a :: as, h => (h a).bind fun _ _ _ => Relates.forM as h

end Relates

/-- Both stacks have related scopes innermost. -/
def Parallel (same : DeclId → DeclId → Prop) (scopes scopes' : Scopes) : Prop :=
  Option.Rel same scopes.current scopes'.current

theorem Parallel.push {id id' : DeclId} (h : same id id') (name : String) {scopes scopes' : Scopes} :
    Parallel same (scopes.push id name) (scopes'.push id' name) := .some h

/-- What is written for a node: arguments have no mark of an accessor, static members have kinds of
their own, the node of an interface is written as one, or as the script that stands around it, and
what is written as an import has the node of one. -/
structure Writes (t : DocTree) (node : NodeRef) (kind : DeclKind) (flags : Flags DeclFlag) : Prop where
  plain : kind = .argument → ¬flags.has .accessor
  static : kind.TellsStatic flags
  interface : (t.interfaceDecl? node).isSome → kind = .interface ∨ kind = .script
  imported : kind = .import → ∃ i, t.record? node = some (.importEquals i)

theorem tellsStatic_insert {kind : DeclKind} {flags : Flags DeclFlag} (h : kind.TellsStatic flags)
    {f : DeclFlag} (hf : f ≠ .static) : kind.TellsStatic (flags.insert f) := by
  intro hk
  refine (h hk).imp (fun hc => ?_) fun hs => ?_
  · simp [Flags.insert, hc]
  · have hbit : Flag.bit f ≠ Flag.bit DeclFlag.static := by
      cases f <;> simp_all [Flag.bit]
    simp [Flags.insert, Flags.has_single, hs, hbit]

/-- Nodes with a record of another form are no interfaces. -/
theorem Writes.of_record {t : DocTree} {node : NodeRef} {kind : DeclKind} {flags : Flags DeclFlag}
    {record : Record} (hr : t.record? node = some record) (hi : ∀ i, record ≠ .interfaceDecl i)
    (himport : kind = .import → ∃ i, record = .importEquals i)
    (hplain : kind = .argument → ¬flags.has .accessor) (hstatic : kind.TellsStatic flags) :
    Writes t node kind flags where
  plain := hplain
  static := hstatic
  imported hk := by
    obtain ⟨i, rfl⟩ := himport hk
    exact ⟨i, hr⟩
  interface h := by
    obtain ⟨i, h⟩ := Option.isSome_iff_exists.mp h
    unfold DocTree.interfaceDecl? at h
    rw [hr] at h
    cases record with
    | interfaceDecl i => exact absurd rfl (hi i)
    | _ => exact absurd h (by simp)

/-- The two units have the tree, and what collecting writes for its nodes keeps the relation. -/
structure Closed (t : DocTree) (rel : Collection → Collection → Prop)
    (same : DeclId → DeclId → Prop) : Prop where
  tree : ∀ {c c'}, rel c c' → c.unit.tree = t ∧ c'.unit.tree = t
  path : ∀ {c c'}, rel c c' → c.unit.path = c'.unit.path
  root : ∀ {c c'}, rel c c' → c.unit.root = c'.unit.root
  next : ∀ {c c'}, rel c c' → same c.unit.nextDecl c'.unit.nextDecl
  declare : ∀ {scopes scopes'} node name kind flags, Parallel same scopes scopes' →
    Writes t node kind flags →
    Relates rel (declare scopes node name kind flags) (declare scopes' node name kind flags) same
  leaveOut : ∀ limit node, Relates rel (leaveOut limit node) (leaveOut limit node) Unspecified

variable {t : DocTree}

theorem Closed.relates_tree (h : Closed t rel same) :
    Relates rel Collect.tree Collect.tree (fun a b => t = a ∧ t = b) :=
  fun _ _ hc => ⟨hc, (h.tree hc).1.symm, (h.tree hc).2.symm⟩

theorem Closed.declareModules (h : Closed t rel same) {node : NodeRef} {m : ModuleDecl}
    (hm : t.record? node = some (.moduleDecl m)) (flags : Flags DeclFlag)
    {scopes scopes' : Scopes} (hs : Parallel same scopes scopes') (segments : List String) :
    Relates rel (declareModules node flags scopes segments)
      (declareModules node flags scopes' segments) (Parallel same) := by
  induction segments generalizing flags scopes scopes' with
  | nil => exact Relates.pure hs
  | cons segment segments ih =>
      have hw : Writes t node .module flags :=
        .of_record hm (by simp) (by simp) (by simp) (by simp [DeclKind.TellsStatic])
      exact (h.declare _ _ _ _ hs hw).bind fun id id' hid => ih _ (.push hid _)

theorem record_of_parameter? {r : NodeRef} {p : ValueParts} (h : t.parameter? r = some p) :
    t.record? r = some (.parameter p) := by
  unfold DocTree.parameter? at h
  split at h <;> simp_all

theorem record_of_property? {r : NodeRef} {p : ValueParts} (h : t.property? r = some p) :
    t.record? r = some (.property p) := by
  unfold DocTree.property? at h
  split at h <;> simp_all

theorem record_of_function? {r : NodeRef} {f : FunctionParts} (h : t.function? r = some f) :
    t.record? r = some (.function f) := by
  unfold DocTree.function? at h
  split at h <;> simp_all

theorem not_has_accessor_ofModifiers (m : Flags Modifier) :
    ¬(Flags.ofModifiers m).has .accessor := by
  simp [Flags.ofModifiers, Flags.has_carry, Flag.bit]

section Visit

variable {inside : Scopes → NodeRef → Collect Unit}

/-- The nodes inside are visited alike in related scopes. -/
def Inner (rel : Collection → Collection → Prop) (same : DeclId → DeclId → Prop)
    (inside : Scopes → NodeRef → Collect Unit) : Prop :=
  ∀ {scopes scopes'}, Parallel same scopes scopes' → ∀ r,
    Relates rel (inside scopes r) (inside scopes' r) Unspecified

variable {scopes scopes' : Scopes}

theorem Inner.visitAll (hi : Inner rel same inside) (hs : Parallel same scopes scopes')
    (nodes : List NodeRef) :
    Relates rel (Collect.visitAll inside scopes nodes) (Collect.visitAll inside scopes' nodes)
      Unspecified :=
  Relates.forM nodes (hi hs)

theorem Inner.visitScope (hi : Inner rel same inside) {id id' : DeclId} (hid : same id id')
    (name : String) (nodes : List NodeRef) :
    Relates rel (Collect.visitScope inside scopes id name nodes)
      (Collect.visitScope inside scopes' id' name nodes) Unspecified :=
  hi.visitAll (Parallel.push hid name) nodes

theorem Closed.visitModule (h : Closed t rel same) (hi : Inner rel same inside)
    (hs : Parallel same scopes scopes') {node : NodeRef} (flags : Flags DeclFlag) {m : ModuleDecl}
    (hm : t.record? node = some (.moduleDecl m)) :
    Relates rel (visitModule inside scopes node flags m) (visitModule inside scopes' node flags m)
      Unspecified := by
  unfold Collect.visitModule
  refine h.relates_tree.bind ?_
  rintro _ _ ⟨rfl, rfl⟩
  split
  · have hw : Writes t node .dynamicModule flags :=
      .of_record hm (by simp) (by simp) (by simp) (by simp [DeclKind.TellsStatic])
    exact (h.declare _ _ _ _ hs hw).bind fun id id' hid => hi.visitScope hid _ _
  · exact (h.declareModules hm _ hs _).bind fun _ _ hs' => hi.visitAll hs' _

theorem Closed.visitParameter (h : Closed t rel same) (hi : Inner rel same inside)
    (hs : Parallel same scopes scopes') (r : NodeRef) :
    Relates rel (visitParameter inside scopes r) (visitParameter inside scopes' r) Unspecified := by
  unfold Collect.visitParameter
  refine h.relates_tree.bind ?_
  rintro _ _ ⟨rfl, rfl⟩
  cases t.node? r with
  | none => exact Relates.skip
  | some node =>
      cases hp : t.parameter? r with
      | none => exact Relates.skip
      | some p =>
          have hw : Writes t r .argument (.ofModifiers node.modifiers) :=
            .of_record (record_of_parameter? hp) (by simp) (by simp)
              (fun _ => not_has_accessor_ofModifiers _) (by simp [DeclKind.TellsStatic])
          exact (h.declare _ _ _ _ hs hw).bind fun _ _ _ => hi hs _

theorem Closed.visitFunction (h : Closed t rel same) (hi : Inner rel same inside)
    (hs : Parallel same scopes scopes') {node : NodeRef} (name : String) {kind : DeclKind}
    (hkind : kind ≠ .argument ∧ kind ≠ .import) {flags : Flags DeclFlag} (hstatic : kind.TellsStatic flags)
    {f : FunctionParts} (hf : t.function? node = some f) :
    Relates rel (visitFunction inside scopes node name kind flags f)
      (visitFunction inside scopes' node name kind flags f) Unspecified := by
  unfold Collect.visitFunction
  have hw : Writes t node kind (flags.insert (if f.body.isSome then .implementation else .signature)) :=
    .of_record (record_of_function? hf) (by simp) (fun hk => absurd hk hkind.2)
      (fun hk => absurd hk hkind.1) <|
      tellsStatic_insert hstatic (by split <;> simp)
  refine (h.declare _ _ _ _ hs hw).bind fun id id' hid => ?_
  have hs' : Parallel same (scopes.push id name) (scopes'.push id' name) := .push hid name
  exact (Relates.forM _ fun r => h.visitParameter hi hs' r).bind fun _ _ _ => hi hs' _

theorem Closed.visitAccessor (h : Closed t rel same) (hi : Inner rel same inside)
    (hs : Parallel same scopes scopes') {node : NodeRef} {kind : DeclKind}
    (hkind : kind ≠ .argument ∧ kind ≠ .import) {flags : Flags DeclFlag} (hstatic : kind.TellsStatic flags)
    {f : FunctionParts} (hf : t.function? node = some f) :
    Relates rel (visitAccessor inside scopes node kind flags f)
      (visitAccessor inside scopes' node kind flags f) Unspecified := by
  unfold Collect.visitAccessor
  refine h.relates_tree.bind ?_
  rintro _ _ ⟨rfl, rfl⟩
  have hw : Writes t node kind (flags.insert .accessor) :=
    .of_record (record_of_function? hf) (by simp) (fun hk => absurd hk hkind.2)
      (fun hk => absurd hk hkind.1) <|
      tellsStatic_insert hstatic (by simp)
  exact (h.declare _ _ _ _ hs hw).bind fun id id' hid => hi.visitScope hid _ _

theorem Closed.visitVariable (h : Closed t rel same) (hi : Inner rel same inside)
    (flags : Flags DeclFlag) (hs : Parallel same scopes scopes') (r : NodeRef) :
    Relates rel (visitVariable inside flags scopes r) (visitVariable inside flags scopes' r)
      Unspecified := by
  unfold Collect.visitVariable
  refine h.relates_tree.bind ?_
  rintro _ _ ⟨rfl, rfl⟩
  cases hp : t.property? r with
  | none => exact Relates.skip
  | some p =>
      have hw : Writes t r .variable flags :=
        .of_record (record_of_property? hp) (by simp) (by simp) (by simp)
          (by simp [DeclKind.TellsStatic])
      exact (h.declare _ _ _ _ hs hw).bind fun _ _ _ => hi hs _

theorem relates_withFunction {r : NodeRef} {visit visit' : FunctionParts → Collect Unit}
    (hv : ∀ f, t.function? r = some f → Relates rel (visit f) (visit' f) Unspecified) :
    Relates rel (visitNode.withFunction r t visit) (visitNode.withFunction r t visit') Unspecified := by
  unfold visitNode.withFunction
  cases hf : t.function? r with
  | none => exact Relates.skip
  | some f => exact hv f hf

theorem method_ne (isStatic : Bool) :
    (if isStatic then DeclKind.staticMethod else .method) ≠ .argument ∧
      (if isStatic then DeclKind.staticMethod else .method) ≠ .import := by
  cases isStatic <;> simp

theorem field_ne (isStatic : Bool) :
    (if isStatic then DeclKind.staticField else .field) ≠ .argument ∧
      (if isStatic then DeclKind.staticField else .field) ≠ .import := by
  cases isStatic <;> simp

theorem tellsStatic_method (flags : Flags DeclFlag) :
    (if flags.has .static then DeclKind.staticMethod else .method).TellsStatic flags := by
  unfold DeclKind.TellsStatic
  split <;> simp_all

theorem tellsStatic_field (flags : Flags DeclFlag) :
    (if flags.has .static then DeclKind.staticField else .field).TellsStatic flags := by
  unfold DeclKind.TellsStatic
  split <;> simp_all

/-- One case for each group of node kinds. -/
theorem Closed.visitNode (h : Closed t rel same) (hi : Inner rel same inside)
    (hs : Parallel same scopes scopes') (r : NodeRef) (node : Node) :
    Relates rel (visitNode inside scopes r node) (visitNode inside scopes' r node) Unspecified := by
  unfold Collect.visitNode
  refine h.relates_tree.bind ?_
  rintro _ _ ⟨rfl, rfl⟩
  cases node.kind with
  | sourceFile =>
      refine Relates.get.bind fun c c' hc => ?_
      rw [h.path hc]
      exact (h.declare _ _ _ _ hs ⟨by simp, by simp [DeclKind.TellsStatic], fun _ => .inr rfl, by simp⟩).bind fun _ _ hid =>
        hi.visitScope hid _ _
  | moduleDeclaration =>
      cases hr : t.record? r with
      | none => exact Relates.skip
      | some record =>
          cases record with
          | moduleDecl m => exact h.visitModule hi hs _ hr
          | _ => exact Relates.skip
  | classDeclaration =>
      cases hr : t.record? r with
      | none => exact Relates.skip
      | some record =>
          cases record with
          | classDecl c =>
              have hw : Writes t r .classDecl (.ofModifiers node.modifiers) :=
                .of_record hr (by simp) (by simp) (by simp) (by simp [DeclKind.TellsStatic])
              exact (h.declare _ _ _ _ hs hw).bind fun _ _ hid => hi.visitScope hid _ _
          | _ => exact Relates.skip
  | interfaceDeclaration =>
      cases hr : t.record? r with
      | none => exact Relates.skip
      | some record =>
          cases record with
          | interfaceDecl i =>
              exact (h.declare _ _ _ _ hs ⟨by simp, by simp [DeclKind.TellsStatic], fun _ => .inl rfl, by simp⟩).bind fun _ _ hid =>
                hi.visitScope hid _ _
          | _ => exact Relates.skip
  | functionDeclaration | functionExpression | arrowFunction | callSignature | constructSignature
  | indexSignature =>
      exact relates_withFunction fun f hf =>
        h.visitFunction hi hs _ (by simp) (by simp [DeclKind.TellsStatic]) hf
  | constructor =>
      refine relates_withFunction fun f hf => h.visitFunction hi hs _ (by simp) (fun _ => .inl ?_) hf
      simp [Flags.insert, Flags.has_single]
  | methodDeclaration | methodSignature =>
      exact relates_withFunction fun f hf =>
        h.visitFunction hi hs _ (method_ne _) (tellsStatic_method _) hf
  | getAccessor | setAccessor =>
      exact relates_withFunction fun f hf =>
        h.visitAccessor hi hs (field_ne _) (tellsStatic_field _) hf
  | propertyDeclaration | propertySignature =>
      cases hp : t.property? r with
      | none => exact Relates.skip
      | some p =>
          have hw := Writes.of_record (record_of_property? hp) (by simp)
            (fun hk => absurd hk (field_ne _).2) (fun hk => absurd hk (field_ne _).1) (tellsStatic_field (.ofModifiers node.modifiers))
          exact (h.declare _ _ _ _ hs hw).bind fun _ _ _ => hi hs _
  | variableStatement =>
      cases hr : t.record? r with
      | none => exact Relates.skip
      | some record =>
          cases record with
          | variableStatement declarations =>
              exact Relates.forM _ fun r => h.visitVariable hi _ hs r
          | _ => exact Relates.skip
  | variableDeclaration => exact h.visitVariable hi _ hs r
  | importEqualsDeclaration =>
      cases hr : t.record? r with
      | none => exact Relates.skip
      | some record =>
          cases record with
          | importEquals i =>
              have hw : Writes t r .import (.ofModifiers node.modifiers) :=
                .of_record hr (by simp) (by simp) (by simp) (by simp [DeclKind.TellsStatic])
              exact (h.declare _ _ _ _ hs hw).bind fun _ _ _ => Relates.skip
          | _ => exact Relates.skip
  | unknown | externalModuleReference | parameter | block | ifStatement | whileStatement
  | forStatement | expressionStatement | returnStatement | expression => exact hi.visitAll hs _
  | identifier | stringLiteral | qualifiedName | typeReference | arrayType | functionType
  | constructorType | typeLiteral | anyKeyword | numberKeyword | stringKeyword | booleanKeyword
  | voidKeyword | nullKeyword | undefinedKeyword => exact Relates.skip

end Visit

/-- By induction on the levels that are left. -/
theorem Closed.visit (h : Closed t rel same) (limit levels : Nat) :
    Inner rel same (visit limit levels) := by
  induction levels with
  | zero =>
      intro scopes scopes' hs r
      rw [Collect.visit, Collect.visit]
      refine h.relates_tree.bind ?_
      rintro _ _ ⟨rfl, rfl⟩
      split
      · exact h.leaveOut limit r
      · exact Relates.skip
  | succ levels ih =>
      intro scopes scopes' hs r
      rw [Collect.visit, Collect.visit]
      refine h.relates_tree.bind ?_
      rintro _ _ ⟨rfl, rfl⟩
      cases t.node? r with
      | none => exact Relates.skip
      | some node => exact h.visitNode ih hs r node

theorem Closed.visitRoot (h : Closed t rel same) (limit : Nat) :
    Relates rel (visitRoot limit) (visitRoot limit) same := by
  unfold Collect.visitRoot
  refine Relates.get.bind fun c c' hc => ?_
  have hempty : Parallel same ScopeStack.empty ScopeStack.empty := .none
  dsimp only
  rw [(h.tree hc).1, (h.tree hc).2, h.root hc, h.path hc]
  split
  · exact (h.visit limit limit hempty _).bind fun _ _ _ => Relates.pure (h.next hc)
  · exact (h.declare _ _ _ _ hempty ⟨by simp, by simp [DeclKind.TellsStatic], fun _ => .inr rfl, by simp⟩).bind fun id id' hid =>
      (h.visit limit limit (.push hid _) _).bind fun _ _ _ => Relates.pure hid

end Collect

/-! ### Collected units -/

namespace CompilationUnit

@[simp] theorem id_addDecl (u : CompilationUnit) (d : Decl) : (u.addDecl d).id = u.id := by
  unfold addDecl
  dsimp only
  split
  · exact id_modifyDecl _ _ _
  · rfl

@[simp] theorem path_addDecl (u : CompilationUnit) (d : Decl) : (u.addDecl d).path = u.path := by
  unfold addDecl
  dsimp only
  split
  · exact path_modifyDecl _ _ _
  · rfl

@[simp] theorem tree_addDecl (u : CompilationUnit) (d : Decl) : (u.addDecl d).tree = u.tree := by
  unfold addDecl modifyDecl
  dsimp only
  split
  · split <;> rfl
  · rfl

@[simp] theorem root_addDecl (u : CompilationUnit) (d : Decl) : (u.addDecl d).root = u.root := by
  unfold addDecl modifyDecl
  dsimp only
  split
  · split <;> rfl
  · rfl

@[simp] theorem topLevel_addDecl (u : CompilationUnit) (d : Decl) :
    (u.addDecl d).topLevel = u.topLevel := by
  unfold addDecl modifyDecl
  dsimp only
  split
  · split <;> rfl
  · rfl

/-- A declaration with another one below it, if that is where the other one stands. -/
def withChild (unit : UnitId) (d : Decl) (i : Nat) (x : Decl) : Decl :=
  if d.parent = some ⟨unit, i⟩ then { x with children := x.children ++ [d.id] } else x

/-- Adding a declaration puts it last and changes the children of its parent. -/
theorem getElem?_addDecl (u : CompilationUnit) (d : Decl) (i : Nat) :
    (u.addDecl d).decls[i]? = ((u.decls.push d)[i]?).map (withChild u.id d i) := by
  have hsame : ((u.decls.push d)[i]?).map (fun x => x) = (u.decls.push d)[i]? := Option.map_id'
  unfold addDecl modifyDecl withChild
  dsimp only
  split
  · next parent hp =>
    simp only [hp, Option.some.injEq]
    split
    · next hunit =>
      rw [Array.getElem?_modify]
      split
      · next hi =>
        have heq : parent = ⟨u.id, i⟩ := by rw [← hunit, ← hi]
        simp only [heq, if_true]
      · next hi =>
        have hne : parent ≠ ⟨u.id, i⟩ := fun heq => hi (by rw [heq])
        simp only [hne, if_false, hsame]
    · next hunit =>
      have hne : parent ≠ ⟨u.id, i⟩ := fun heq => hunit (by rw [heq])
      simp only [hne, if_false, hsame]
  · next hp => simp only [hp, reduceCtorEq, if_false, hsame]

/-- What holds of the declarations holds of them with one more. -/
theorem forall_addDecl {P : Nat → Decl → Prop} {u : CompilationUnit} {d : Decl}
    (h : ∀ i x, u.decls[i]? = some x → P i x) (hd : P u.decls.size d)
    (hchild : ∀ i x, P i x → P i (withChild u.id d i x)) :
    ∀ i x, (u.addDecl d).decls[i]? = some x → P i x := by
  intro i x hx
  rw [getElem?_addDecl] at hx
  obtain ⟨y, hy, rfl⟩ := Option.map_eq_some_iff.mp hx
  refine hchild i y ?_
  rw [Array.getElem?_push] at hy
  split at hy
  · next hi =>
    obtain rfl := Option.some.inj hy
    exact hi ▸ hd
  · exact h i y hy

section WithChild

variable (unit : UnitId) (d : Decl) (i : Nat) (x : Decl)

@[simp] theorem id_withChild : (withChild unit d i x).id = x.id := by
  unfold withChild
  split <;> rfl

@[simp] theorem kind_withChild : (withChild unit d i x).kind = x.kind := by
  unfold withChild
  split <;> rfl

@[simp] theorem node_withChild : (withChild unit d i x).node = x.node := by
  unfold withChild
  split <;> rfl

@[simp] theorem span_withChild : (withChild unit d i x).span = x.span := by
  unfold withChild
  split <;> rfl

@[simp] theorem flags_withChild : (withChild unit d i x).flags = x.flags := by
  unfold withChild
  split <;> rfl

@[simp] theorem parent_withChild : (withChild unit d i x).parent = x.parent := by
  unfold withChild
  split <;> rfl

@[simp] theorem symbol_withChild : (withChild unit d i x).symbol = x.symbol := by
  unfold withChild
  split <;> rfl

theorem mem_children_withChild {y : DeclId} : y ∈ (withChild unit d i x).children ↔
    y ∈ x.children ∨ (d.parent = some ⟨unit, i⟩ ∧ y = d.id) := by
  unfold withChild
  split <;> simp_all

end WithChild

theorem Numbered.addDecl {u : CompilationUnit} (h : u.Numbered) {d : Decl}
    (hd : d.id = u.nextDecl) : (u.addDecl d).Numbered := by
  intro i x hx
  rw [id_addDecl]
  refine forall_addDecl (P := fun i x => x.id = ⟨u.id, i⟩) h hd (fun i y hy => ?_) i x hx
  rw [id_withChild, hy]

theorem Unbound.addDecl {u : CompilationUnit} (h : u.Unbound) {d : Decl} (hd : d.symbol = none) :
    (u.addDecl d).Unbound :=
  forall_addDecl h hd fun _ _ hy => (symbol_withChild _ _ _ _).trans hy

theorem ReadsInterfaces.addDecl {u : CompilationUnit} (h : u.ReadsInterfaces) {d : Decl}
    (hd : (u.tree.interfaceDecl? d.node).isSome → d.kind = .interface ∨ d.kind = .script) :
    (u.addDecl d).ReadsInterfaces := by
  intro i x hx
  rw [tree_addDecl]
  refine forall_addDecl (P := fun _ x => (u.tree.interfaceDecl? x.node).isSome →
    x.kind = .interface ∨ x.kind = .script) h hd (fun i y hy => ?_) i x hx
  rwa [node_withChild, kind_withChild]

theorem ReadsImports.addDecl {u : CompilationUnit} (h : u.ReadsImports) {d : Decl}
    (hd : d.kind = .import → ∃ i, u.tree.record? d.node = some (.importEquals i)) :
    (u.addDecl d).ReadsImports := by
  intro i x hx
  rw [tree_addDecl]
  refine forall_addDecl (P := fun _ x => x.kind = .import →
    ∃ i, u.tree.record? x.node = some (.importEquals i)) h hd (fun i y hy => ?_) i x hx
  rwa [node_withChild, kind_withChild]

theorem TellsStatics.addDecl {u : CompilationUnit} (h : u.TellsStatics) {d : Decl}
    (hd : d.kind.TellsStatic d.flags) : (u.addDecl d).TellsStatics :=
  forall_addDecl h hd fun _ _ hy => by rwa [kind_withChild, flags_withChild]

/-- Declarations that are found stay. -/
theorem decl?_addDecl {u : CompilationUnit} {d x : Decl} {y : DeclId} (h : u.decl? y = some x) :
    (u.addDecl d).decl? y = some (withChild u.id d y.index x) := by
  obtain ⟨hunit, hget⟩ := decl?_eq_some h
  have hlt : y.index < u.decls.size := by
    by_contra hle
    rw [Array.getElem?_eq_none (Nat.not_lt.mp hle)] at hget
    exact absurd hget (by simp)
  rw [decl?, id_addDecl, if_pos hunit, getElem?_addDecl, Array.getElem?_push,
    if_neg (Nat.ne_of_lt hlt), hget]
  rfl

/-- The declarations with one more are the old ones and the new one. -/
theorem eq_or_of_getElem?_push {u : CompilationUnit} {d y : Decl} {i : Nat}
    (h : (u.decls.push d)[i]? = some y) : u.decls[i]? = some y ∨ (i = u.decls.size ∧ y = d) := by
  rw [Array.getElem?_push] at h
  split at h
  · next hi => exact .inr ⟨hi, (Option.some.inj h).symm⟩
  · exact .inl h

theorem Nested.addDecl {u : CompilationUnit} (h : u.Nested) (hn : u.Numbered) {d : Decl}
    (hid : d.id = u.nextDecl) (hchildren : d.children = [])
    (hparent : ∀ p, d.parent = some p → p.unit = u.id)
    (hplain : d.kind = .argument → ¬d.has .accessor) : (u.addDecl d).Nested := by
  have hnew : (u.addDecl d).decl? d.id = some (withChild u.id d u.decls.size d) := by
    simp [decl?, hid, getElem?_addDecl, nextDecl]
  have hfresh : ∀ {i : Nat} {x : Decl}, u.decls[i]? = some x → d.id ∉ x.children := by
    intro i x hx hd
    obtain ⟨child, hchild, -⟩ := h.child hx hd
    have hget := (decl?_eq_some hchild).2
    rw [hid, nextDecl, Array.getElem?_eq_none (Nat.le_refl _)] at hget
    exact absurd hget (by simp)
  constructor
  · intro i x hx
    rw [getElem?_addDecl] at hx
    obtain ⟨y, hy, rfl⟩ := Option.map_eq_some_iff.mp hx
    have hy' : y.children.Nodup ∧ d.id ∉ y.children := by
      rcases eq_or_of_getElem?_push hy with hy | ⟨-, rfl⟩
      · exact ⟨h.nodup hy, hfresh hy⟩
      · simp [hchildren]
    unfold withChild
    split
    · refine List.nodup_append.mpr ⟨hy'.1, List.nodup_singleton _, fun a ha b hb => ?_⟩
      rintro rfl
      exact hy'.2 (List.mem_singleton.mp hb ▸ ha)
    · exact hy'.1
  · intro i x z hx hz
    rw [getElem?_addDecl] at hx
    obtain ⟨y, hy, rfl⟩ := Option.map_eq_some_iff.mp hx
    rw [id_withChild]
    rcases (mem_children_withChild _ _ _ _).mp hz with hz' | ⟨hparent, rfl⟩
    · rcases eq_or_of_getElem?_push hy with hy | ⟨-, rfl⟩
      · obtain ⟨child, hchild, hp⟩ := h.child hy hz'
        exact ⟨_, decl?_addDecl hchild, (parent_withChild _ _ _ _).trans hp⟩
      · rw [hchildren] at hz'
        exact absurd hz' List.not_mem_nil
    · refine ⟨_, hnew, ?_⟩
      rw [parent_withChild, hparent]
      rcases eq_or_of_getElem?_push hy with hy | ⟨rfl, rfl⟩
      · rw [hn i y hy]
      · rw [hid, nextDecl]
  · refine fun {i x p} hx => ?_
    rw [id_addDecl]
    refine forall_addDecl (P := fun _ x => x.parent = some p → p.unit = u.id)
      (fun _ _ hy => h.parent hy) (hparent p) (fun i y hy => ?_) i x hx
    rwa [parent_withChild]
  · refine fun {i x} hx => forall_addDecl (P := fun _ x => x.kind = .argument → ¬x.has .accessor)
      (fun _ _ hy => h.plain hy) hplain (fun i y hy => ?_) i x hx
    simpa only [kind_withChild, Decl.has, flags_withChild] using hy

end CompilationUnit

/-- The unit keeps its number and document, and its declarations are numbered, nested and not bound. -/
structure Collection.Sound (u : CompilationUnit) (c : Collection) : Prop where
  id_eq : c.unit.id = u.id
  path_eq : c.unit.path = u.path
  tree_eq : c.unit.tree = u.tree
  root_eq : c.unit.root = u.root
  numbered : c.unit.Numbered
  unbound : c.unit.Unbound
  nested : c.unit.Nested
  interfaces : c.unit.ReadsInterfaces
  imports : c.unit.ReadsImports
  statics : c.unit.TellsStatics
  unlisted : c.unit.topLevel = []

/-- The scopes of both stacks are one declaration of the unit, or there are none. -/
theorem Collect.Parallel.current_eq {unit : UnitId} {scopes scopes' : Scopes}
    (h : Parallel (fun id id' => id = id' ∧ id.unit = unit) scopes scopes') :
    scopes.current = scopes'.current ∧ ∀ p, scopes.current = some p → p.unit = unit := by
  unfold Parallel at h
  generalize scopes.current = id at h ⊢
  generalize scopes'.current = id' at h ⊢
  cases h with
  | none => exact ⟨rfl, by simp⟩
  | some h => exact ⟨congrArg some h.1, fun p hp => Option.some.inj hp ▸ h.2⟩

theorem Collect.closed_sound (u : CompilationUnit) :
    Closed u.tree (fun c c' => c = c' ∧ Collection.Sound u c)
      (fun id id' => id = id' ∧ id.unit = u.id) where
  tree := by rintro c _ ⟨rfl, hc⟩; exact ⟨hc.tree_eq, hc.tree_eq⟩
  path := by rintro c _ ⟨rfl, -⟩; rfl
  root := by rintro c _ ⟨rfl, -⟩; rfl
  next := by rintro c _ ⟨rfl, hc⟩; exact ⟨rfl, hc.id_eq⟩
  declare {scopes scopes'} node name kind flags hscopes hwrites := by
    rintro c _ ⟨rfl, hc⟩
    obtain ⟨hcurrent, hparent⟩ := hscopes.current_eq
    have hdeclare : Collect.declare scopes' node name kind flags =
        Collect.declare scopes node name kind flags := by
      unfold Collect.declare
      rw [hcurrent]
    rw [hdeclare]
    refine ⟨⟨rfl, ?_⟩, rfl, hc.id_eq⟩
    exact ⟨(CompilationUnit.id_addDecl _ _).trans hc.id_eq,
      (CompilationUnit.path_addDecl _ _).trans hc.path_eq,
      (CompilationUnit.tree_addDecl _ _).trans hc.tree_eq,
      (CompilationUnit.root_addDecl _ _).trans hc.root_eq, hc.numbered.addDecl rfl,
      hc.unbound.addDecl rfl,
      hc.nested.addDecl hc.numbered rfl rfl (fun p hp => (hparent p hp).trans hc.id_eq.symm)
        hwrites.plain,
      hc.interfaces.addDecl (hc.tree_eq ▸ hwrites.interface),
      hc.imports.addDecl (hc.tree_eq ▸ hwrites.imported), hc.statics.addDecl hwrites.static,
      (CompilationUnit.topLevel_addDecl _ _).trans hc.unlisted⟩
  leaveOut limit node := by
    rintro c _ ⟨rfl, hc⟩
    refine ⟨⟨rfl, ?_⟩, True.intro⟩
    change Collection.Sound u (if c.truncated then c else _)
    split
    · exact hc
    · exact ⟨hc.id_eq, hc.path_eq, hc.tree_eq, hc.root_eq, hc.numbered, hc.unbound,
        ⟨hc.nested.nodup, hc.nested.child, hc.nested.parent, hc.nested.plain⟩, hc.interfaces,
        hc.imports, hc.statics, hc.unlisted⟩

namespace CompilationUnit

theorem sound_collect (limit : Nat) (id : UnitId) (path : String) (tree : DocTree) (root : NodeRef) :
    Collection.Sound (.ofTree id path tree root)
      { unit := (CompilationUnit.ofTree id path tree root).collect limit } := by
  let u := ofTree id path tree root
  have hnone : ∀ {i : Nat} {d : Decl}, u.decls[i]? ≠ some d := by
    intro i d hd
    simp [u, ofTree] at hd
  have hu : Collection.Sound u { unit := u } :=
    ⟨rfl, rfl, rfl, rfl, fun i d hd => absurd hd hnone, fun i d hd => absurd hd hnone,
      ⟨fun hd => absurd hd hnone, fun hd => absurd hd hnone, fun hd => absurd hd hnone,
        fun hd => absurd hd hnone⟩, fun i d hd => absurd hd hnone, fun i d hd => absurd hd hnone,
      fun i d hd => absurd hd hnone, rfl⟩
  have h := ((Collect.closed_sound u).visitRoot limit _ _ ⟨rfl, hu⟩).1.2
  exact ⟨h.id_eq, h.path_eq, h.tree_eq, h.root_eq, h.numbered, h.unbound,
    ⟨h.nested.nodup, h.nested.child, h.nested.parent, h.nested.plain⟩, h.interfaces, h.imports,
    h.statics, h.unlisted⟩

/-- The root has the first number, whether or not there is a declaration with that number. -/
theorem rootDecl_collect (limit : Nat) (id : UnitId) (path : String) (tree : DocTree)
    (root : NodeRef) : ((ofTree id path tree root).collect limit).rootDecl = ⟨id, 0⟩ := by
  have hrun : ∀ u : CompilationUnit,
      ((Collect.visitRoot limit).run { unit := u }).1 = u.nextDecl := by
    intro u
    unfold Collect.visitRoot
    simp only [StateT.run_bind, StateT.run_get, pure_bind]
    split <;> rfl
  exact hrun _

/-- The root is the first declaration, if there is any. -/
theorem decl?_rootDecl_collect (limit : Nat) (id : UnitId) (path : String) (tree : DocTree)
    (root : NodeRef) (h : ((ofTree id path tree root).collect limit).decls ≠ #[]) :
    (((ofTree id path tree root).collect limit).decl?
      ((ofTree id path tree root).collect limit).rootDecl).isSome := by
  have hid : ((ofTree id path tree root).collect limit).id = id := (sound_collect ..).id_eq
  rw [rootDecl_collect, decl?, if_pos hid.symm]
  have hpos : 0 < ((ofTree id path tree root).collect limit).decls.size := by
    rcases Nat.eq_zero_or_pos ((ofTree id path tree root).collect limit).decls.size with h0 | hpos
    · exact absurd (Array.size_eq_zero_iff.mp h0) h
    · exact hpos
  rw [Array.getElem?_eq_getElem hpos]
  rfl

end CompilationUnit

end NameBinding
