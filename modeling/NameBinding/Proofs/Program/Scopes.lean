import NameBinding.Program.Collect

/-! # Inside open scopes

Collecting opens a scope only for a declaration that it just made, and closes it when all nodes
inside are visited. So a property of the unit and its open scopes is kept by every visit if it is
kept by the three things that a visit can do: declare and open, close, and leave out.

Main statement: such a property holds at the end, inside the root, unless the root itself was left
out. -/

namespace NameBinding

namespace Collect

variable {inv : Scopes → Collection → Prop} {α : Type}

/-- A property of a unit and its open scopes that holds whenever scopes are opened and closed. -/
structure Scoped (inv : Scopes → Collection → Prop) : Prop where
  declare : ∀ {scopes c} node name kind flags scopeName, inv scopes c →
    inv (scopes.push c.unit.nextDecl scopeName)
      ((Collect.declare scopes node name kind flags).run c).2
  close : ∀ {scopes c c' id name}, inv scopes c → inv (scopes.push id name) c' → inv scopes c'
  leaveOut : ∀ {scopes c} limit node, inv scopes c →
    inv scopes ((Collect.leaveOut limit node).run c).2

/-- What holds inside the scopes before the step holds there after it. -/
def Stays (inv : Scopes → Collection → Prop) (scopes : Scopes) (m : Collect α) : Prop :=
  ∀ c, inv scopes c → inv scopes (m.run c).2

namespace Stays

variable {scopes : Scopes}

protected theorem pure (a : α) : Stays inv scopes (pure a) := fun _ hc => hc

protected theorem bind {β : Type} {m : Collect α} {f : α → Collect β} (hm : Stays inv scopes m)
    (hf : ∀ a, Stays inv scopes (f a)) : Stays inv scopes (m >>= f) :=
  fun c hc => hf _ _ (hm c hc)

protected theorem tree : Stays inv scopes Collect.tree := fun _ hc => hc

protected theorem get : Stays inv scopes (get : Collect Collection) := fun _ hc => hc

protected theorem forM {f : α → Collect PUnit} (hf : ∀ a, Stays inv scopes (f a)) :
    ∀ as : List α, Stays inv scopes (as.forM f)
  | [] => .pure _
  | a :: as => (hf a).bind fun _ => Stays.forM hf as

end Stays

/-- A node that is not too deep is looked at. -/
theorem run_visit {limit levels : Nat} {scopes : Scopes} {c : Collection} {r : NodeRef} {node : Node}
    (hnode : c.unit.tree.node? r = some node) :
    (Collect.visit limit (levels + 1) scopes r).run c =
      (Collect.visitNode (Collect.visit limit levels) scopes r node).run c := by
  simp only [Collect.visit, Collect.tree, bind_assoc, pure_bind, StateT.run_bind, StateT.run_get,
    hnode]

namespace Scoped

variable (h : Scoped inv) {scopes : Scopes}

include h

/-- A new declaration, and what is done inside it. -/
theorem within {node : NodeRef} {name : String} {kind : DeclKind} {flags : Flags DeclFlag}
    {f : DeclId → Collect α} (scopeName : String)
    (hf : ∀ id, Stays inv (scopes.push id scopeName) (f id)) :
    Stays inv scopes (Collect.declare scopes node name kind flags >>= f) :=
  fun _ hc => h.close hc (hf _ _ (h.declare node name kind flags scopeName hc))

/-- A new declaration, and what is done beside it. -/
theorem beside {node : NodeRef} {name : String} {kind : DeclKind} {flags : Flags DeclFlag}
    {f : DeclId → Collect α} (hf : ∀ id, Stays inv scopes (f id)) :
    Stays inv scopes (Collect.declare scopes node name kind flags >>= f) :=
  fun _ hc => hf _ _ (h.close hc (h.declare node name kind flags name hc))

/-- By induction on the segments, each of which opens a scope inside the last one. -/
theorem withinModules {node : NodeRef} {f : Scopes → Collect α}
    (hf : ∀ scopes, Stays inv scopes (f scopes)) (segments : List String) :
    ∀ (scopes : Scopes) (flags : Flags DeclFlag),
      Stays inv scopes (declareModules node flags scopes segments >>= f) := by
  induction segments with
  | nil => exact fun scopes _ => hf scopes
  | cons segment segments ih =>
      intro scopes flags
      rw [declareModules, bind_assoc]
      exact h.within segment fun id => ih _ _

section Visit

variable {inside : Scopes → NodeRef → Collect Unit}
  (hi : ∀ scopes r, Stays inv scopes (inside scopes r))

include hi

omit h in
theorem visitAll (scopes : Scopes) (nodes : List NodeRef) :
    Stays inv scopes (visitAll inside scopes nodes) :=
  .forM (hi scopes) nodes

theorem withinVisit {node : NodeRef} {name : String} {kind : DeclKind} {flags : Flags DeclFlag}
    {scopeName : String} {nodes : List NodeRef} :
    Stays inv scopes (Collect.declare scopes node name kind flags >>= fun id =>
      visitScope inside scopes id scopeName nodes) :=
  h.within scopeName fun _ => visitAll hi _ _

theorem visitModule (node : NodeRef) (flags : Flags DeclFlag) (m : ModuleDecl) :
    Stays inv scopes (visitModule inside scopes node flags m) := by
  unfold Collect.visitModule
  refine Stays.tree.bind fun t => ?_
  split
  · exact h.withinVisit hi
  · exact h.withinModules (fun scopes => visitAll hi scopes _) _ _ _

theorem visitParameter (r : NodeRef) : Stays inv scopes (visitParameter inside scopes r) := by
  unfold Collect.visitParameter
  refine Stays.tree.bind fun t => ?_
  split
  · exact h.beside fun _ => hi _ _
  · exact .pure _

theorem visitFunction (node : NodeRef) (name : String) (kind : DeclKind) (flags : Flags DeclFlag)
    (f : FunctionParts) : Stays inv scopes (visitFunction inside scopes node name kind flags f) := by
  unfold Collect.visitFunction
  refine h.within name fun id => ?_
  exact (Stays.forM (fun r => h.visitParameter hi r) _).bind fun _ => hi _ _

theorem visitAccessor (node : NodeRef) (kind : DeclKind) (flags : Flags DeclFlag)
    (f : FunctionParts) : Stays inv scopes (visitAccessor inside scopes node kind flags f) :=
  Stays.tree.bind fun _ => h.withinVisit hi

theorem visitVariable (flags : Flags DeclFlag) (r : NodeRef) :
    Stays inv scopes (visitVariable inside flags scopes r) := by
  unfold Collect.visitVariable
  refine Stays.tree.bind fun t => ?_
  split
  · exact h.beside fun _ => hi _ _
  · exact .pure _

omit h hi in
theorem withFunction {r : NodeRef} {t : DocTree} {visit : FunctionParts → Collect Unit}
    (hv : ∀ f, Stays inv scopes (visit f)) :
    Stays inv scopes (visitNode.withFunction r t visit) := by
  unfold visitNode.withFunction
  split
  · exact hv _
  · exact .pure _

/-- One case for each group of node kinds. -/
theorem visitNode (r : NodeRef) (node : Node) : Stays inv scopes (visitNode inside scopes r node) := by
  unfold Collect.visitNode
  refine Stays.tree.bind fun t => ?_
  cases node.kind with
  | sourceFile => exact Stays.get.bind fun _ => h.withinVisit hi
  | moduleDeclaration =>
      dsimp only
      split
      · exact h.visitModule hi _ _ _
      · exact .pure _
  | classDeclaration | interfaceDeclaration =>
      dsimp only
      split
      · exact h.withinVisit hi
      · exact .pure _
  | functionDeclaration | functionExpression | arrowFunction | methodDeclaration | methodSignature
  | constructor | callSignature | constructSignature | indexSignature =>
      exact withFunction fun f => h.visitFunction hi _ _ _ _ f
  | getAccessor | setAccessor => exact withFunction fun f => h.visitAccessor hi _ _ _ f
  | propertyDeclaration | propertySignature =>
      dsimp only
      split
      · exact h.beside fun _ => hi _ _
      · exact .pure _
  | variableStatement =>
      dsimp only
      split
      · exact .forM (fun r => h.visitVariable hi _ r) _
      · exact .pure _
  | variableDeclaration => exact h.visitVariable hi _ r
  | importEqualsDeclaration =>
      dsimp only
      split
      · exact h.beside fun _ => .pure _
      · exact .pure _
  | unknown | externalModuleReference | parameter | block | ifStatement | whileStatement
  | forStatement | expressionStatement | returnStatement | expression => exact visitAll hi _ _
  | identifier | stringLiteral | qualifiedName | typeReference | arrayType | functionType
  | constructorType | typeLiteral | anyKeyword | numberKeyword | stringKeyword | booleanKeyword
  | voidKeyword | nullKeyword | undefinedKeyword => exact .pure _

end Visit

/-- By induction on the levels that are left. -/
theorem visit (limit levels : Nat) (scopes : Scopes) (r : NodeRef) :
    Stays inv scopes (visit limit levels scopes r) := by
  induction levels generalizing scopes r with
  | zero =>
      rw [Collect.visit]
      refine Stays.tree.bind fun t => ?_
      split
      · exact fun c hc => h.leaveOut limit r hc
      · exact .pure _
  | succ levels ih =>
      rw [Collect.visit]
      refine Stays.tree.bind fun t => ?_
      split
      · exact h.visitNode ih r _
      · exact .pure _

end Scoped

/-- The first declaration is the script around the whole document. -/
def declareRoot (u : CompilationUnit) : Collection :=
  ((declare .empty u.root u.path .script ∅).run { unit := u }).2

theorem unit_declareRoot (u : CompilationUnit) : (declareRoot u).unit =
    u.addDecl (.fresh u.nextDecl u.path .script ∅ (u.tree.span u.root) none u.root) := rfl

/-- A source file is the script itself, and is left out if no level may be visited. All other roots
get a script around them. -/
theorem Scoped.visitRoot (h : Scoped inv) (limit : Nat) {u : CompilationUnit}
    (hroot : inv (ScopeStack.empty.push u.nextDecl u.path) (declareRoot u)) :
    if limit = 0 ∧ u.tree.kind? u.root = some .sourceFile then
      ((Collect.visitRoot limit).run { unit := u }).2 = ((Collect.leaveOut 0 u.root).run { unit := u }).2
    else inv (ScopeStack.empty.push u.nextDecl u.path) ((Collect.visitRoot limit).run { unit := u }).2 := by
  have hvisit : (Collect.visitRoot limit).run { unit := u } =
      (if u.tree.kind? u.root = some .sourceFile then (do
        Collect.visit limit limit .empty u.root
        return u.nextDecl : Collect DeclId)
      else (do
        let id ← Collect.declare .empty u.root u.path .script ∅
        Collect.visit limit limit (ScopeStack.empty.push id u.path) u.root
        return id)).run { unit := u } := rfl
  rw [hvisit]
  by_cases hk : u.tree.kind? u.root = some .sourceFile
  · obtain ⟨node, hnode, hkind⟩ : ∃ node, u.tree.node? u.root = some node ∧
        node.kind = .sourceFile := Option.map_eq_some_iff.mp hk
    rw [if_pos hk]
    cases limit with
    | zero =>
        rw [if_pos ⟨rfl, hk⟩, Collect.visit]
        change ((if (u.tree.node? u.root).isSome then Collect.leaveOut 0 u.root else pure ()).run
          { unit := u }).2 = _
        rw [hnode]
        rfl
    | succ levels =>
        rw [if_neg (by simp)]
        change inv _ ((Collect.visit (levels + 1) (levels + 1) .empty u.root).run { unit := u }).2
        rw [Collect.run_visit hnode]
        unfold Collect.visitNode
        rw [hkind]
        exact visitAll (fun scopes r => h.visit _ _ scopes r) _ _ _ hroot
  · rw [if_neg hk, if_neg fun hc => hk hc.2]
    exact h.visit limit limit _ u.root _ hroot

end Collect

end NameBinding
