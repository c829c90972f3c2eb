import NameBinding.Proofs.Program.Preorder

/-! # The outline of a document

What a visit adds does not depend on what was collected before: it is an outline, read off the tree
alone. Each node opens some scopes, one inside the other, and has some parts that are visited inside
them. A part may declare a value first, which stands beside what is below it and not around it.

Main statement: collecting lays the outline of the root, and reports the first node that it leaves
out. -/

namespace NameBinding

/-- What is written of a declaration. -/
structure Entry where
  node : NodeRef
  name : String
  kind : DeclKind
  flags : Flags DeclFlag
  deriving DecidableEq, Repr

def Decl.entry (d : Decl) : Entry := ⟨d.node, d.name, d.kind, d.flags⟩

/-- Declarations as they nest: the first one, what is inside it, and what comes beside it. -/
inductive Outline where
  | nil
  | decl (entry : Entry) (inside rest : Outline)
  deriving DecidableEq, Repr

namespace Outline

def append : Outline → Outline → Outline
  | nil, o => o
  | decl e inside rest, o => decl e inside (rest.append o)

instance : Append Outline := ⟨append⟩

@[simp] theorem nil_append (o : Outline) : nil ++ o = o := rfl

@[simp] theorem decl_append (e : Entry) (inside rest o : Outline) :
    decl e inside rest ++ o = decl e inside (rest ++ o) := rfl

@[simp] theorem append_nil (o : Outline) : o ++ nil = o := by
  induction o with
  | nil => rfl
  | decl e inside rest _ ih => rw [decl_append, ih]

theorem append_assoc (o o' o'' : Outline) : o ++ o' ++ o'' = o ++ (o' ++ o'') := by
  induction o with
  | nil => rfl
  | decl e inside rest _ ih => simp only [decl_append, ih]

/-- Puts an outline inside scopes, the outermost first. -/
def within : List Entry → Outline → Outline
  | [], o => o
  | e :: es, o => decl e (within es o) nil

end Outline

/-- A node that is visited, after the value that it belongs to is declared. -/
structure Part where
  value : Option Entry
  node : NodeRef
  deriving DecidableEq, Repr

namespace Part

/-- A part that belongs to no value. -/
def plain (r : NodeRef) : Part := ⟨none, r⟩

variable (inside : NodeRef → Outline)

/-- The outline of some parts from the outlines of their nodes. -/
def outline : List Part → Outline
  | [] => .nil
  | ⟨none, r⟩ :: parts => inside r ++ outline parts
  | ⟨some e, r⟩ :: parts => .decl e .nil (inside r ++ outline parts)

theorem outline_append (parts parts' : List Part) :
    outline inside (parts ++ parts') = outline inside parts ++ outline inside parts' := by
  induction parts with
  | nil => rfl
  | cons part parts ih =>
      obtain ⟨_ | e, r⟩ := part
      · simp only [List.cons_append, outline, ih, Outline.append_assoc]
      · simp only [List.cons_append, outline, ih, Outline.decl_append, Outline.append_assoc]

theorem outline_congr {inside inside' : NodeRef → Outline} {parts : List Part}
    (h : ∀ part ∈ parts, inside part.node = inside' part.node) :
    outline inside parts = outline inside' parts := by
  induction parts with
  | nil => rfl
  | cons part parts ih =>
      obtain ⟨hpart, hparts⟩ := List.forall_mem_cons.mp h
      obtain ⟨_ | e, r⟩ := part <;> simp only [outline, ih hparts, hpart]

end Part

/-! ### What a node declares -/

/-- One module for each segment. All but the outermost are exported. -/
def moduleEntries (node : NodeRef) : Flags DeclFlag → List String → List Entry
  | _, [] => []
  | flags, segment :: segments => ⟨node, segment, .module, flags⟩ ::
      moduleEntries node (Flags.single .exported ∪ flags ∩ Flags.single .ambient) segments

namespace DocTree

variable (t : DocTree)

/-- The declaration around the parameters and the body of a function. -/
def functionEntry (r : NodeRef) (name : String) (kind : DeclKind) (flags : Flags DeclFlag)
    (f : FunctionParts) : Entry :=
  ⟨r, name, kind, flags.insert (if f.body.isSome then .implementation else .signature)⟩

/-- The scopes that a node opens, the outermost first. -/
def opens (path : String) (r : NodeRef) (node : Node) : List Entry :=
  let flags := Flags.ofModifiers node.modifiers
  let isStatic := flags.has .static
  match node.kind with
  | .sourceFile => [⟨r, path, .script, ∅⟩]
  | .moduleDeclaration =>
    match t.record? r with
    | some (.moduleDecl m) =>
      if t.kind? m.name = some .stringLiteral then [⟨r, t.nameText m.name, .dynamicModule, flags⟩]
      else
        let segments := t.entityName m.name
        moduleEntries r flags (if segments.isEmpty then [""] else segments)
    | _ => []
  | .classDeclaration =>
    match t.record? r with
    | some (.classDecl c) => [⟨r, t.nameText c.name, .classDecl, flags⟩]
    | _ => []
  | .interfaceDeclaration =>
    match t.record? r with
    | some (.interfaceDecl i) => [⟨r, t.nameText i.name, .interface, flags⟩]
    | _ => []
  | .functionDeclaration | .functionExpression | .arrowFunction =>
    ofFunction fun f => functionEntry r (t.nameText f.name) .function flags f
  | .methodDeclaration | .methodSignature =>
    ofFunction fun f =>
      functionEntry r (t.nameText f.name) (if isStatic then .staticMethod else .method) flags f
  | .constructor =>
    ofFunction fun f => functionEntry r "constructor" .method (flags.insert .constructor) f
  | .callSignature =>
    ofFunction fun f => functionEntry r (t.nameText f.name) .callSignature (flags.insert .call) f
  | .constructSignature =>
    ofFunction fun f =>
      functionEntry r (t.nameText f.name) .constructSignature (flags.insert .constructor) f
  | .indexSignature =>
    ofFunction fun f => functionEntry r (t.nameText f.name) .indexSignature (flags.insert .index) f
  | .getAccessor | .setAccessor =>
    ofFunction fun f =>
      ⟨r, t.nameText f.name, if isStatic then .staticField else .field, flags.insert .accessor⟩
  | _ => []
where
  ofFunction (entry : FunctionParts → Entry) : List Entry := ((t.function? r).map entry).toList

def parameterParts (r : NodeRef) : List Part :=
  match t.node? r, t.parameter? r with
  | some node, some p =>
    [⟨some ⟨r, t.nameText p.name, .argument, .ofModifiers node.modifiers⟩, p.initializer⟩]
  | _, _ => []

def variableParts (flags : Flags DeclFlag) (r : NodeRef) : List Part :=
  match t.property? r with
  | some p => [⟨some ⟨r, t.nameText p.name, .variable, flags⟩, p.initializer⟩]
  | none => []

/-- What is visited inside the scopes that a node opens. -/
def partsOf (r : NodeRef) (node : Node) : List Part :=
  let flags := Flags.ofModifiers node.modifiers
  let isStatic := flags.has .static
  match node.kind with
  | .sourceFile => (t.children r).map .plain
  | .moduleDeclaration =>
    match t.record? r with
    | some (.moduleDecl m) => m.body.map .plain
    | _ => []
  | .classDeclaration =>
    match t.record? r with
    | some (.classDecl c) => c.members.map .plain
    | _ => []
  | .interfaceDeclaration =>
    match t.record? r with
    | some (.interfaceDecl i) => i.members.map .plain
    | _ => []
  | .functionDeclaration | .functionExpression | .arrowFunction | .methodDeclaration
  | .methodSignature | .constructor | .callSignature | .constructSignature | .indexSignature =>
    match t.function? r with
    | some f => f.parameters.flatMap t.parameterParts ++ [.plain f.body]
    | none => []
  | .getAccessor | .setAccessor =>
    match t.function? r with
    | some f => [.plain f.body]
    | none => []
  | .propertyDeclaration | .propertySignature =>
    match t.property? r with
    | some p =>
      [⟨some ⟨r, t.nameText p.name, if isStatic then .staticField else .field, flags⟩,
        p.initializer⟩]
    | none => []
  | .variableStatement =>
    match t.record? r with
    | some (.variableStatement declarations) => declarations.flatMap (t.variableParts flags)
    | _ => []
  | .variableDeclaration => t.variableParts flags r
  | .importEqualsDeclaration =>
    match t.record? r with
    | some (.importEquals i) => [⟨some ⟨r, t.nameText i.name, .import, flags⟩, none⟩]
    | _ => []
  | .unknown | .externalModuleReference | .parameter | .block | .ifStatement | .whileStatement
  | .forStatement | .expressionStatement | .returnStatement | .expression =>
    (t.children r).map .plain
  | .identifier | .stringLiteral | .qualifiedName | .typeReference | .arrayType | .functionType
  | .constructorType | .typeLiteral | .anyKeyword | .numberKeyword | .stringKeyword
  | .booleanKeyword | .voidKeyword | .nullKeyword | .undefinedKeyword => []

/-- The parts of a node, and none where there is no node. -/
def parts (r : NodeRef) : List Part :=
  match t.node? r with
  | some node => t.partsOf r node
  | none => []

/-- The outline of a node, down to a number of levels. -/
def outline (path : String) : Nat → NodeRef → Outline
  | 0, _ => .nil
  | levels + 1, r =>
    match t.node? r with
    | some node => .within (t.opens path r node) (Part.outline (outline path levels) (t.partsOf r node))
    | none => .nil

/-- The nodes below the last of these levels, in the order in which they are met. -/
def cuts : Nat → NodeRef → List NodeRef
  | 0, r => if (t.node? r).isSome then [r] else []
  | levels + 1, r => (t.parts r).flatMap fun part => cuts levels part.node

/-- The outline of a whole document. A root that is not a source file gets a script around it. -/
def rootOutline (path : String) (levels : Nat) (root : NodeRef) : Outline :=
  if t.kind? root = some .sourceFile then t.outline path levels root
  else .decl ⟨root, path, .script, ∅⟩ (t.outline path levels root) .nil

end DocTree

/-! ### Laying an outline -/

namespace CompilationUnit

/-- Adds one declaration. -/
def write (u : CompilationUnit) (parent : Option DeclId) (e : Entry) : CompilationUnit :=
  u.addDecl (.fresh u.nextDecl e.name e.kind e.flags (u.tree.span e.node) parent e.node)

/-- Adds the declarations of an outline below a parent. -/
def lay (u : CompilationUnit) (parent : Option DeclId) : Outline → CompilationUnit
  | .nil => u
  | .decl e inside rest => ((u.write parent e).lay (some u.nextDecl) inside).lay parent rest

theorem lay_append (u : CompilationUnit) (parent : Option DeclId) (o o' : Outline) :
    u.lay parent (o ++ o') = (u.lay parent o).lay parent o' := by
  induction o generalizing u with
  | nil => rfl
  | decl e inside rest _ ih => exact ih _

/-- What holds of a unit, and of one more declaration wherever it holds, holds with an outline. -/
theorem lay_induction {P : CompilationUnit → Prop} (hwrite : ∀ u parent e, P u → P (u.write parent e))
    {u : CompilationUnit} (hu : P u) (parent : Option DeclId) (o : Outline) : P (u.lay parent o) := by
  induction o generalizing u parent with
  | nil => exact hu
  | decl e inside rest ihi ihr => exact ihr (ihi (hwrite _ _ _ hu) _) _

section Write

variable (u : CompilationUnit) (parent : Option DeclId) (e : Entry)

@[simp] theorem id_write : (u.write parent e).id = u.id := id_addDecl ..

@[simp] theorem size_write : (u.write parent e).decls.size = u.decls.size + 1 := size_addDecl ..

theorem parent_write_iff {p i : Nat} : (u.write parent e).Parent p i ↔
    u.Parent p i ∨ (i = u.decls.size ∧ parent = some ⟨u.id, p⟩) :=
  parent_addDecl_iff

theorem entry_withChild (unit : UnitId) (d x : Decl) (i : Nat) :
    (withChild unit d i x).entry = x.entry := by
  unfold withChild
  split <;> rfl

/-- The new declaration comes last, and the others stay as they were written. -/
theorem entry_write (i : Nat) : ((u.write parent e).decls[i]?).map Decl.entry =
    if i = u.decls.size then some e else (u.decls[i]?).map Decl.entry := by
  have hentry : ∀ (d : Decl) (x : Option Decl),
      (x.map (withChild u.id d i)).map Decl.entry = x.map Decl.entry := by
    intro d x
    cases x with
    | none => rfl
    | some x => exact congrArg some (entry_withChild ..)
  rw [write, getElem?_addDecl, hentry, Array.getElem?_push]
  split <;> rfl

@[simp] theorem id_lay (o : Outline) : (u.lay parent o).id = u.id :=
  lay_induction (P := fun v => v.id = u.id) (fun _ _ _ h => (id_write ..).trans h) rfl parent o

theorem size_le_size_lay (o : Outline) : u.decls.size ≤ (u.lay parent o).decls.size :=
  lay_induction (P := fun v => u.decls.size ≤ v.decls.size)
    (fun _ _ _ h => Nat.le_trans h (by simp)) (Nat.le_refl _) parent o

end Write

/-- The declaration, if there is any, is one of the unit. -/
def Holds (u : CompilationUnit) (parent : Option DeclId) : Prop :=
  ∀ p, parent = some p → p.unit = u.id ∧ p.index < u.decls.size

variable {u : CompilationUnit} {parent : Option DeclId}

theorem holds_none (u : CompilationUnit) : u.Holds none := by
  rintro _ ⟨⟩

theorem holds_nextDecl_write (u : CompilationUnit) (parent : Option DeclId) (e : Entry) :
    (u.write parent e).Holds (some u.nextDecl) := by
  rintro _ ⟨⟩
  exact ⟨(id_write ..).symm, by simp [nextDecl]⟩

theorem Holds.write (h : u.Holds parent) (at_ : Option DeclId) (e : Entry) :
    (u.write at_ e).Holds parent := by
  intro p hp
  obtain ⟨hunit, hlt⟩ := h p hp
  exact ⟨hunit.trans (id_write ..).symm, by simp; omega⟩

theorem Holds.lay (h : u.Holds parent) (at_ : Option DeclId) (o : Outline) :
    (u.lay at_ o).Holds parent := by
  intro p hp
  obtain ⟨hunit, hlt⟩ := h p hp
  exact ⟨hunit.trans (id_lay ..).symm, Nat.lt_of_lt_of_le hlt (size_le_size_lay ..)⟩

/-- Nothing is declared yet. -/
theorem not_parent_ofTree (id : UnitId) (path : String) (t : DocTree) (root : NodeRef) (p i : Nat) :
    ¬(ofTree id path t root).Parent p i := by
  rintro ⟨d, hd, -⟩
  simp [ofTree] at hd

/-- Every parent is a declaration of the unit. -/
def Rooted (u : CompilationUnit) : Prop := ∀ p i, u.Parent p i → p < u.decls.size

theorem Rooted.write (h : u.Rooted) (hparent : u.Holds parent) (e : Entry) :
    (u.write parent e).Rooted := by
  intro p i hp
  rw [size_write]
  rcases (parent_write_iff ..).mp hp with hp | ⟨-, hp⟩
  · exact Nat.lt_succ_of_lt (h p i hp)
  · exact Nat.lt_succ_of_lt (hparent _ hp).2

theorem Rooted.lay (h : u.Rooted) (hparent : u.Holds parent) (o : Outline) :
    (u.lay parent o).Rooted := by
  induction o generalizing u parent with
  | nil => exact h
  | decl e inside rest ihi ihr =>
      have hnew := holds_nextDecl_write u parent e
      exact ihr (ihi (h.write hparent e) hnew) (((hparent.write _ e).lay _ inside))

theorem addDecl_diagnostics (u : CompilationUnit) (reports : List Diagnostic) (d : Decl) :
    { u with diagnostics := reports }.addDecl d = { u.addDecl d with diagnostics := reports } := by
  unfold addDecl modifyDecl
  dsimp only
  split
  · split <;> rfl
  · rfl

/-- Laying neither reads nor writes reports. -/
theorem lay_diagnostics (u : CompilationUnit) (reports : List Diagnostic) (parent : Option DeclId)
    (o : Outline) :
    { u with diagnostics := reports }.lay parent o =
      { u.lay parent o with diagnostics := reports } := by
  induction o generalizing u parent with
  | nil => rfl
  | decl e inside rest ihi ihr =>
      have hwrite : { u with diagnostics := reports }.write parent e =
          { u.write parent e with diagnostics := reports } := addDecl_diagnostics ..
      simp only [lay, hwrite, ihi]
      exact ihr _ _

theorem diagnostics_lay (u : CompilationUnit) (parent : Option DeclId) (o : Outline) :
    (u.lay parent o).diagnostics = u.diagnostics := by
  have h := congrArg CompilationUnit.diagnostics (lay_diagnostics u u.diagnostics parent o)
  exact h

end CompilationUnit

namespace Collection

def lay (c : Collection) (parent : Option DeclId) (o : Outline) : Collection :=
  { c with unit := c.unit.lay parent o }

/-- Leaves nodes out, one after the other. -/
def without (limit : Nat) (c : Collection) (nodes : List NodeRef) : Collection :=
  nodes.foldl (fun c r => ((Collect.leaveOut limit r).run c).2) c

theorem lay_append (c : Collection) (parent : Option DeclId) (o o' : Outline) :
    c.lay parent (o ++ o') = (c.lay parent o).lay parent o' := by
  simp only [lay, CompilationUnit.lay_append]

theorem without_append (limit : Nat) (c : Collection) (nodes nodes' : List NodeRef) :
    c.without limit (nodes ++ nodes') = (c.without limit nodes).without limit nodes' :=
  List.foldl_append

@[simp] theorem tree_lay (c : Collection) (parent : Option DeclId) (o : Outline) :
    (c.lay parent o).unit.tree = c.unit.tree :=
  CompilationUnit.lay_induction (P := fun u => u.tree = c.unit.tree)
    (fun _ _ _ h => (CompilationUnit.tree_addDecl _ _).trans h) rfl parent o

@[simp] theorem path_lay (c : Collection) (parent : Option DeclId) (o : Outline) :
    (c.lay parent o).unit.path = c.unit.path :=
  CompilationUnit.lay_induction (P := fun u => u.path = c.unit.path)
    (fun _ _ _ h => (CompilationUnit.path_addDecl _ _).trans h) rfl parent o

theorem lay_leaveOut (limit : Nat) (r : NodeRef) (c : Collection) (parent : Option DeclId)
    (o : Outline) : Collection.lay ((Collect.leaveOut limit r).run c).2 parent o =
      ((Collect.leaveOut limit r).run (c.lay parent o)).2 := by
  have hleave : ∀ c, ((Collect.leaveOut limit r).run c).2 = if c.truncated then c else
      { truncated := true, unit := { c.unit with diagnostics := c.unit.diagnostics ++
        [Diagnostic.ofCode c.unit.path (c.unit.tree.span r) Message.nestedTooDeeply
          [Nat.repr limit]] } } := fun _ => rfl
  have hlay : (c.lay parent o).truncated = c.truncated := rfl
  rw [hleave, hleave, hlay, path_lay, tree_lay]
  split
  · rfl
  · simp only [lay, CompilationUnit.lay_diagnostics, CompilationUnit.diagnostics_lay]

theorem lay_without (limit : Nat) (nodes : List NodeRef) (c : Collection) (parent : Option DeclId)
    (o : Outline) : (c.without limit nodes).lay parent o = (c.lay parent o).without limit nodes := by
  induction nodes generalizing c with
  | nil => rfl
  | cons r nodes ih => exact (ih _).trans (congrArg (·.without limit nodes) (lay_leaveOut ..))

@[simp] theorem tree_without (limit : Nat) (nodes : List NodeRef) (c : Collection) :
    (c.without limit nodes).unit.tree = c.unit.tree := by
  induction nodes generalizing c with
  | nil => rfl
  | cons r nodes ih =>
      refine (ih _).trans ?_
      change (if c.truncated then c else _).unit.tree = _
      split <;> rfl

@[simp] theorem path_without (limit : Nat) (nodes : List NodeRef) (c : Collection) :
    (c.without limit nodes).unit.path = c.unit.path := by
  induction nodes generalizing c with
  | nil => rfl
  | cons r nodes ih =>
      refine (ih _).trans ?_
      change (if c.truncated then c else _).unit.path = _
      split <;> rfl

/-- All nodes after the first are left out silently. -/
theorem without_cons (limit : Nat) (c : Collection) (r : NodeRef) (nodes : List NodeRef) :
    c.without limit (r :: nodes) = ((Collect.leaveOut limit r).run c).2 := by
  have htruncated : ((Collect.leaveOut limit r).run c).2.truncated = true := by
    change (if c.truncated then c else _).truncated = true
    split
    · assumption
    · rfl
  have hsilent : ∀ {c : Collection}, c.truncated = true → ∀ nodes, c.without limit nodes = c := by
    intro c hc nodes
    induction nodes with
    | nil => rfl
    | cons r nodes ih =>
        have hleave : ((Collect.leaveOut limit r).run c).2 = c := if_pos hc
        exact (congrArg (·.without limit nodes) hleave).trans ih
  exact hsilent htruncated nodes

end Collection

/-! ### What collecting lays -/

namespace Collect

variable {limit : Nat} {t : DocTree} {path : String} {scopes : Scopes} {α β : Type}

/-- In any collection of the document the step adds the outline inside the scopes, and leaves the
nodes out. -/
def Lays (limit : Nat) (t : DocTree) (path : String) (scopes : Scopes) (m : Collect α) (o : Outline)
    (cuts : List NodeRef) : Prop :=
  ∀ c : Collection, c.unit.tree = t → c.unit.path = path →
    (m.run c).2 = (c.lay scopes.current o).without limit cuts

namespace Lays

protected theorem pure (a : α) : Lays limit t path scopes (pure a) .nil [] := fun _ _ _ => rfl

protected theorem bind {m : Collect α} {f : α → Collect β} {o o' : Outline}
    {cuts cuts' : List NodeRef} (hm : Lays limit t path scopes m o cuts)
    (hf : ∀ a, Lays limit t path scopes (f a) o' cuts') :
    Lays limit t path scopes (m >>= f) (o ++ o') (cuts ++ cuts') := by
  intro c htree hpath
  have h := hm c htree hpath
  calc ((m >>= f).run c).2 = ((f (m.run c).1).run (m.run c).2).2 := rfl
    _ = (((c.lay scopes.current o).without limit cuts).lay scopes.current o').without limit cuts' := by
        rw [h]
        exact hf _ _ (by simpa using htree) (by simpa using hpath)
    _ = (c.lay scopes.current (o ++ o')).without limit (cuts ++ cuts') := by
        rw [Collection.lay_without, ← Collection.lay_append, Collection.without_append]

/-- Reads the tree. -/
protected theorem tree {f : DocTree → Collect β} {o : Outline} {cuts : List NodeRef}
    (h : Lays limit t path scopes (f t) o cuts) :
    Lays limit t path scopes (Collect.tree >>= f) o cuts := by
  intro c htree hpath
  subst htree
  exact h c rfl hpath

/-- Reads the path. -/
protected theorem path {f : String → Collect β} {o : Outline} {cuts : List NodeRef}
    (h : Lays limit t path scopes (f path) o cuts) :
    Lays limit t path scopes (get >>= fun c => f c.unit.path) o cuts := by
  intro c htree hpath
  subst hpath
  exact h c htree rfl

/-- A new declaration, and what is done inside it. -/
theorem declare {e : Entry} (name : String) {f : DeclId → Collect β} {o : Outline}
    {cuts : List NodeRef} (h : ∀ id, Lays limit t path (scopes.push id name) (f id) o cuts) :
    Lays limit t path scopes (Collect.declare scopes e.node e.name e.kind e.flags >>= f)
      (.decl e o .nil) cuts := by
  intro c htree hpath
  exact h c.unit.nextDecl { c with unit := c.unit.write scopes.current e }
    ((CompilationUnit.tree_addDecl _ _).trans htree) ((CompilationUnit.path_addDecl _ _).trans hpath)

/-- A new declaration, and what is done beside it. -/
theorem value {e : Entry} {f : DeclId → Collect β} {o : Outline} {cuts : List NodeRef}
    (h : ∀ id, Lays limit t path scopes (f id) o cuts) :
    Lays limit t path scopes (Collect.declare scopes e.node e.name e.kind e.flags >>= f)
      (.decl e .nil o) cuts := by
  intro c htree hpath
  exact h c.unit.nextDecl { c with unit := c.unit.write scopes.current e }
    ((CompilationUnit.tree_addDecl _ _).trans htree) ((CompilationUnit.path_addDecl _ _).trans hpath)

/-- By induction on the segments, each of which is inside the last one. -/
theorem modules {node : NodeRef} {f : Scopes → Collect β} {o : Outline} {cuts : List NodeRef}
    (h : ∀ scopes, Lays limit t path scopes (f scopes) o cuts) (segments : List String) :
    ∀ (flags : Flags DeclFlag) (scopes : Scopes),
      Lays limit t path scopes (declareModules node flags scopes segments >>= f)
        (.within (moduleEntries node flags segments) o) cuts := by
  induction segments with
  | nil => exact fun _ scopes => h scopes
  | cons segment segments ih =>
      intro flags scopes
      rw [declareModules, bind_assoc]
      exact declare (e := ⟨node, segment, .module, flags⟩) segment fun id => ih _ _

end Lays

section Visit

variable {inside : Scopes → NodeRef → Collect Unit} {outlineOf : NodeRef → Outline}
  {cutsOf : NodeRef → List NodeRef}

/-- The step adds and leaves out what the parts do. -/
def LaysParts (limit : Nat) (t : DocTree) (path : String) (outlineOf : NodeRef → Outline)
    (cutsOf : NodeRef → List NodeRef) (scopes : Scopes) (m : Collect α) (parts : List Part) : Prop :=
  Lays limit t path scopes m (Part.outline outlineOf parts) (parts.flatMap fun p => cutsOf p.node)

namespace LaysParts

protected theorem bind {m : Collect α} {f : α → Collect β} {parts parts' : List Part}
    (hm : LaysParts limit t path outlineOf cutsOf scopes m parts)
    (hf : ∀ a, LaysParts limit t path outlineOf cutsOf scopes (f a) parts') :
    LaysParts limit t path outlineOf cutsOf scopes (m >>= f) (parts ++ parts') := by
  unfold LaysParts
  rw [Part.outline_append, List.flatMap_append]
  exact Lays.bind hm hf

protected theorem forM {f : α → Collect PUnit} {parts : α → List Part}
    (h : ∀ a, LaysParts limit t path outlineOf cutsOf scopes (f a) (parts a)) :
    ∀ as : List α, LaysParts limit t path outlineOf cutsOf scopes (as.forM f) (as.flatMap parts)
  | [] => Lays.pure _
  | a :: as => (h a).bind fun _ => LaysParts.forM h as

end LaysParts

variable (hi : ∀ scopes r, Lays limit t path scopes (inside scopes r) (outlineOf r) (cutsOf r))

include hi

theorem laysParts_plain (scopes : Scopes) (r : NodeRef) :
    LaysParts limit t path outlineOf cutsOf scopes (inside scopes r) [.plain r] := by
  have h := hi scopes r
  simpa [LaysParts, Part.plain, Part.outline] using h

/-- A part that belongs to a value. -/
theorem laysParts_value (scopes : Scopes) (e : Entry) (r : NodeRef) :
    LaysParts limit t path outlineOf cutsOf scopes
      (declare scopes e.node e.name e.kind e.flags >>= fun _ => inside scopes r) [⟨some e, r⟩] := by
  have h := Lays.value (e := e) fun _ : DeclId => hi scopes r
  simpa [LaysParts, Part.outline] using h

theorem laysParts_visitAll (scopes : Scopes) (nodes : List NodeRef) :
    LaysParts limit t path outlineOf cutsOf scopes (visitAll inside scopes nodes)
      (nodes.map .plain) := by
  rw [List.map_eq_flatMap]
  exact LaysParts.forM (laysParts_plain hi scopes) nodes

theorem laysParts_visitParameter (scopes : Scopes) (r : NodeRef) :
    LaysParts limit t path outlineOf cutsOf scopes (visitParameter inside scopes r)
      (t.parameterParts r) := by
  unfold visitParameter DocTree.parameterParts
  refine Lays.tree ?_
  cases t.node? r with
  | none => exact Lays.pure ()
  | some node =>
      cases t.parameter? r with
      | none => exact Lays.pure ()
      | some p => exact laysParts_value hi scopes ⟨r, _, .argument, _⟩ p.initializer

theorem laysParts_visitVariable (flags : Flags DeclFlag) (scopes : Scopes) (r : NodeRef) :
    LaysParts limit t path outlineOf cutsOf scopes (visitVariable inside flags scopes r)
      (t.variableParts flags r) := by
  unfold visitVariable DocTree.variableParts
  refine Lays.tree ?_
  cases t.property? r with
  | none => exact Lays.pure ()
  | some p => exact laysParts_value hi scopes ⟨r, _, .variable, flags⟩ p.initializer

theorem lays_visitScope (scopes : Scopes) (e : Entry) (name : String) (nodes : List NodeRef) :
    Lays limit t path scopes (declare scopes e.node e.name e.kind e.flags >>= fun id =>
        visitScope inside scopes id name nodes)
      (.within [e] (Part.outline outlineOf (nodes.map .plain)))
      ((nodes.map Part.plain).flatMap fun p => cutsOf p.node) :=
  Lays.declare name fun _ => laysParts_visitAll hi _ nodes

theorem lays_visitFunction (scopes : Scopes) (r : NodeRef) (name : String) (kind : DeclKind)
    (flags : Flags DeclFlag) (f : FunctionParts) :
    Lays limit t path scopes (visitFunction inside scopes r name kind flags f)
      (.within [DocTree.functionEntry r name kind flags f] (Part.outline outlineOf
        (f.parameters.flatMap t.parameterParts ++ [.plain f.body])))
      ((f.parameters.flatMap t.parameterParts ++ [Part.plain f.body]).flatMap fun p =>
        cutsOf p.node) := by
  unfold visitFunction
  refine Lays.declare (e := DocTree.functionEntry r name kind flags f) name fun id => ?_
  refine LaysParts.bind (LaysParts.forM (laysParts_visitParameter hi _) f.parameters) fun _ => ?_
  exact laysParts_plain hi _ f.body

/-- One case for each group of node kinds. -/
theorem lays_visitNode (hnone : outlineOf none = .nil ∧ cutsOf none = []) (scopes : Scopes)
    (r : NodeRef) (node : Node) :
    Lays limit t path scopes (visitNode inside scopes r node)
      (.within (t.opens path r node) (Part.outline outlineOf (t.partsOf r node)))
      ((t.partsOf r node).flatMap fun p => cutsOf p.node) := by
  unfold visitNode DocTree.opens DocTree.partsOf
  refine Lays.tree ?_
  cases node.kind with
  | sourceFile =>
      exact Lays.path (f := fun path => do
        let id ← declare scopes r path .script ∅
        visitScope inside scopes id path (t.children r))
        (lays_visitScope hi scopes ⟨r, path, .script, ∅⟩ path (t.children r))
  | moduleDeclaration =>
      cases t.record? r with
      | none => exact Lays.pure ()
      | some record =>
          cases record with
          | moduleDecl m =>
              refine Lays.tree ?_
              dsimp only
              split
              · exact lays_visitScope hi scopes ⟨r, _, .dynamicModule, _⟩ _ m.body
              · exact Lays.modules (fun scopes => laysParts_visitAll hi scopes m.body) _ _ scopes
          | _ => exact Lays.pure ()
  | classDeclaration =>
      cases t.record? r with
      | none => exact Lays.pure ()
      | some record =>
          cases record with
          | classDecl c => exact lays_visitScope hi scopes ⟨r, _, .classDecl, _⟩ _ c.members
          | _ => exact Lays.pure ()
  | interfaceDeclaration =>
      cases t.record? r with
      | none => exact Lays.pure ()
      | some record =>
          cases record with
          | interfaceDecl i => exact lays_visitScope hi scopes ⟨r, _, .interface, _⟩ _ i.members
          | _ => exact Lays.pure ()
  | functionDeclaration | functionExpression | arrowFunction | methodDeclaration | methodSignature
  | constructor | callSignature | constructSignature | indexSignature =>
      unfold visitNode.withFunction DocTree.opens.ofFunction
      cases t.function? r with
      | none => exact Lays.pure ()
      | some f => exact lays_visitFunction hi scopes r _ _ _ f
  | getAccessor | setAccessor =>
      unfold visitNode.withFunction DocTree.opens.ofFunction
      cases t.function? r with
      | none => exact Lays.pure ()
      | some f => exact Lays.tree (lays_visitScope hi scopes ⟨r, _, _, _⟩ _ [f.body])
  | propertyDeclaration | propertySignature =>
      cases t.property? r with
      | none => exact Lays.pure ()
      | some p => exact laysParts_value hi scopes ⟨r, _, _, _⟩ p.initializer
  | variableStatement =>
      cases t.record? r with
      | none => exact Lays.pure ()
      | some record =>
          cases record with
          | variableStatement declarations =>
              exact LaysParts.forM (laysParts_visitVariable hi _ scopes) declarations
          | _ => exact Lays.pure ()
  | variableDeclaration => exact laysParts_visitVariable hi _ scopes r
  | importEqualsDeclaration =>
      cases t.record? r with
      | none => exact Lays.pure ()
      | some record =>
          cases record with
          | importEquals i =>
              have h : Lays limit t path scopes (pure () : Collect Unit) (outlineOf none)
                  (cutsOf none) := by
                rw [hnone.1, hnone.2]
                exact Lays.pure ()
              have hvalue := Lays.value (e := ⟨r, t.nameText i.name, .import,
                .ofModifiers node.modifiers⟩) fun _ : DeclId => h
              simpa [Part.outline, DocTree.opens, Outline.within] using hvalue
          | _ => exact Lays.pure ()
  | unknown | externalModuleReference | parameter | block | ifStatement | whileStatement
  | forStatement | expressionStatement | returnStatement | expression =>
      exact laysParts_visitAll hi scopes _
  | identifier | stringLiteral | qualifiedName | typeReference | arrayType | functionType
  | constructorType | typeLiteral | anyKeyword | numberKeyword | stringKeyword | booleanKeyword
  | voidKeyword | nullKeyword | undefinedKeyword => exact Lays.pure ()

end Visit

/-- By induction on the levels that are left. -/
theorem lays_visit (limit : Nat) (t : DocTree) (path : String) (levels : Nat) (scopes : Scopes)
    (r : NodeRef) : Lays limit t path scopes (visit limit levels scopes r)
      (t.outline path levels r) (t.cuts levels r) := by
  induction levels generalizing scopes r with
  | zero =>
      rw [visit, DocTree.outline, DocTree.cuts]
      refine Lays.tree ?_
      split
      · exact fun c _ _ => rfl
      · exact Lays.pure ()
  | succ levels ih =>
      rw [visit, DocTree.outline, DocTree.cuts, DocTree.parts]
      refine Lays.tree ?_
      cases t.node? r with
      | none => exact Lays.pure ()
      | some node => exact lays_visitNode ih (by cases levels <;> exact ⟨rfl, rfl⟩) scopes r node

theorem run_visitRoot (u : CompilationUnit) (limit : Nat) :
    ((visitRoot limit).run { unit := u }).2 =
      Collection.without limit { unit := u.lay none (u.tree.rootOutline u.path limit u.root) }
        (u.tree.cuts limit u.root) := by
  have hrun : (visitRoot limit).run { unit := u } =
      (if u.tree.kind? u.root = some .sourceFile then (do
        visit limit limit .empty u.root
        return u.nextDecl : Collect DeclId)
      else (do
        let id ← declare .empty u.root u.path .script ∅
        visit limit limit (ScopeStack.empty.push id u.path) u.root
        return id)).run { unit := u } := rfl
  have hvisit := fun scopes => lays_visit limit u.tree u.path limit scopes u.root
  rw [hrun]
  unfold DocTree.rootOutline
  split
  · exact hvisit .empty { unit := u } rfl rfl
  · exact Lays.declare (e := ⟨u.root, u.path, .script, ∅⟩) u.path
      (fun id => hvisit (ScopeStack.empty.push id u.path)) { unit := u } rfl rfl

end Collect

namespace CompilationUnit

/-- The report of a node that is left out. -/
def depthReport (u : CompilationUnit) (limit : Nat) (r : NodeRef) : Diagnostic :=
  .ofCode u.path (u.tree.span r) Message.nestedTooDeeply [Nat.repr limit]

/-- Collecting lays the outline of the root, and reports the first node that is left out. -/
theorem collect_ofTree (id : UnitId) (path : String) (t : DocTree) (root : NodeRef) (limit : Nat) :
    (ofTree id path t root).collect limit =
      { (ofTree id path t root).lay none (t.rootOutline path limit root) with
        rootDecl := ⟨id, 0⟩
        diagnostics := (t.cuts limit root).head?.toList.map
          ((ofTree id path t root).depthReport limit) } := by
  let u := ofTree id path t root
  have hunit : u.collect limit =
      { ((Collect.visitRoot limit).run { unit := u }).2.unit with rootDecl := ⟨id, 0⟩ } := by
    rw [← rootDecl_collect limit id path t root]
    rfl
  rw [hunit, Collect.run_visitRoot]
  change { (Collection.without limit { unit := u.lay none (t.rootOutline path limit root) }
    (t.cuts limit root)).unit with rootDecl := ⟨id, 0⟩ } =
    { u.lay none (t.rootOutline path limit root) with
      rootDecl := ⟨id, 0⟩
      diagnostics := (t.cuts limit root).head?.toList.map (u.depthReport limit) }
  have hdiagnostics : (u.lay none (t.rootOutline path limit root)).diagnostics = [] :=
    diagnostics_lay ..
  have hpath : (u.lay none (t.rootOutline path limit root)).path = path :=
    Collection.path_lay { unit := u } ..
  have htree : (u.lay none (t.rootOutline path limit root)).tree = t :=
    Collection.tree_lay { unit := u } ..
  generalize u.lay none (t.rootOutline path limit root) = v at hdiagnostics hpath htree ⊢
  cases t.cuts limit root with
  | nil =>
      cases v
      cases hdiagnostics
      rfl
  | cons r nodes =>
      rw [Collection.without_cons]
      cases v
      cases hdiagnostics
      cases hpath
      cases htree
      rfl

end CompilationUnit

end NameBinding
