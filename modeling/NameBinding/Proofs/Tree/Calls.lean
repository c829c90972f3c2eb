import NameBinding.Proofs.Tree.Built

/-! # Trees by calls

A tree is built by calls, each with the nodes that it is given. All calls add nodes in the same few
ways, so what these ways keep of two builders holds after any calls, and the calls answer alike.

Main statement: in what is built, parameters have no initializer and signatures have no body. -/

namespace NameBinding

/-- A call to a builder. -/
inductive Call where
  | ident (text : String)
  | stringLiteral (text : String)
  | entityName (dotted : String)
  | keywordType (kind : NodeKind)
  | typeReference (dotted : String)
  | arrayType (element : NodeRef)
  | typeLiteral (members : List NodeRef)
  | functionType (parameters : List NodeRef) (result : NodeRef)
  | constructorType (parameters : List NodeRef) (result : NodeRef)
  | block (statements : List NodeRef)
  | expression (parts : List NodeRef)
  | ifStatement (thenPart elsePart : NodeRef)
  | whileStatement (body : NodeRef)
  | forStatement (initializer body : NodeRef)
  | expressionStatement (part : NodeRef)
  | returnStatement (part : NodeRef)
  | sourceFile (statements : List NodeRef)
  | moduleDecl (dotted : String) (modifiers : Flags Modifier) (body : List NodeRef)
  | dynamicModule (text : String) (body : List NodeRef)
  | classDecl (text : String) (modifiers : Flags Modifier)
      (extended implemented members : List NodeRef)
  | interfaceDecl (text : String) (modifiers : Flags Modifier) (extended members : List NodeRef)
  | function (text : String) (modifiers : Flags Modifier) (parameters : List NodeRef)
      (result : NodeRef) (body : Option (List NodeRef))
  | method (text : String) (modifiers : Flags Modifier) (parameters : List NodeRef)
      (result : NodeRef) (body : Option (List NodeRef))
  | methodSignature (text : String) (modifiers : Flags Modifier) (parameters : List NodeRef)
      (result : NodeRef)
  | functionExpression (text : Option String) (parameters : List NodeRef) (result : NodeRef)
      (body : List NodeRef)
  | arrowFunction (parameters : List NodeRef) (result : NodeRef) (body : List NodeRef)
  | constructorDecl (modifiers : Flags Modifier) (parameters : List NodeRef)
      (body : Option (List NodeRef))
  | getAccessor (text : String) (modifiers : Flags Modifier) (result : NodeRef)
      (body : List NodeRef)
  | setAccessor (text : String) (modifiers : Flags Modifier) (parameter : NodeRef)
      (body : List NodeRef)
  | callSignature (parameters : List NodeRef) (result : NodeRef)
  | constructSignature (parameters : List NodeRef) (result : NodeRef)
  | indexSignature (parameter valueType : NodeRef)
  | property (text : String) (modifiers : Flags Modifier) (typeNode : NodeRef)
  | propertySignature (text : String) (modifiers : Flags Modifier) (typeNode : NodeRef)
  | variableDecl (text : String) (typeNode initializer : NodeRef)
  | variableStatement (modifiers : Flags Modifier) (declarations : List NodeRef)
  | singleVariable (text : String) (modifiers : Flags Modifier) (typeNode initializer : NodeRef)
  | parameter (text : String) (modifiers : Flags Modifier) (typeNode : NodeRef)
  | importEquals (text : String) (modifiers : Flags Modifier) (dotted : String)
  | importRequire (text moduleText : String)
  | markUnplaced (r : NodeRef)
  deriving DecidableEq, Repr

namespace Call

/-- What a call does. Marking a node answers with no node. -/
def build : Call → Build NodeRef
  | ident text => Build.ident text
  | stringLiteral text => Build.stringLiteral text
  | entityName dotted => Build.entityName dotted
  | keywordType kind => Build.keywordType kind
  | typeReference dotted => Build.typeReference dotted
  | arrayType element => Build.arrayType element
  | typeLiteral members => Build.typeLiteral members
  | functionType parameters result => Build.functionType parameters result
  | constructorType parameters result => Build.constructorType parameters result
  | block statements => Build.block statements
  | expression parts => Build.expression parts
  | ifStatement thenPart elsePart => Build.ifStatement thenPart elsePart
  | whileStatement body => Build.whileStatement body
  | forStatement initializer body => Build.forStatement initializer body
  | expressionStatement part => Build.expressionStatement part
  | returnStatement part => Build.returnStatement part
  | sourceFile statements => Build.sourceFile statements
  | moduleDecl dotted modifiers body => Build.moduleDecl dotted modifiers body
  | dynamicModule text body => Build.dynamicModule text body
  | classDecl text modifiers extended implemented members =>
    Build.classDecl text modifiers extended implemented members
  | interfaceDecl text modifiers extended members =>
    Build.interfaceDecl text modifiers extended members
  | function text modifiers parameters result body =>
    Build.function text modifiers parameters result body
  | method text modifiers parameters result body =>
    Build.method text modifiers parameters result body
  | methodSignature text modifiers parameters result =>
    Build.methodSignature text modifiers parameters result
  | functionExpression text parameters result body =>
    Build.functionExpression text parameters result body
  | arrowFunction parameters result body => Build.arrowFunction parameters result body
  | constructorDecl modifiers parameters body => Build.constructorDecl modifiers parameters body
  | getAccessor text modifiers result body => Build.getAccessor text modifiers result body
  | setAccessor text modifiers value body => Build.setAccessor text modifiers value body
  | callSignature parameters result => Build.callSignature parameters result
  | constructSignature parameters result => Build.constructSignature parameters result
  | indexSignature key valueType => Build.indexSignature key valueType
  | property text modifiers typeNode => Build.property text modifiers typeNode
  | propertySignature text modifiers typeNode => Build.propertySignature text modifiers typeNode
  | variableDecl text typeNode initializer => Build.variableDecl text typeNode initializer
  | variableStatement modifiers declarations => Build.variableStatement modifiers declarations
  | singleVariable text modifiers typeNode initializer =>
    Build.singleVariable text modifiers typeNode initializer
  | parameter text modifiers typeNode => Build.parameter text modifiers typeNode
  | importEquals text modifiers dotted => Build.importEquals text modifiers dotted
  | importRequire text moduleText => Build.importRequire text moduleText
  | markUnplaced r => do
    Build.markUnplaced r
    return none

end Call

namespace TreeBuilder

/-- The builder after some calls. -/
def after (b : TreeBuilder) (calls : List Call) : TreeBuilder :=
  calls.foldl (fun b call => (call.build.run b).2) b

/-- The builder after some calls on an empty one. -/
def ofCalls (path : String) (calls : List Call) : TreeBuilder := ({ path } : TreeBuilder).after calls

end TreeBuilder

/-- Call, construct and index signatures. -/
def NodeKind.isSignature : NodeKind → Bool
  | .callSignature | .constructSignature | .indexSignature => true
  | _ => false

/-- Nodes of the kind are built with such contents. -/
structure Record.Suits (record : Record) (kind : NodeKind) : Prop where
  sort : kind.sort? = some record.sort
  parameter : ∀ p, record = .parameter p → p.initializer = none
  signature : kind.isSignature → ∀ f, record = .function f → f.body = none

namespace Build

variable {rel : TreeBuilder → TreeBuilder → Prop} {α β : Type}

/-- The step leads from related builders to related ones, and answers alike. -/
def Agrees (rel : TreeBuilder → TreeBuilder → Prop) (m : Build α) : Prop :=
  ∀ b b', rel b b' → rel (m.run b).2 (m.run b').2 ∧ (m.run b).1 = (m.run b').1

/-- What the ways to add nodes keep of two builders. -/
structure Closed (rel : TreeBuilder → TreeBuilder → Prop) : Prop where
  path : ∀ {b b'}, rel b b' → b.path = b'.path
  leaf : ∀ kind modifiers, Agrees rel (addNode kind modifiers none)
  node : ∀ kind modifiers (record : Record), record.Suits kind → Agrees rel (add kind modifiers record)
  unplace : ∀ r, Agrees rel (markUnplaced r)

namespace Agrees

protected theorem pure (a : α) : Agrees rel (pure a) := fun _ _ hb => ⟨hb, rfl⟩

protected theorem bind {m : Build α} {f : α → Build β} (hm : Agrees rel m)
    (hf : ∀ a, Agrees rel (f a)) : Agrees rel (m >>= f) := by
  intro b b' hb
  obtain ⟨hrel, hanswer⟩ := hm b b' hb
  have h := hf (m.run b).1 _ _ hrel
  have hrest : (m >>= f).run b' = (f (m.run b).1).run (m.run b').2 := by
    rw [hanswer]
    rfl
  rw [hrest]
  exact h

end Agrees

namespace Closed

variable (h : Closed rel)

include h

theorem ident (text : String) : Agrees rel (ident text) :=
  h.node _ _ _ ⟨rfl, by simp, by simp⟩

theorem qualify (left : NodeRef) (segments : List String) : Agrees rel (qualify left segments) := by
  induction segments generalizing left with
  | nil => exact .pure left
  | cons segment segments ih =>
      refine (h.ident segment).bind fun right => ?_
      exact (h.node _ _ _ ⟨rfl, by simp, by simp⟩).bind ih

theorem entityName (dotted : String) : Agrees rel (entityName dotted) := by
  unfold Build.entityName
  split
  · exact h.ident ""
  · exact (h.ident _).bind fun first => h.qualify first _

theorem statement {kind : NodeKind} (hkind : kind.sort? = some .statement) (parts : List NodeRef) :
    Agrees rel (statement kind parts) :=
  h.node _ _ _ ⟨hkind, by simp, by simp⟩

theorem functionLike (kind : NodeKind) (hkind : kind.sort? = some .function)
    (modifiers : Flags Modifier) (name : NodeRef) (parameters : List NodeRef) (typeNode : NodeRef)
    {body : NodeRef} (hbody : kind.isSignature → body = none) :
    Agrees rel (functionLike kind modifiers name parameters typeNode body) :=
  h.node _ _ _ ⟨hkind, by simp, fun hs f hf => by cases hf; exact hbody hs⟩

theorem optionalBody (body : Option (List NodeRef)) : Agrees rel (optionalBody body) := by
  cases body with
  | none => exact .pure none
  | some statements => exact h.statement rfl statements

theorem callable {kind : NodeKind} (hkind : kind.sort? = some .function)
    (hsignature : ¬kind.isSignature) (text : String) (modifiers : Flags Modifier)
    (parameters : List NodeRef) (result : NodeRef) (body : Option (List NodeRef)) :
    Agrees rel (callable kind text modifiers parameters result body) :=
  (h.ident text).bind fun _ => (h.optionalBody body).bind fun _ =>
    h.functionLike kind hkind _ _ _ _ fun hs => absurd hs hsignature

theorem valueDecl {kind : NodeKind} (hkind : kind.sort? = some .property) (text : String)
    (modifiers : Flags Modifier) (typeNode initializer : NodeRef) :
    Agrees rel (valueDecl kind text modifiers typeNode initializer) :=
  (h.ident text).bind fun _ => h.node _ _ _ ⟨hkind, by simp, by simp⟩

/-- One case for each call. -/
theorem call (call : Call) : Agrees rel call.build := by
  cases call with
  | ident text => exact h.ident text
  | stringLiteral text => exact h.node _ _ _ ⟨rfl, by simp, by simp⟩
  | entityName dotted => exact h.entityName dotted
  | keywordType kind => exact h.leaf kind ∅
  | typeReference dotted =>
      exact (h.entityName dotted).bind fun _ => h.node _ _ _ ⟨rfl, by simp, by simp⟩
  | arrayType | typeLiteral | variableStatement => exact h.node _ _ _ ⟨rfl, by simp, by simp⟩
  | functionType | constructorType | callSignature | constructSignature | indexSignature =>
      exact h.functionLike _ rfl _ _ _ _ fun _ => rfl
  | block | expression | forStatement | expressionStatement | returnStatement =>
      exact h.statement rfl _
  | ifStatement | whileStatement => exact (h.statement rfl _).bind fun _ => h.statement rfl _
  | sourceFile statements =>
      intro b b' hb
      have hnode := h.node .sourceFile ∅ (.sourceFile ⟨b.path, statements⟩)
        ⟨rfl, by simp, by simp⟩ b b' hb
      have hrun : (Build.sourceFile statements).run b' =
          (add .sourceFile ∅ (.sourceFile ⟨b.path, statements⟩)).run b' := by
        rw [h.path hb]
        rfl
      exact hrun ▸ hnode
  | moduleDecl dotted =>
      exact (h.entityName dotted).bind fun _ => h.node _ _ _ ⟨rfl, by simp, by simp⟩
  | dynamicModule =>
      exact (h.node _ _ _ ⟨rfl, by simp, by simp⟩).bind fun _ =>
        h.node _ _ _ ⟨rfl, by simp, by simp⟩
  | classDecl text | interfaceDecl text | parameter text =>
      exact (h.ident text).bind fun _ => h.node _ _ _ ⟨rfl, by simp, by simp⟩
  | function | method | methodSignature | getAccessor | setAccessor =>
      exact h.callable rfl (by simp [NodeKind.isSignature]) _ _ _ _ _
  | functionExpression text parameters result body =>
      have hrest : ∀ name, Agrees rel (do
          let body ← Build.block body
          Build.functionLike .functionExpression ∅ name parameters result body) := fun name =>
        (h.statement rfl _).bind fun _ =>
          h.functionLike .functionExpression rfl _ _ _ _ (by simp [NodeKind.isSignature])
      cases text with
      | none => exact hrest none
      | some text => exact (h.ident text).bind hrest
  | arrowFunction =>
      exact (h.statement rfl _).bind fun _ =>
        h.functionLike _ rfl _ _ _ _ (by simp [NodeKind.isSignature])
  | constructorDecl _ _ body =>
      exact (h.optionalBody body).bind fun _ =>
        h.functionLike _ rfl _ _ _ _ (by simp [NodeKind.isSignature])
  | property | propertySignature | variableDecl => exact h.valueDecl rfl _ _ _ _
  | singleVariable =>
      exact (h.valueDecl rfl _ _ _ _).bind fun _ => h.node _ _ _ ⟨rfl, by simp, by simp⟩
  | importEquals text _ dotted =>
      exact (h.ident text).bind fun _ => (h.entityName dotted).bind fun _ =>
        h.node _ _ _ ⟨rfl, by simp, by simp⟩
  | importRequire text =>
      exact (h.ident text).bind fun _ => (h.node _ _ _ ⟨rfl, by simp, by simp⟩).bind fun _ =>
        h.node _ _ _ ⟨rfl, by simp, by simp⟩
  | markUnplaced r => exact (h.unplace r).bind fun _ => .pure none

/-- By induction on the calls. -/
theorem after (calls : List Call) {b b' : TreeBuilder} (hb : rel b b') :
    rel (b.after calls) (b'.after calls) := by
  induction calls generalizing b b' with
  | nil => exact hb
  | cons call calls ih => exact ih (h.call call b b' hb).1

end Closed

end Build

/-! ### What a node is -/

namespace DocTree

/-- The kind and the modifiers of a node. -/
def heading? (t : DocTree) (r : NodeRef) : Option (NodeKind × Flags Modifier) :=
  (t.node? r).map fun node => (node.kind, node.modifiers)

/-- All nodes have contents that are built for their kind. -/
def Plain (t : DocTree) : Prop := ∀ r kind modifiers record,
  t.heading? r = some (kind, modifiers) → t.record? r = some record → record.Suits kind

theorem heading?_setSpan (t : DocTree) (i : NodeIndex) (span : Span) (r : NodeRef) :
    (t.setSpan i span).heading? r = t.heading? r := by
  cases r with
  | none => rfl
  | some j =>
      simp only [heading?, node?, setSpan, Option.bind_some, Array.getElem?_modify]
      split
      · cases t.nodes[j]? <;> rfl
      · rfl

end DocTree

namespace TreeBuilder

variable (b : TreeBuilder)

theorem heading?_finish (root r : NodeRef) : (b.finish root).heading? r = b.tree.heading? r :=
  b.finish_invariant root (f := (·.heading? r)) (fun _ _ _ => rfl)
    fun t i span => t.heading?_setSpan i span r

/-- One more node comes last. -/
theorem heading?_addNode (kind : NodeKind) (modifiers : Flags Modifier) (data : Option Nat)
    (i : NodeIndex) :
    (StateT.run (m := Id) (Build.addNode kind modifiers data) b).2.tree.heading? (some i) =
      if i = b.tree.size then some (kind, modifiers) else b.tree.heading? (some i) := by
  change ((b.tree.nodes.push ⟨kind, modifiers, Span.invalid, data⟩)[i]?).map _ = _
  rw [Array.getElem?_push]
  split <;> next hi => simp [hi, DocTree.size, DocTree.heading?, DocTree.node?]

theorem heading?_add (kind : NodeKind) (modifiers : Flags Modifier) (record : Record)
    (i : NodeIndex) :
    (StateT.run (m := Id) (Build.add kind modifiers record) b).2.tree.heading? (some i) =
      if i = b.tree.size then some (kind, modifiers) else b.tree.heading? (some i) :=
  heading?_addNode _ _ _ _ i

/-- One builder, whose nodes have the contents that are built for their kinds. -/
def StaysPlain (b b' : TreeBuilder) : Prop := b = b' ∧ b.tree.Stored ∧ b.tree.Plain

theorem closed_staysPlain : Build.Closed StaysPlain where
  path := by
    rintro b _ ⟨rfl, -, -⟩
    rfl
  leaf kind modifiers := by
    rintro b _ ⟨rfl, hstored, hplain⟩
    refine ⟨⟨rfl, stored_leaf hstored kind modifiers, fun r kind' modifiers' record hhead hrecord => ?_⟩,
      rfl⟩
    rw [record?_leaf] at hrecord
    cases r with
    | none => exact absurd hrecord (by simp [DocTree.record?, DocTree.node?])
    | some i =>
        rw [heading?_addNode] at hhead
        split at hhead
        · next hi =>
          exact absurd hrecord (by simp [hi, DocTree.record?, DocTree.node?, DocTree.size])
        · exact hplain _ _ _ _ hhead hrecord
  node kind modifiers record hsuits := by
    rintro b _ ⟨rfl, hstored, hplain⟩
    refine ⟨⟨rfl, stored_node hstored modifiers hsuits.sort,
      fun r kind' modifiers' record' hhead hrecord => ?_⟩, rfl⟩
    cases r with
    | none => exact absurd hrecord (by simp [DocTree.record?, DocTree.node?])
    | some i =>
        rw [heading?_add] at hhead
        rw [record?_node hstored modifiers hsuits.sort] at hrecord
        split at hhead
        · next hi =>
          rw [if_pos hi] at hrecord
          cases hhead
          cases hrecord
          exact hsuits
        · next hi =>
          rw [if_neg hi] at hrecord
          exact hplain _ _ _ _ hhead hrecord
  unplace r := by
    rintro b _ ⟨rfl, hstored, hplain⟩
    exact ⟨⟨rfl, hstored, hplain⟩, rfl⟩

theorem staysPlain_ofCalls (path : String) (calls : List Call) :
    StaysPlain (ofCalls path calls) (ofCalls path calls) := by
  refine closed_staysPlain.after calls ⟨rfl, fun i node sort k hnode => ?_,
    fun r kind modifiers record hhead => ?_⟩
  · simp at hnode
  · cases r <;> simp [DocTree.heading?, DocTree.node?] at hhead

/-- Whatever calls build a tree, parameters have no initializer in it, and signatures no body. -/
theorem plain_ofCalls (path : String) (calls : List Call) (root : NodeRef) :
    ((ofCalls path calls).finish root).Plain := by
  obtain ⟨-, -, hplain⟩ := staysPlain_ofCalls path calls
  intro r kind modifiers record hhead hrecord
  rw [heading?_finish] at hhead
  rw [record?_finish] at hrecord
  exact hplain r kind modifiers record hhead hrecord

end TreeBuilder

end NameBinding
