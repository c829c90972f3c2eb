import NameBinding.Proofs.Tree.Calls
import NameBinding.Proofs.Tree.Spans

/-! # Builders that go on

A builder only adds nodes, so what there is of a tree stays. The same calls add the same nodes to two
trees of one size, and put below them only nodes that they are given or made themselves. -/

namespace NameBinding

namespace DocTree

variable {t t' : DocTree} {r : NodeRef}

/-- The nodes of the first tree are the first nodes of the second one. -/
structure Starts (t t' : DocTree) : Prop where
  size_le : t.size ≤ t'.size
  heading : ∀ i < t.size, t'.heading? (some i) = t.heading? (some i)
  record : ∀ i < t.size, t'.record? (some i) = t.record? (some i)

@[simp] theorem heading?_none (t : DocTree) : t.heading? none = none := rfl

@[simp] theorem record?_none (t : DocTree) : t.record? none = none := rfl

theorem lt_size_of_heading? {i : NodeIndex} {heading : NodeKind × Flags Modifier}
    (h : t.heading? (some i) = some heading) : i < t.size := by
  obtain ⟨node, hnode, -⟩ := Option.map_eq_some_iff.mp h
  exact (Array.getElem?_eq_some_iff.mp hnode).choose

theorem exists_heading?_of_record? {record : Record} (h : t.record? r = some record) :
    ∃ heading, t.heading? r = some heading := by
  obtain ⟨node, hnode, -⟩ := Option.bind_eq_some_iff.mp h
  exact ⟨(node.kind, node.modifiers), by rw [heading?, hnode]; rfl⟩

namespace Starts

theorem refl (t : DocTree) : t.Starts t := ⟨Nat.le_refl _, fun _ _ => rfl, fun _ _ => rfl⟩

theorem trans {t'' : DocTree} (h : t.Starts t') (h' : t'.Starts t'') : t.Starts t'' := by
  refine ⟨Nat.le_trans h.size_le h'.size_le, fun i hi => ?_, fun i hi => ?_⟩
  · rw [h'.heading i (Nat.lt_of_lt_of_le hi h.size_le), h.heading i hi]
  · rw [h'.record i (Nat.lt_of_lt_of_le hi h.size_le), h.record i hi]

theorem heading_eq (h : t.Starts t') {heading : NodeKind × Flags Modifier}
    (hr : t.heading? r = some heading) : t'.heading? r = some heading := by
  cases r with
  | none => exact absurd hr (by simp)
  | some i => rw [h.heading i (lt_size_of_heading? hr), hr]

theorem record_eq (h : t.Starts t') {record : Record} (hr : t.record? r = some record) :
    t'.record? r = some record := by
  obtain ⟨heading, hheading⟩ := exists_heading?_of_record? hr
  cases r with
  | none => exact absurd hr (by simp)
  | some i => rw [h.record i (lt_size_of_heading? hheading), hr]

end Starts

end DocTree

namespace TreeBuilder

variable {b b' d d' : TreeBuilder}

/-- The second builder comes after the first one. -/
structure Precedes (b b' : TreeBuilder) : Prop where
  path : b'.path = b.path
  stored : b'.tree.Stored
  starts : b.tree.Starts b'.tree

theorem Precedes.refl (h : b.tree.Stored) : b.Precedes b := ⟨rfl, h, .refl _⟩

theorem Precedes.trans {b'' : TreeBuilder} (h : b.Precedes b') (h' : b'.Precedes b'') :
    b.Precedes b'' := ⟨h'.path.trans h.path, h'.stored, h.starts.trans h'.starts⟩

theorem size_addNode (b : TreeBuilder) (kind : NodeKind) (modifiers : Flags Modifier)
    (data : Option Nat) :
    (StateT.run (m := Id) (Build.addNode kind modifiers data) b).2.tree.size = b.tree.size + 1 :=
  Array.size_push _

theorem size_add (b : TreeBuilder) (kind : NodeKind) (modifiers : Flags Modifier) (record : Record) :
    (StateT.run (m := Id) (Build.add kind modifiers record) b).2.tree.size = b.tree.size + 1 :=
  size_addNode ..

/-- One builder, which comes after another one. -/
def ComesAfter (d b b' : TreeBuilder) : Prop := b = b' ∧ d.Precedes b

theorem closed_comesAfter (d : TreeBuilder) : Build.Closed d.ComesAfter where
  path := by
    rintro b _ ⟨rfl, -⟩
    rfl
  leaf kind modifiers := by
    rintro b _ ⟨rfl, h⟩
    refine ⟨⟨rfl, h.path, stored_leaf h.stored kind modifiers, ?_, fun i hi => ?_, fun i hi => ?_⟩, rfl⟩
    · rw [size_addNode]
      exact Nat.le_succ_of_le h.starts.size_le
    · rw [heading?_addNode, if_neg (Nat.ne_of_lt (Nat.lt_of_lt_of_le hi h.starts.size_le))]
      exact h.starts.heading i hi
    · rw [record?_leaf]
      exact h.starts.record i hi
  node kind modifiers record hsuits := by
    rintro b _ ⟨rfl, h⟩
    refine ⟨⟨rfl, h.path, stored_node h.stored modifiers hsuits.sort, ?_, fun i hi => ?_,
      fun i hi => ?_⟩, rfl⟩
    · rw [size_add]
      exact Nat.le_succ_of_le h.starts.size_le
    · rw [heading?_add, if_neg (Nat.ne_of_lt (Nat.lt_of_lt_of_le hi h.starts.size_le))]
      exact h.starts.heading i hi
    · rw [record?_node h.stored modifiers hsuits.sort,
        if_neg (Nat.ne_of_lt (Nat.lt_of_lt_of_le hi h.starts.size_le))]
      exact h.starts.record i hi
  unplace r := by
    rintro b _ ⟨rfl, h⟩
    exact ⟨⟨rfl, h.path, h.stored, h.starts⟩, rfl⟩

/-- What a step that keeps the relation leads to comes later. -/
theorem precedes_of_agrees {α : Type} {m : Build α} (h : Build.Agrees b.ComesAfter m)
    (hb : b.tree.Stored) : b.Precedes (StateT.run (m := Id) m b).2 :=
  (h b b ⟨rfl, .refl hb⟩).1.2

/-! ### The same steps after both -/

/-- Two builders that came the same way from two others. -/
structure Twins (d d' b b' : TreeBuilder) : Prop where
  path : b.path = b'.path
  left : d.Precedes b
  right : d'.Precedes b'
  size : b.tree.size = b'.tree.size
  heading : ∀ i, d.tree.size ≤ i → b.tree.heading? (some i) = b'.tree.heading? (some i)
  record : ∀ i, d.tree.size ≤ i → b.tree.record? (some i) = b'.tree.record? (some i)

theorem closed_twins (d d' : TreeBuilder) : Build.Closed (Twins d d') where
  path h := h.path
  leaf kind modifiers := by
    intro b b' h
    obtain ⟨⟨-, hleft⟩, -⟩ := d.closed_comesAfter.leaf kind modifiers b b ⟨rfl, h.left⟩
    obtain ⟨⟨-, hright⟩, -⟩ := d'.closed_comesAfter.leaf kind modifiers b' b' ⟨rfl, h.right⟩
    refine ⟨⟨h.path, hleft, hright, ?_, fun i hi => ?_, fun i hi => ?_⟩, congrArg some h.size⟩
    · rw [size_addNode, size_addNode, h.size]
    · rw [heading?_addNode, heading?_addNode, h.size, h.heading i hi]
    · rw [record?_leaf, record?_leaf, h.record i hi]
  node kind modifiers record hsuits := by
    intro b b' h
    obtain ⟨⟨-, hleft⟩, -⟩ := d.closed_comesAfter.node kind modifiers record hsuits b b ⟨rfl, h.left⟩
    obtain ⟨⟨-, hright⟩, -⟩ :=
      d'.closed_comesAfter.node kind modifiers record hsuits b' b' ⟨rfl, h.right⟩
    refine ⟨⟨h.path, hleft, hright, ?_, fun i hi => ?_, fun i hi => ?_⟩, congrArg some h.size⟩
    · rw [size_add, size_add, h.size]
    · rw [heading?_add, heading?_add, h.size, h.heading i hi]
    · rw [record?_node h.left.stored modifiers hsuits.sort,
        record?_node h.right.stored modifiers hsuits.sort, h.size, h.record i hi]
  unplace r := by
    intro b b' h
    exact ⟨⟨h.path, ⟨h.left.path, h.left.stored, h.left.starts⟩,
      ⟨h.right.path, h.right.stored, h.right.starts⟩, h.size, h.heading, h.record⟩, rfl⟩

end TreeBuilder

/-! ### Which nodes come below new ones -/

/-- The nodes that a call puts below new ones. Marking a node puts it nowhere. -/
def Call.parts : Call → List NodeRef
  | ident _ | stringLiteral _ | entityName _ | keywordType _ | typeReference _ | importEquals ..
  | importRequire .. | markUnplaced _ => []
  | arrayType part | whileStatement part | expressionStatement part | returnStatement part
  | property _ _ part | propertySignature _ _ part | parameter _ _ part => [part]
  | typeLiteral parts | block parts | expression parts | sourceFile parts | moduleDecl _ _ parts
  | dynamicModule _ parts | variableStatement _ parts => parts
  | ifStatement first second | forStatement first second | indexSignature first second
  | variableDecl _ first second | singleVariable _ _ first second => [first, second]
  | functionType parameters result | constructorType parameters result
  | callSignature parameters result | constructSignature parameters result
  | methodSignature _ _ parameters result => parameters ++ [result]
  | classDecl _ _ extended implemented members => extended ++ implemented ++ members
  | interfaceDecl _ _ extended members => extended ++ members
  | function _ _ parameters result body | method _ _ parameters result body =>
    parameters ++ [result] ++ body.getD []
  | functionExpression _ parameters result body | arrowFunction parameters result body =>
    parameters ++ [result] ++ body
  | constructorDecl _ parameters body => parameters ++ body.getD []
  | getAccessor _ _ part body | setAccessor _ _ part body => part :: body

namespace Build

variable {P : NodeRef → Prop} {guard : Prop} {m : Build NodeRef} {f : NodeRef → Build NodeRef}

/-- The step goes on. Under a condition all that it puts below new nodes has a property, and its
answer too, if the new nodes have it. -/
structure Uses (P : NodeRef → Prop) (guard : Prop) (m : Build NodeRef) : Prop where
  precedes : ∀ {b : TreeBuilder}, b.tree.Stored → b.Precedes (m.run b).2
  leads : guard → ∀ {b : TreeBuilder}, b.tree.Stored →
    (∀ j, b.tree.size ≤ j → j < (m.run b).2.tree.size → P (some j)) →
    P (m.run b).1 ∧ ∀ i, b.tree.size ≤ i → ∀ r ∈ (m.run b).2.tree.children (some i), P r

namespace Uses

protected theorem pure {r : NodeRef} (h : guard → P r) : Uses P guard (pure r) where
  precedes hb := .refl hb
  leads hguard b _ _ := by
    refine ⟨h hguard, fun i hi r hr => ?_⟩
    have hnode : b.tree.node? (some i) = none := Array.getElem?_eq_none hi
    change r ∈ b.tree.children (some i) at hr
    rw [DocTree.children_eq_nil hnode] at hr
    exact absurd hr List.not_mem_nil

protected theorem bind (hm : Uses P guard m) (hf : ∀ r, Uses P (guard ∧ P r) (f r)) :
    Uses P guard (m >>= f) where
  precedes hb := (hm.precedes hb).trans ((hf _).precedes (hm.precedes hb).stored)
  leads hguard b hb hnew := by
    have hfirst := hm.precedes hb
    have hsecond := (hf (m.run b).1).precedes hfirst.stored
    obtain ⟨hanswer, hold⟩ := hm.leads hguard hb fun j hj hlt =>
      hnew j hj (Nat.lt_of_lt_of_le hlt hsecond.starts.size_le)
    obtain ⟨hlast, hmore⟩ := (hf _).leads ⟨hguard, hanswer⟩ hfirst.stored fun j hj hlt =>
      hnew j (Nat.le_trans hfirst.starts.size_le hj) hlt
    refine ⟨hlast, fun i hi r hr => ?_⟩
    by_cases hlt : i < (m.run b).2.tree.size
    · refine hold i hi r ?_
      have hrecord := hsecond.starts.record i hlt
      rw [DocTree.children, ← hrecord]
      exact hr
    · exact hmore i (Nat.not_lt.mp hlt) r hr

protected theorem weaken {guard' : Prop} (h : Uses P guard m) (hguard : guard' → guard) :
    Uses P guard' m := ⟨h.precedes, fun h' => h.leads (hguard h')⟩

theorem node {kind : NodeKind} (modifiers : Flags Modifier) {record : Record}
    (hsuits : record.Suits kind) (hparts : guard → ∀ r ∈ record.children, P r) :
    Uses P guard (add kind modifiers record) where
  precedes hb :=
    TreeBuilder.precedes_of_agrees ((TreeBuilder.closed_comesAfter _).node _ modifiers _ hsuits) hb
  leads hguard b hb hnew := by
    refine ⟨hnew _ (Nat.le_refl _) ?_, fun i hi r hr => ?_⟩
    · rw [TreeBuilder.size_add]
      exact Nat.lt_succ_self _
    · rw [DocTree.children, TreeBuilder.record?_node hb modifiers hsuits.sort] at hr
      split at hr
      · exact hparts hguard r hr
      · have hnode : b.tree.node? (some i) = none := Array.getElem?_eq_none hi
        simp [DocTree.record?, hnode] at hr

theorem leaf (kind : NodeKind) (modifiers : Flags Modifier) :
    Uses P guard (addNode kind modifiers none) where
  precedes hb :=
    TreeBuilder.precedes_of_agrees ((TreeBuilder.closed_comesAfter _).leaf kind modifiers) hb
  leads hguard b hb hnew := by
    refine ⟨hnew _ (Nat.le_refl _) ?_, fun i hi r hr => ?_⟩
    · rw [TreeBuilder.size_addNode]
      exact Nat.lt_succ_self _
    · have hnode : b.tree.node? (some i) = none := Array.getElem?_eq_none hi
      rw [DocTree.children, TreeBuilder.record?_leaf, DocTree.record?, hnode] at hr
      simp at hr

theorem ident (text : String) : Uses P guard (ident text) :=
  .node _ ⟨rfl, by simp, by simp⟩ fun _ _ hr => absurd hr List.not_mem_nil

theorem statement {kind : NodeKind} (hkind : kind.sort? = some .statement) {parts : List NodeRef}
    (hparts : guard → ∀ r ∈ parts, P r) : Uses P guard (statement kind parts) :=
  .node _ ⟨hkind, by simp, by simp⟩ fun hguard r hr => hparts hguard r (List.mem_of_mem_filter hr)

section Calls

variable (hnone : P none)

include hnone

theorem forall_present_iff {r : NodeRef} : (∀ x ∈ NodeRef.present r, P x) ↔ P r := by
  cases r with
  | none => simpa [NodeRef.present] using hnone
  | some i => simp [NodeRef.present]

theorem qualify {left : NodeRef} (hleft : guard → P left) (segments : List String) :
    Uses P guard (qualify left segments) := by
  induction segments generalizing guard left with
  | nil => exact .pure hleft
  | cons segment segments ih =>
      refine (ident segment).bind fun right => .bind (.node _ ⟨rfl, by simp, by simp⟩ ?_)
        fun name => ih fun h => h.2
      rintro ⟨hguard, hright⟩
      exact List.forall_mem_append.mpr ⟨(forall_present_iff hnone).mpr (hleft hguard),
        (forall_present_iff hnone).mpr hright⟩

theorem entityName (dotted : String) : Uses P guard (entityName dotted) := by
  unfold Build.entityName
  split
  · exact ident ""
  · exact (ident _).bind fun first => qualify hnone (fun h => h.2) _

theorem functionLike {kind : NodeKind} (hkind : kind.sort? = some .function)
    (modifiers : Flags Modifier) {name typeNode body : NodeRef} {parameters : List NodeRef}
    (hbody : kind.isSignature → body = none) (hname : guard → P name)
    (hparameters : guard → ∀ r ∈ parameters, P r) (htype : guard → P typeNode)
    (hinside : guard → P body) :
    Uses P guard (functionLike kind modifiers name parameters typeNode body) := by
  refine .node _ ⟨hkind, by simp, fun hs f hf => by cases hf; exact hbody hs⟩ fun hguard => ?_
  simp only [Record.children, List.forall_mem_append, forall_present_iff hnone]
  exact ⟨⟨⟨hname hguard, hparameters hguard⟩, htype hguard⟩, hinside hguard⟩

theorem optionalBody {body : Option (List NodeRef)} (hbody : guard → ∀ r ∈ body.getD [], P r) :
    Uses P guard (optionalBody body) := by
  cases body with
  | none => exact .pure fun _ => hnone
  | some statements => exact statement rfl hbody

theorem callable {kind : NodeKind} (hkind : kind.sort? = some .function)
    (hsignature : ¬kind.isSignature) (text : String) (modifiers : Flags Modifier)
    {parameters : List NodeRef} {result : NodeRef} {body : Option (List NodeRef)}
    (hparameters : guard → ∀ r ∈ parameters, P r) (hresult : guard → P result)
    (hbody : guard → ∀ r ∈ body.getD [], P r) :
    Uses P guard (callable kind text modifiers parameters result body) :=
  (ident text).bind fun _ => (optionalBody hnone fun h => hbody h.1).bind fun _ =>
    functionLike hnone hkind _ (fun hs => absurd hs hsignature) (fun h => h.1.2)
      (fun h => hparameters h.1.1) (fun h => hresult h.1.1) fun h => h.2

theorem valueDecl {kind : NodeKind} (hkind : kind.sort? = some .property) (text : String)
    (modifiers : Flags Modifier) {typeNode initializer : NodeRef} (htype : guard → P typeNode)
    (hinitializer : guard → P initializer) :
    Uses P guard (valueDecl kind text modifiers typeNode initializer) := by
  refine (ident text).bind fun _ => .node _ ⟨hkind, by simp, by simp⟩ fun h => ?_
  simp only [Record.children, List.forall_mem_append, forall_present_iff hnone]
  exact ⟨⟨h.2, htype h.1⟩, hinitializer h.1⟩

omit hnone in
theorem forall_callable_iff {parameters body : List NodeRef} {result : NodeRef} :
    (∀ r ∈ parameters ++ [result] ++ body, P r) ↔
      (∀ r ∈ parameters, P r) ∧ P result ∧ ∀ r ∈ body, P r := by
  simp only [List.forall_mem_append, List.forall_mem_singleton, and_assoc]

/-- One case for each call. -/
theorem call (call : Call) : Uses P (∀ r ∈ call.parts, P r) call.build := by
  have hnothing : ∀ {guard : Prop}, guard → ∀ r ∈ ([] : List NodeRef), P r :=
    fun _ _ hr => absurd hr List.not_mem_nil
  cases call with
  | ident text => exact ident text
  | stringLiteral text => exact .node _ ⟨rfl, by simp, by simp⟩ hnothing
  | entityName dotted => exact entityName hnone dotted
  | keywordType kind => exact leaf kind ∅
  | typeReference dotted =>
      refine (entityName hnone dotted).bind fun name => .node _ ⟨rfl, by simp, by simp⟩ fun h => ?_
      exact (forall_present_iff hnone).mpr h.2
  | arrayType element =>
      refine .node _ ⟨rfl, by simp, by simp⟩ fun h => ?_
      exact (forall_present_iff hnone).mpr (List.forall_mem_singleton.mp h)
  | typeLiteral | variableStatement => exact .node _ ⟨rfl, by simp, by simp⟩ id
  | functionType | constructorType | callSignature | constructSignature =>
      exact functionLike hnone rfl _ (fun _ => rfl) (fun _ => hnone)
        (fun h => (List.forall_mem_append.mp h).1)
        (fun h => List.forall_mem_singleton.mp (List.forall_mem_append.mp h).2) fun _ => hnone
  | indexSignature =>
      exact functionLike hnone rfl _ (fun _ => rfl) (fun _ => hnone)
        (fun h => List.forall_mem_singleton.mpr (List.forall_mem_cons.mp h).1)
        (fun h => List.forall_mem_singleton.mp (List.forall_mem_cons.mp h).2) fun _ => hnone
  | block | expression | forStatement | expressionStatement | returnStatement =>
      exact statement rfl id
  | ifStatement | whileStatement =>
      exact (statement rfl hnothing).bind fun condition =>
        statement rfl fun h => List.forall_mem_cons.mpr ⟨h.2, h.1⟩
  | sourceFile statements =>
      have hfile : ∀ path, Uses P (∀ r ∈ statements, P r)
          (add .sourceFile ∅ (.sourceFile ⟨path, statements⟩)) := fun path =>
        .node _ ⟨rfl, by simp, by simp⟩ id
      exact ⟨fun {b} hb => (hfile b.path).precedes hb,
        fun h {b} hb hnew => (hfile b.path).leads h hb hnew⟩
  | moduleDecl dotted =>
      refine (entityName hnone dotted).bind fun name => .node _ ⟨rfl, by simp, by simp⟩ fun h => ?_
      exact List.forall_mem_append.mpr ⟨(forall_present_iff hnone).mpr h.2, h.1⟩
  | dynamicModule =>
      refine (Uses.node _ ⟨rfl, by simp, by simp⟩ hnothing).bind fun name =>
        .node _ ⟨rfl, by simp, by simp⟩ fun h => ?_
      exact List.forall_mem_append.mpr ⟨(forall_present_iff hnone).mpr h.2, h.1⟩
  | classDecl text | interfaceDecl text =>
      refine (ident text).bind fun name => .node _ ⟨rfl, by simp, by simp⟩ fun h => ?_
      simp only [Record.children, List.append_assoc]
      refine List.forall_mem_append.mpr ⟨(forall_present_iff hnone).mpr h.2, ?_⟩
      simpa only [Call.parts, List.append_assoc] using h.1
  | function | method =>
      exact callable hnone rfl (by simp [NodeKind.isSignature]) _ _
        (fun h => (forall_callable_iff.mp h).1) (fun h => (forall_callable_iff.mp h).2.1)
        fun h => (forall_callable_iff.mp h).2.2
  | methodSignature =>
      exact callable hnone rfl (by simp [NodeKind.isSignature]) _ _
        (fun h => (List.forall_mem_append.mp h).1)
        (fun h => List.forall_mem_singleton.mp (List.forall_mem_append.mp h).2) hnothing
  | getAccessor =>
      exact callable hnone rfl (by simp [NodeKind.isSignature]) _ _ hnothing
        (fun h => (List.forall_mem_cons.mp h).1) fun h => (List.forall_mem_cons.mp h).2
  | setAccessor =>
      exact callable hnone rfl (by simp [NodeKind.isSignature]) _ _
        (fun h => List.forall_mem_singleton.mpr (List.forall_mem_cons.mp h).1) (fun _ => hnone)
        fun h => (List.forall_mem_cons.mp h).2
  | functionExpression text parameters result body =>
      have hrest : ∀ {guard : Prop} {name}, (guard → P name) →
          (guard → ∀ r ∈ parameters ++ [result] ++ body, P r) → Uses P guard (do
            let body ← Build.block body
            Build.functionLike .functionExpression ∅ name parameters result body) :=
        fun hname h => (statement rfl fun hg => (forall_callable_iff.mp (h hg)).2.2).bind fun _ =>
          functionLike hnone rfl _ (by simp [NodeKind.isSignature]) (fun hg => hname hg.1)
            (fun hg => (forall_callable_iff.mp (h hg.1)).1)
            (fun hg => (forall_callable_iff.mp (h hg.1)).2.1) fun hg => hg.2
      cases text with
      | none => exact hrest (fun _ => hnone) id
      | some text => exact (ident text).bind fun name => hrest (fun hg => hg.2) fun hg => hg.1
  | arrowFunction =>
      exact (statement rfl fun h => (forall_callable_iff.mp h).2.2).bind fun _ =>
        functionLike hnone rfl _ (by simp [NodeKind.isSignature]) (fun _ => hnone)
          (fun h => (forall_callable_iff.mp h.1).1) (fun h => (forall_callable_iff.mp h.1).2.1)
          fun h => h.2
  | constructorDecl =>
      exact (optionalBody hnone fun h => (List.forall_mem_append.mp h).2).bind fun _ =>
        functionLike hnone rfl _ (by simp [NodeKind.isSignature]) (fun _ => hnone)
          (fun h => (List.forall_mem_append.mp h.1).1) (fun _ => hnone) fun h => h.2
  | property | propertySignature =>
      exact valueDecl hnone rfl _ _ List.forall_mem_singleton.mp fun _ => hnone
  | variableDecl =>
      exact valueDecl hnone rfl _ _ (fun h => (List.forall_mem_cons.mp h).1)
        fun h => List.forall_mem_singleton.mp (List.forall_mem_cons.mp h).2
  | singleVariable =>
      exact (valueDecl hnone rfl _ _ (fun h => (List.forall_mem_cons.mp h).1)
        fun h => List.forall_mem_singleton.mp (List.forall_mem_cons.mp h).2).bind fun _ =>
          .node _ ⟨rfl, by simp, by simp⟩ fun h => List.forall_mem_singleton.mpr h.2
  | parameter text =>
      refine (ident text).bind fun name => .node _ ⟨rfl, by simp, by simp⟩ fun h => ?_
      simp only [Record.children, List.forall_mem_append, forall_present_iff hnone]
      exact ⟨⟨h.2, List.forall_mem_singleton.mp h.1⟩, hnone⟩
  | importEquals text _ dotted =>
      refine (ident text).bind fun _ => (entityName hnone dotted).bind fun _ =>
        .node _ ⟨rfl, by simp, by simp⟩ fun h => ?_
      simp only [Record.children, List.forall_mem_append, forall_present_iff hnone]
      exact ⟨h.1.2, h.2⟩
  | importRequire text =>
      refine (ident text).bind fun _ => (Uses.node _ ⟨rfl, by simp, by simp⟩ hnothing).bind fun _ =>
        .node _ ⟨rfl, by simp, by simp⟩ fun h => ?_
      simp only [Record.children, List.forall_mem_append, forall_present_iff hnone]
      exact ⟨h.1.2, h.2⟩
  | markUnplaced r =>
      have hpure : Uses P (∀ r ∈ ([] : List NodeRef), P r) (pure none) := .pure fun _ => hnone
      exact ⟨fun hb => ⟨rfl, hb, .refl _⟩, fun h {b} hb hnew => hpure.leads h hb hnew⟩

/-- By induction on the calls. -/
theorem calls (calls : List Call) : Uses P (∀ call ∈ calls, ∀ r ∈ call.parts, P r)
    (fun b => pure (none, b.after calls)) := by
  induction calls with
  | nil => exact .pure fun _ => hnone
  | cons first calls ih =>
      exact ((call hnone first).weaken fun h => (List.forall_mem_cons.mp h).1).bind fun _ =>
        ih.weaken fun h => (List.forall_mem_cons.mp h.1).2

end Calls

end Uses

end Build

end NameBinding
