import NameBinding.Proofs.Tree.Growth

/-! # Modules with dotted names

A module with a dotted name can also be written as modules one inside the other. Both take as many
nodes, and the outermost module comes last, so what is built afterwards is built alike. -/

namespace NameBinding

/-- The modifiers of a module that stands in another one because their names were dotted together. -/
def innerModifiers (modifiers : Flags Modifier) : Flags Modifier :=
  Flags.single .exported ∪ modifiers ∩ Flags.single .ambient

namespace Build

/-- Modules one inside the other, each named by a segment, around a body. -/
def nestedModules (body : List NodeRef) : Flags Modifier → String → List String → Build NodeRef
  | modifiers, segment, [] => moduleDecl segment modifiers body
  | modifiers, segment, next :: segments => do
    let inner ← nestedModules body (innerModifiers modifiers) next segments
    moduleDecl segment modifiers [inner]

end Build

/-! ### Names and modules in a tree -/

namespace DocTree

variable {t t' : DocTree} {r : NodeRef} {segments : List String} {modifiers : Flags Modifier}

theorem segmentsWithin_of_identifier {text : String} (h : t.record? r = some (.identifier text))
    (depth : Nat) : t.segmentsWithin (depth + 1) r = some [text] := by
  rw [segmentsWithin, h]

theorem segmentsWithin_of_qualifiedName {q : QualifiedName} {depth : Nat} {left right : List String}
    (h : t.record? r = some (.qualifiedName q)) (hleft : t.segmentsWithin depth q.left = some left)
    (hright : t.segmentsWithin depth q.right = some right) :
    t.segmentsWithin (depth + 1) r = some (left ++ right) := by
  rw [segmentsWithin, h]
  dsimp only
  rw [hleft, hright]
  rfl

/-- The node is a name with the given segments, not a text. -/
structure Spells (t : DocTree) (r : NodeRef) (segments : List String) : Prop where
  kind : ∃ kind, t.heading? r = some (kind, ∅) ∧ kind ≠ .stringLiteral
  segments : t.segmentsWithin (t.size + 1) r = some segments

/-- The node is a module with a name of the given segments. -/
structure ModuleAt (t : DocTree) (r : NodeRef) (modifiers : Flags Modifier) (segments : List String)
    (body : List NodeRef) : Prop where
  heading : t.heading? r = some (.moduleDeclaration, modifiers)
  record : ∃ name, t.record? r = some (.moduleDecl ⟨name, body⟩) ∧ t.Spells name segments

/-- The nodes are those of a body, or a module for the first segment and inside it, in the same way,
modules for the others. -/
inductive Nests (t : DocTree) (body : List NodeRef) :
    Flags Modifier → List String → List NodeRef → Prop
  | body (modifiers : Flags Modifier) : Nests t body modifiers [] body
  | module {modifiers : Flags Modifier} {r : NodeRef} {segment : String} {inside : List NodeRef}
      {segments : List String} (h : t.ModuleAt r modifiers [segment] inside)
      (hinside : Nests t body (innerModifiers modifiers) segments inside) :
      Nests t body modifiers (segment :: segments) [r]

namespace Starts

/-- A name stays, also with room for more levels. By induction on the levels. -/
theorem segmentsWithin_eq (h : t.Starts t') {depth deeper : Nat} (hle : depth ≤ deeper)
    (hr : t.segmentsWithin depth r = some segments) : t'.segmentsWithin deeper r = some segments := by
  induction depth generalizing deeper r segments with
  | zero => exact absurd hr (by simp [segmentsWithin])
  | succ depth ih =>
      cases deeper with
      | zero => exact absurd hle (Nat.not_succ_le_zero _)
      | succ deeper =>
          have hle := Nat.le_of_succ_le_succ hle
          unfold segmentsWithin at hr ⊢
          split at hr
          · next text hrecord =>
            rw [h.record_eq hrecord]
            exact hr
          · next q hrecord =>
            rw [h.record_eq hrecord]
            obtain ⟨left, hleft, hr⟩ := Option.bind_eq_some_iff.mp hr
            obtain ⟨right, hright, hr⟩ := Option.bind_eq_some_iff.mp hr
            dsimp only
            rw [ih hle hleft, ih hle hright]
            exact hr
          · exact absurd hr (by simp)

theorem spells (h : t.Starts t') (hr : t.Spells r segments) : t'.Spells r segments := by
  obtain ⟨⟨kind, hkind, hne⟩, hsegments⟩ := hr
  exact ⟨⟨kind, h.heading_eq hkind, hne⟩,
    h.segmentsWithin_eq (Nat.succ_le_succ h.size_le) hsegments⟩

theorem moduleAt (h : t.Starts t') {body : List NodeRef}
    (hr : t.ModuleAt r modifiers segments body) : t'.ModuleAt r modifiers segments body := by
  obtain ⟨hheading, name, hrecord, hname⟩ := hr
  exact ⟨h.heading_eq hheading, name, h.record_eq hrecord, h.spells hname⟩

theorem nests (h : t.Starts t') {body nodes : List NodeRef}
    (hnodes : t.Nests body modifiers segments nodes) : t'.Nests body modifiers segments nodes := by
  induction hnodes with
  | body modifiers => exact .body modifiers
  | module hmodule _ ih => exact .module (h.moduleAt hmodule) ih

end Starts

end DocTree

namespace TreeBuilder

variable {b b' : TreeBuilder}

theorem starts_finish (b : TreeBuilder) (root : NodeRef) : b.tree.Starts (b.finish root) where
  size_le := Nat.le_of_eq (size_finish b root).symm
  heading _ _ := heading?_finish ..
  record _ _ := record?_finish ..

/-! ### What a module adds -/

/-- The step adds some nodes and answers with the last one. -/
structure Ends (b : TreeBuilder) (inner : Nat) (out : NodeRef × TreeBuilder) : Prop where
  answer : out.1 = some (b.tree.size + inner)
  size : out.2.tree.size = b.tree.size + inner + 1
  precedes : b.Precedes out.2

theorem ends_add (hb : b.tree.Stored) (kind : NodeKind) (modifiers : Flags Modifier)
    {record : Record} (hsuits : record.Suits kind) :
    b.Ends 0 (StateT.run (m := Id) (Build.add kind modifiers record) b) where
  answer := rfl
  size := size_add ..
  precedes := precedes_of_agrees (b.closed_comesAfter.node kind modifiers record hsuits) hb

/-- What is added first does not count for the step after it. -/
theorem Ends.after {inner more : Nat} {out : NodeRef × TreeBuilder} (h : b.Precedes b')
    (hsize : b'.tree.size = b.tree.size + inner) (h' : b'.Ends more out) :
    b.Ends (inner + more) out where
  answer := by rw [h'.answer, hsize, Nat.add_assoc]
  size := by rw [h'.size, hsize, Nat.add_assoc b.tree.size]
  precedes := h.trans h'.precedes

theorem heading?_answer_add (b : TreeBuilder) (kind : NodeKind) (modifiers : Flags Modifier)
    (record : Record) : (StateT.run (m := Id) (Build.add kind modifiers record) b).2.tree.heading?
      (some b.tree.size) = some (kind, modifiers) := by
  rw [heading?_add, if_pos rfl]

theorem record?_answer_add (hb : b.tree.Stored) {kind : NodeKind} (modifiers : Flags Modifier)
    {record : Record} (hsuits : record.Suits kind) :
    (StateT.run (m := Id) (Build.add kind modifiers record) b).2.tree.record?
      (some b.tree.size) = some record := by
  rw [record?_node hb modifiers hsuits.sort, if_pos rfl]

theorem suits_identifier (text : String) : (Record.identifier text).Suits .identifier :=
  ⟨rfl, by simp, by simp⟩

theorem suits_qualifiedName (q : QualifiedName) : (Record.qualifiedName q).Suits .qualifiedName :=
  ⟨rfl, by simp, by simp⟩

theorem spells_ident (hb : b.tree.Stored) (text : String) :
    (StateT.run (m := Id) (Build.ident text) b).2.tree.Spells (some b.tree.size) [text] where
  kind := ⟨.identifier, heading?_answer_add .., by simp⟩
  segments := DocTree.segmentsWithin_of_identifier
    (record?_answer_add hb ∅ (suits_identifier text)) _

/-- By induction on the segments, each of which comes with two nodes. -/
theorem spells_qualify (hb : b.tree.Stored) {left : NodeRef} {names : List String}
    (hleft : b.tree.Spells left names) (segments : List String) :
    let out := StateT.run (m := Id) (Build.qualify left segments) b
    b.Precedes out.2 ∧ out.2.tree.size = b.tree.size + 2 * segments.length ∧
      out.2.tree.Spells out.1 (names ++ segments) := by
  induction segments generalizing b left names with
  | nil => exact ⟨.refl hb, rfl, by rwa [List.append_nil]⟩
  | cons segment segments ih =>
      let b₁ := (StateT.run (m := Id) (Build.ident segment) b).2
      let q : QualifiedName := ⟨left, some b.tree.size⟩
      let b₂ := (StateT.run (m := Id) (Build.add .qualifiedName ∅ (.qualifiedName q)) b₁).2
      have h₁ : b.Ends 0 (StateT.run (m := Id) (Build.ident segment) b) :=
        ends_add hb _ _ (suits_identifier segment)
      have hb₁ := h₁.precedes.stored
      have h₂ : b₁.Ends 0 (some b₁.tree.size, b₂) := ends_add hb₁ _ _ (suits_qualifiedName q)
      have hsize : b₂.tree.size = b.tree.size + 2 := by
        rw [h₂.size, h₁.size]
      have hname : b₂.tree.Spells (some b₁.tree.size) (names ++ [segment]) := by
        refine ⟨⟨.qualifiedName, heading?_answer_add .., by simp⟩, ?_⟩
        have hl := (h₁.precedes.trans h₂.precedes).starts.segmentsWithin_eq
          (show b.tree.size + 1 ≤ b₂.tree.size by omega) hleft.segments
        have hr := h₂.precedes.starts.segmentsWithin_eq
          (show b₁.tree.size + 1 ≤ b₂.tree.size from Nat.le_of_eq h₂.size.symm)
          (spells_ident hb segment).segments
        exact DocTree.segmentsWithin_of_qualifiedName
          (record?_answer_add hb₁ ∅ (suits_qualifiedName q)) hl hr
      obtain ⟨hprecedes, hmore, hspells⟩ := ih h₂.precedes.stored hname
      refine ⟨(h₁.precedes.trans h₂.precedes).trans hprecedes, ?_, ?_⟩
      · have hcount : b₂.tree.size + 2 * segments.length =
            b.tree.size + 2 * (segment :: segments).length := by
          rw [hsize, List.length_cons]
          omega
        exact hmore.trans hcount
      · rw [List.append_cons]
        exact hspells

variable {segment : String} {segments : List String}

theorem spells_entityName (hb : b.tree.Stored) {dotted : String}
    (hdotted : Dotted.split dotted = segment :: segments) :
    let out := StateT.run (m := Id) (Build.entityName dotted) b
    b.Precedes out.2 ∧ out.2.tree.size = b.tree.size + 2 * segments.length + 1 ∧
      out.2.tree.Spells out.1 (segment :: segments) := by
  have h₁ : b.Ends 0 (StateT.run (m := Id) (Build.ident segment) b) :=
    ends_add hb _ _ (suits_identifier segment)
  obtain ⟨hprecedes, hsize, hspells⟩ :=
    spells_qualify h₁.precedes.stored (spells_ident hb segment) segments
  have hrun : StateT.run (m := Id) (Build.entityName dotted) b =
      StateT.run (m := Id) (Build.qualify (some b.tree.size) segments)
        (StateT.run (m := Id) (Build.ident segment) b).2 := by
    unfold Build.entityName
    rw [hdotted]
    rfl
  rw [hrun]
  refine ⟨h₁.precedes.trans hprecedes, ?_, hspells⟩
  rw [hsize, h₁.size]
  omega

theorem moduleAt_add (hb : b.tree.Stored) {name : NodeRef} {names : List String}
    (hname : b.tree.Spells name names) (modifiers : Flags Modifier) (body : List NodeRef) :
    let out := StateT.run (m := Id)
      (Build.add .moduleDeclaration modifiers (.moduleDecl ⟨name, body⟩)) b
    b.Ends 0 out ∧ out.2.tree.ModuleAt out.1 modifiers names body := by
  have hsuits : (Record.moduleDecl ⟨name, body⟩).Suits .moduleDeclaration := ⟨rfl, by simp, by simp⟩
  have hends := ends_add hb .moduleDeclaration modifiers hsuits
  exact ⟨hends, heading?_answer_add .., name, record?_answer_add hb modifiers hsuits,
    hends.precedes.starts.spells hname⟩

theorem moduleAt_moduleDecl (hb : b.tree.Stored) {dotted : String}
    (hdotted : Dotted.split dotted = segment :: segments) (modifiers : Flags Modifier)
    (body : List NodeRef) :
    let out := StateT.run (m := Id) (Build.moduleDecl dotted modifiers body) b
    b.Ends (2 * segments.length + 1) out ∧
      out.2.tree.ModuleAt out.1 modifiers (segment :: segments) body := by
  obtain ⟨hprecedes, hsize, hspells⟩ := spells_entityName hb hdotted
  let name := StateT.run (m := Id) (Build.entityName dotted) b
  have hrun : StateT.run (m := Id) (Build.moduleDecl dotted modifiers body) b =
      StateT.run (m := Id) (Build.add .moduleDeclaration modifiers (.moduleDecl ⟨name.1, body⟩))
        name.2 := rfl
  obtain ⟨hends, hmodule⟩ := moduleAt_add hprecedes.stored hspells modifiers body
  have hall := Ends.after hprecedes (hsize.trans (Nat.add_assoc ..)) hends
  rw [hrun]
  exact ⟨hall, hmodule⟩

/-- By induction on the segments. The innermost module is built first. -/
theorem nests_nestedModules (hb : b.tree.Stored) (body : List NodeRef) (modifiers : Flags Modifier)
    (hdots : ∀ s ∈ segment :: segments, Dotted.split s = [s]) :
    let out := StateT.run (m := Id) (Build.nestedModules body modifiers segment segments) b
    b.Ends (2 * segments.length + 1) out ∧
      out.2.tree.Nests body modifiers (segment :: segments) [out.1] := by
  induction segments generalizing modifiers segment with
  | nil =>
      obtain ⟨hends, hmodule⟩ := moduleAt_moduleDecl hb (hdots segment (by simp)) modifiers body
      exact ⟨hends, .module hmodule (.body _)⟩
  | cons next segments ih =>
      obtain ⟨hsegment, hrest⟩ := List.forall_mem_cons.mp hdots
      obtain ⟨hends, hnests⟩ := ih (innerModifiers modifiers) hrest
      let inner := StateT.run (m := Id)
        (Build.nestedModules body (innerModifiers modifiers) next segments) b
      obtain ⟨hmore, hmodule⟩ :=
        moduleAt_moduleDecl hends.precedes.stored hsegment modifiers [inner.1]
      exact ⟨.after hends.precedes hends.size hmore,
        .module hmodule (hmore.precedes.starts.nests hnests)⟩

end TreeBuilder

/-! ### A module in a document -/

/-- A module with a dotted name in a document, with the calls that build the rest. Later calls can be
given the module by its number. -/
structure ModuleSite where
  file : String
  before : List Call
  segment : String
  /-- The segments after the first one. -/
  segments : List String
  modifiers : Flags Modifier
  body : List NodeRef
  after : List Call
  root : NodeRef

namespace ModuleSite

variable (s : ModuleSite)

/-- What is built before the module. -/
def start : TreeBuilder := .ofCalls s.file s.before

/-- What there is with the module that a step builds. -/
def built (module : Build NodeRef) : NodeRef × TreeBuilder := StateT.run (m := Id) module s.start

def document (module : Build NodeRef) : DocTree :=
  ((s.built module).2.after s.after).finish s.root

/-- One module that has all segments in its name. -/
def dottedModule : Build NodeRef :=
  Build.moduleDecl (Dotted.join (s.segment :: s.segments)) s.modifiers s.body

/-- One module for each segment. -/
def nestedModule : Build NodeRef := Build.nestedModules s.body s.modifiers s.segment s.segments

def dotted : DocTree := s.document s.dottedModule

def nested : DocTree := s.document s.nestedModule

/-- The module, or the outermost one. -/
def top : NodeIndex := s.start.tree.size + (2 * s.segments.length + 1)

/-- The node is none of those that are only there for the name of the module. -/
def Outside (r : NodeRef) : Prop := ∀ i ∈ r, i < s.start.tree.size ∨ s.top ≤ i

instance (r : NodeRef) : Decidable (s.Outside r) :=
  inferInstanceAs (Decidable (∀ i ∈ r, i < s.start.tree.size ∨ s.top ≤ i))

/-- No segment has a full stop, and what is only there for the name is not used for anything else. -/
structure Sealed : Prop where
  dotFree : ∀ segment ∈ s.segment :: s.segments, '.' ∉ segment.toList
  body : ∀ r ∈ s.body, s.Outside r
  parts : ∀ call ∈ s.before ++ s.after, ∀ r ∈ call.parts, s.Outside r
  root : s.Outside s.root

theorem sealed_iff : s.Sealed ↔ (∀ segment ∈ s.segment :: s.segments, '.' ∉ segment.toList) ∧
    (∀ r ∈ s.body, s.Outside r) ∧
    (∀ call ∈ s.before ++ s.after, ∀ r ∈ call.parts, s.Outside r) ∧ s.Outside s.root :=
  ⟨fun ⟨h, h', h'', h'''⟩ => ⟨h, h', h'', h'''⟩, fun ⟨h, h', h'', h'''⟩ => ⟨h, h', h'', h'''⟩⟩

instance : Decidable s.Sealed := decidable_of_iff _ s.sealed_iff.symm

theorem stored_start : s.start.tree.Stored := (TreeBuilder.staysPlain_ofCalls ..).2.1

theorem outside_none : s.Outside none := fun _ hi => nomatch hi

theorem heading?_document (module : Build NodeRef) (r : NodeRef) :
    (s.document module).heading? r = ((s.built module).2.after s.after).tree.heading? r :=
  TreeBuilder.heading?_finish ..

theorem record?_document (module : Build NodeRef) (r : NodeRef) :
    (s.document module).record? r = ((s.built module).2.after s.after).tree.record? r :=
  TreeBuilder.record?_finish ..

theorem starts_document (module : Build NodeRef) :
    ((s.built module).2.after s.after).tree.Starts (s.document module) :=
  TreeBuilder.starts_finish ..

variable {s} {r : NodeRef} (h : s.Sealed)

namespace Sealed

include h

theorem built_dotted : s.start.Ends (2 * s.segments.length + 1) (s.built s.dottedModule) ∧
    (s.built s.dottedModule).2.tree.ModuleAt (s.built s.dottedModule).1 s.modifiers
      (s.segment :: s.segments) s.body :=
  TreeBuilder.moduleAt_moduleDecl s.stored_start (Dotted.split_join (by simp) h.dotFree) _ _

theorem built_nested : s.start.Ends (2 * s.segments.length + 1) (s.built s.nestedModule) ∧
    (s.built s.nestedModule).2.tree.Nests s.body s.modifiers (s.segment :: s.segments)
      [(s.built s.nestedModule).1] :=
  TreeBuilder.nests_nestedModules s.stored_start _ _ fun segment hs =>
    Dotted.split_of_not_mem (h.dotFree segment hs)

/-- From the two forms of the module on all is built alike. -/
theorem twins : TreeBuilder.Twins (s.built s.dottedModule).2 (s.built s.nestedModule).2
    ((s.built s.dottedModule).2.after s.after) ((s.built s.nestedModule).2.after s.after) := by
  have hdotted := h.built_dotted.1
  have hnested := h.built_nested.1
  have hnone : ∀ {t : DocTree} {i : NodeIndex}, t.size ≤ i → t.nodes[i]? = none :=
    fun hi => Array.getElem?_eq_none hi
  have hsize := hdotted.size.trans hnested.size.symm
  refine (TreeBuilder.closed_twins ..).after s.after
    ⟨hdotted.precedes.path.trans hnested.precedes.path.symm, .refl hdotted.precedes.stored,
      .refl hnested.precedes.stored, hsize, fun i hi => ?_, fun i hi => ?_⟩
  · simp [DocTree.heading?, DocTree.node?, hnone hi, hnone (hsize ▸ hi)]
  · simp [DocTree.record?, DocTree.node?, hnone hi, hnone (hsize ▸ hi)]

theorem size_eq : s.dotted.size = s.nested.size :=
  (TreeBuilder.size_finish ..).trans (h.twins.size.trans (TreeBuilder.size_finish ..).symm)

theorem moduleAt_dotted :
    s.dotted.ModuleAt (some s.top) s.modifiers (s.segment :: s.segments) s.body := by
  obtain ⟨hends, hmodule⟩ := h.built_dotted
  rw [hends.answer] at hmodule
  exact (h.twins.left.starts.trans (s.starts_document _)).moduleAt hmodule

theorem nests_nested :
    s.nested.Nests s.body s.modifiers (s.segment :: s.segments) [some s.top] := by
  obtain ⟨hends, hnests⟩ := h.built_nested
  rw [hends.answer] at hnests
  exact (h.twins.right.starts.trans (s.starts_document _)).nests hnests

/-- The nodes before the module, and those after it, are the same in both documents. -/
theorem same_of_ne {i : NodeIndex} (hi : s.Outside (some i)) (hne : i ≠ s.top) :
    s.dotted.heading? (some i) = s.nested.heading? (some i) ∧
      s.dotted.record? (some i) = s.nested.record? (some i) := by
  rw [dotted, nested, heading?_document, heading?_document, record?_document, record?_document]
  have hdotted := h.built_dotted.1
  rcases hi i rfl with hlt | hle
  · have hleft := (hdotted.precedes.trans h.twins.left).starts
    have hright := (h.built_nested.1.precedes.trans h.twins.right).starts
    exact ⟨(hleft.heading i hlt).trans (hright.heading i hlt).symm,
      (hleft.record i hlt).trans (hright.record i hlt).symm⟩
  · have hlater : (s.built s.dottedModule).2.tree.size ≤ i := by
      rw [hdotted.size]
      exact Nat.lt_of_le_of_ne hle hne.symm
    exact ⟨h.twins.heading i hlater, h.twins.record i hlater⟩

/-- Apart from the module no node leads to what is there for the name. -/
theorem children_of_ne {i : NodeIndex} (hi : s.Outside (some i)) (hne : i ≠ s.top) :
    ∀ r ∈ s.dotted.children (some i), s.Outside r := by
  obtain ⟨hbefore, hafter⟩ := List.forall_mem_append.mp h.parts
  have hdotted := h.built_dotted.1
  have hsame : s.dotted.children (some i) =
      ((s.built s.dottedModule).2.after s.after).tree.children (some i) := by
    rw [DocTree.children, DocTree.children, dotted, record?_document]
  rw [hsame]
  rcases hi i rfl with hlt | hle
  · have hrecord := (hdotted.precedes.trans h.twins.left).starts.record i hlt
    rw [DocTree.children, hrecord]
    exact ((Build.Uses.calls s.outside_none s.before).leads hbefore
      (TreeBuilder.staysPlain_ofCalls s.file []).2.1 fun j _ hj i hi => by
        obtain rfl := Option.some.inj hi
        exact .inl hj).2 i (Nat.zero_le i)
  · have htop : (s.built s.dottedModule).2.tree.size = s.top + 1 := hdotted.size
    refine ((Build.Uses.calls s.outside_none s.after).leads hafter hdotted.precedes.stored
      fun j hj _ i hi => ?_).2 i ?_
    · obtain rfl := Option.some.inj hi
      have hlater : s.top + 1 ≤ j := Nat.le_trans (Nat.le_of_eq htop.symm) hj
      exact .inr (Nat.le_of_succ_le hlater)
    · exact Nat.le_trans (Nat.le_of_eq htop) (Nat.lt_of_le_of_ne hle hne.symm)

end Sealed

end ModuleSite

end NameBinding
