import NameBinding.Proofs.Program.Bare
import NameBinding.Proofs.Program.Depth
import NameBinding.Proofs.Tree.Dotted

/-! # The declarations of modules with dotted names

Main statement: a module with a dotted name and the modules one inside the other declare the same, as
long as the latter do not lie too deep. -/

namespace NameBinding

/-! ### Trees that read alike -/

namespace DocTree

variable {t t' : DocTree} {r : NodeRef} {path : String}

def IsModule (t : DocTree) (r : NodeRef) : Prop := ∃ m, t.record? r = some (.moduleDecl m)

/-- The trees have the same nodes in a set, which nothing below them leaves. Where both have modules,
these can differ. -/
structure Agree (t t' : DocTree) (inSet : NodeRef → Prop) : Prop where
  size : t.size = t'.size
  missing : inSet none
  heading : ∀ {r}, inSet r → t.heading? r = t'.heading? r
  record : ∀ {r}, inSet r → (t.record? r = t'.record? r ∧ ∀ c ∈ t.children r, inSet c) ∨
    (t.IsModule r ∧ t'.IsModule r)

namespace Agree

variable {inSet : NodeRef → Prop} (h : t.Agree t' inSet)

include h

/-- What is read of a record does not change, if it is the same of all modules. -/
@[elab_as_elim]
theorem read {P : Option Record → Option Record → Prop} (hsame : ∀ record, P record record)
    (hmodule : ∀ m m', P (some (.moduleDecl m)) (some (.moduleDecl m'))) (hr : inSet r) :
    P (t.record? r) (t'.record? r) := by
  rcases h.record hr with ⟨hrecord, -⟩ | ⟨⟨m, hm⟩, m', hm'⟩
  · rw [hrecord]
    exact hsame _
  · rw [hm, hm']
    exact hmodule m m'

theorem nameText_eq (hr : inSet r) : t.nameText r = t'.nameText r := by
  unfold nameText text?
  exact h.read (fun _ => rfl) (fun _ _ => rfl) hr

theorem parameter?_eq (hr : inSet r) : t.parameter? r = t'.parameter? r := by
  unfold parameter?
  exact h.read (fun _ => rfl) (fun _ _ => rfl) hr

theorem property?_eq (hr : inSet r) : t.property? r = t'.property? r := by
  unfold property?
  exact h.read (fun _ => rfl) (fun _ _ => rfl) hr

theorem kind?_eq (hr : inSet r) : t.kind? r = t'.kind? r := by
  have hkind : ∀ t : DocTree, t.kind? r = (t.heading? r).map (·.1) := fun t => by
    simp [kind?, heading?, Function.comp_def]
  rw [hkind, hkind, h.heading hr]

/-- The nodes are there in both trees, or in none. -/
theorem node?_eq (hr : inSet r) : (t.node? r = none ∧ t'.node? r = none) ∨
    ∃ node node', t.node? r = some node ∧ t'.node? r = some node' ∧ node.kind = node'.kind ∧
      node.modifiers = node'.modifiers := by
  have hheading := h.heading hr
  unfold heading? at hheading
  cases hnode : t.node? r <;> cases hnode' : t'.node? r <;> rw [hnode, hnode'] at hheading
  · exact .inl ⟨rfl, rfl⟩
  · exact absurd hheading (by simp)
  · exact absurd hheading (by simp)
  · obtain ⟨hkind, hmodifiers⟩ := Prod.mk.inj (Option.some.inj hheading)
    exact .inr ⟨_, _, rfl, rfl, hkind, hmodifiers⟩

theorem mem_of_present {record : Record} (hrecord : t.record? r = some record)
    (hchildren : ∀ c ∈ t.children r, inSet c) {c : NodeRef}
    (hc : NodeRef.present c ⊆ record.children) : inSet c := by
  rcases eq_none_or_mem_of_present hc with rfl | hc
  · exact h.missing
  · exact hchildren c (children_eq hrecord ▸ hc)

/-- By induction on the levels of the name. -/
theorem segmentsWithin_eq (depth : Nat) (hr : inSet r) :
    t.segmentsWithin depth r = t'.segmentsWithin depth r := by
  induction depth generalizing r with
  | zero => rfl
  | succ depth ih =>
      unfold segmentsWithin
      rcases h.record hr with ⟨hrecord, hchildren⟩ | ⟨⟨m, hm⟩, m', hm'⟩
      · rw [← hrecord]
        split
        · rfl
        · next q hq =>
          have hpart := fun {c} => h.mem_of_present (c := c) hq hchildren
          rw [ih (hpart (by simp [Record.children])), ih (hpart (by simp [Record.children]))]
        · rfl
      · rw [hm, hm']

theorem entityName_eq (hr : inSet r) : t.entityName r = t'.entityName r := by
  rw [entityName, entityName, h.size, h.segmentsWithin_eq _ hr]

end Agree

/-! ### What a node declares -/

/-- The parts are the same, and stand at nodes in a set. -/
def SameParts (inSet : NodeRef → Prop) (parts parts' : List Part) : Prop :=
  parts = parts' ∧ ∀ part ∈ parts, inSet part.node

namespace SameParts

variable {inSet : NodeRef → Prop} {parts parts' more more' : List Part}

theorem nil : SameParts inSet [] [] := ⟨rfl, fun _ hp => absurd hp List.not_mem_nil⟩

theorem single {part : Part} (h : inSet part.node) : SameParts inSet [part] [part] :=
  ⟨rfl, fun _ hp => List.mem_singleton.mp hp ▸ h⟩

theorem plain {rs : List NodeRef} (h : ∀ r ∈ rs, inSet r) :
    SameParts inSet (rs.map .plain) (rs.map .plain) := by
  refine ⟨rfl, fun part hpart => ?_⟩
  obtain ⟨r, hr, rfl⟩ := List.mem_map.mp hpart
  exact h r hr

theorem append (h : SameParts inSet parts parts') (hmore : SameParts inSet more more') :
    SameParts inSet (parts ++ more) (parts' ++ more') :=
  ⟨by rw [h.1, hmore.1], List.forall_mem_append.mpr ⟨h.2, hmore.2⟩⟩

theorem flatMap {parts parts' : NodeRef → List Part} {rs : List NodeRef} (hrs : ∀ r ∈ rs, inSet r)
    (h : ∀ r, inSet r → SameParts inSet (parts r) (parts' r)) :
    SameParts inSet (rs.flatMap parts) (rs.flatMap parts') := by
  refine ⟨List.flatMap_congr fun r hr => (h r (hrs r hr)).1, fun part hpart => ?_⟩
  obtain ⟨r, hr, hpart⟩ := List.mem_flatMap.mp hpart
  exact (h r (hrs r hr)).2 part hpart

end SameParts

namespace Agree

variable {inSet : NodeRef → Prop} (h : t.Agree t' inSet)

include h

theorem parameterParts (hr : inSet r) :
    SameParts inSet (t.parameterParts r) (t'.parameterParts r) := by
  unfold DocTree.parameterParts
  rw [← h.parameter?_eq hr]
  rcases h.node?_eq hr with ⟨hnode, hnode'⟩ | ⟨node, node', hnode, hnode', -, hmodifiers⟩
  · rw [hnode, hnode']
    exact .nil
  · rw [hnode, hnode']
    cases hp : t.parameter? r with
    | none => exact .nil
    | some p =>
        have hrecord := Collect.record_of_parameter? hp
        rcases h.record hr with ⟨-, hchildren⟩ | ⟨⟨m, hm⟩, -⟩
        · have hpart := fun {c} => h.mem_of_present (c := c) hrecord hchildren
          dsimp only
          rw [← hmodifiers, h.nameText_eq (hpart (by simp [Record.children]))]
          exact .single (hpart (by simp [Record.children]))
        · exact absurd (hrecord.symm.trans hm) (by simp)

/-- A value with its initializer. -/
theorem propertyParts (hr : inSet r) {p : ValueParts} (hp : t.property? r = some p)
    (kind : DeclKind) (flags : Flags DeclFlag) :
    SameParts inSet [⟨some ⟨r, t.nameText p.name, kind, flags⟩, p.initializer⟩]
      [⟨some ⟨r, t'.nameText p.name, kind, flags⟩, p.initializer⟩] := by
  have hrecord := Collect.record_of_property? hp
  rcases h.record hr with ⟨-, hchildren⟩ | ⟨⟨m, hm⟩, -⟩
  · have hpart := fun {c} => h.mem_of_present (c := c) hrecord hchildren
    rw [h.nameText_eq (hpart (by simp [Record.children]))]
    exact .single (hpart (by simp [Record.children]))
  · exact absurd (hrecord.symm.trans hm) (by simp)

theorem variableParts (flags : Flags DeclFlag) (hr : inSet r) :
    SameParts inSet (t.variableParts flags r) (t'.variableParts flags r) := by
  unfold DocTree.variableParts
  rw [← h.property?_eq hr]
  cases hp : t.property? r with
  | none => exact .nil
  | some p => exact h.propertyParts hr hp _ _

variable {node node' : Node} (hkind : node.kind = node'.kind)
  (hmodifiers : node.modifiers = node'.modifiers) (hr : inSet r)
  (hrecord : t.record? r = t'.record? r) (hchildren : ∀ c ∈ t.children r, inSet c)

include hkind hmodifiers hrecord hchildren

/-- One case for each group of kinds. -/
theorem opens_eq : t.opens path r node = t'.opens path r node' := by
  have hname : ∀ {record : Record} {c}, t.record? r = some record →
      NodeRef.present c ⊆ record.children → t.nameText c = t'.nameText c := fun hr hc =>
    h.nameText_eq (h.mem_of_present hr hchildren hc)
  have hfunction : ∀ {entry entry' : FunctionParts → Entry},
      (∀ f, t.function? r = some f → entry f = entry' f) →
      opens.ofFunction t r entry = opens.ofFunction t' r entry' := by
    intro entry entry' hentry
    have hsame : t'.function? r = t.function? r := by simp only [function?, hrecord]
    unfold opens.ofFunction
    rw [hsame]
    cases hf : t.function? r with
    | none => rfl
    | some f => exact congrArg (Option.toList ∘ some) (hentry f hf)
  have hfunctionName : ∀ {f : FunctionParts}, t.function? r = some f →
      t.nameText f.name = t'.nameText f.name := fun hf =>
    hname (Collect.record_of_function? hf) (by simp [Record.children])
  unfold opens
  rw [← hkind, ← hmodifiers, ← hrecord]
  cases node.kind with
  | sourceFile => rfl
  | moduleDeclaration =>
      cases hm : t.record? r with
      | none => rfl
      | some record =>
          cases record with
          | moduleDecl m =>
              have hset : inSet m.name := h.mem_of_present hm hchildren (by simp [Record.children])
              dsimp only
              rw [h.kind?_eq hset, h.nameText_eq hset, h.entityName_eq hset]
          | _ => rfl
  | classDeclaration =>
      cases hc : t.record? r with
      | none => rfl
      | some record =>
          cases record with
          | classDecl c =>
              dsimp only
              rw [hname hc (by simp [Record.children])]
          | _ => rfl
  | interfaceDeclaration =>
      cases hi : t.record? r with
      | none => rfl
      | some record =>
          cases record with
          | interfaceDecl i =>
              dsimp only
              rw [hname hi (by simp [Record.children])]
          | _ => rfl
  | functionDeclaration | functionExpression | arrowFunction | methodDeclaration | methodSignature
  | callSignature | constructSignature | indexSignature | getAccessor | setAccessor =>
      exact hfunction fun f hf => by rw [hfunctionName hf]
  | constructor => exact hfunction fun f _ => rfl
  | _ => rfl

include hr

/-- One case for each group of kinds. -/
theorem partsOf_eq : SameParts inSet (t.partsOf r node) (t'.partsOf r node') := by
  have hbody : ∀ {f : FunctionParts}, t.function? r = some f → inSet f.body := fun hf =>
    h.mem_of_present (Collect.record_of_function? hf) hchildren (List.subset_append_right _ _)
  have hall : t'.children r = t.children r := by rw [children, children, hrecord]
  have hfunction : t'.function? r = t.function? r := by simp only [function?, hrecord]
  unfold partsOf
  rw [← hkind, ← hmodifiers, ← hrecord, hall, hfunction, ← h.property?_eq hr]
  cases node.kind with
  | sourceFile | unknown | externalModuleReference | parameter | block | ifStatement
  | whileStatement | forStatement | expressionStatement | returnStatement | expression =>
      exact .plain hchildren
  | moduleDeclaration | classDeclaration | interfaceDeclaration =>
      dsimp only
      split
      · next hr =>
        refine .plain fun c hc => hchildren c ?_
        rw [children_eq hr]
        exact List.mem_append_right _ hc
      · exact .nil
  | functionDeclaration | functionExpression | arrowFunction | methodDeclaration | methodSignature
  | constructor | callSignature | constructSignature | indexSignature =>
      dsimp only
      split
      · next f hf =>
        refine .append (.flatMap (fun c hc => hchildren c ?_) fun c hc => h.parameterParts hc)
          (.single (hbody hf))
        rw [children_of_function hf]
        exact List.mem_append_left _ (List.mem_append_left _ (List.mem_append_right _ hc))
      · exact .nil
  | getAccessor | setAccessor =>
      dsimp only
      split
      · next f hf => exact .single (hbody hf)
      · exact .nil
  | propertyDeclaration | propertySignature =>
      dsimp only
      split
      · next p hp => exact h.propertyParts hr hp _ _
      · exact .nil
  | variableStatement =>
      dsimp only
      split
      · next declarations hd =>
        refine .flatMap (fun c hc => hchildren c ?_) fun c hc => h.variableParts _ hc
        rw [children_eq hd]
        exact hc
      · exact .nil
  | variableDeclaration => exact h.variableParts _ hr
  | importEqualsDeclaration =>
      dsimp only
      split
      · next i hi =>
        rw [h.nameText_eq (h.mem_of_present hi hchildren (by simp [Record.children]))]
        exact .single h.missing
      · exact .nil
  | _ => exact .nil

omit hkind hmodifiers in
/-- A node that is the same in both trees has the same outline, if all in the set has that one level
further down, and nothing is cut there. -/
theorem bare_outline_succ {levels : Nat} (hinside : ∀ {c}, inSet c → t'.cuts levels c = [] →
      (t.outline path levels c).bare = (t'.outline path levels c).bare ∧ t.cuts levels c = [])
    (hcuts : t'.cuts (levels + 1) r = []) :
    (t.outline path (levels + 1) r).bare = (t'.outline path (levels + 1) r).bare ∧
      t.cuts (levels + 1) r = [] := by
  rcases h.node?_eq hr with ⟨hnode, hnode'⟩ | ⟨node, node', hnode, hnode', hk, hm⟩
  · simp [outline, cuts, DocTree.parts, hnode, hnode']
  · have hopens : t.opens path r node = t'.opens path r node' :=
      h.opens_eq hk hm hrecord hchildren
    obtain ⟨hparts, hset⟩ := h.partsOf_eq hk hm hr hrecord hchildren
    rw [cuts, DocTree.parts, hnode', List.flatMap_eq_nil_iff] at hcuts
    dsimp only at hcuts
    rw [← hparts] at hcuts
    have hall := fun part hpart => hinside (hset part hpart) (hcuts part hpart)
    constructor
    · rw [outline, outline, hnode, hnode']
      dsimp only
      rw [← hopens, ← hparts, Outline.bare_within, Outline.bare_within,
        Part.bare_outline_congr fun part hpart => (hall part hpart).1]
    · rw [cuts, DocTree.parts, hnode, List.flatMap_eq_nil_iff]
      exact fun part hpart => (hall part hpart).2

end Agree

/-! ### Modules -/

namespace ModuleAt

variable {modifiers : Flags Modifier} {segments : List String} {body : List NodeRef}
  (h : t.ModuleAt r modifiers segments body)

include h

theorem exists_node? : ∃ node, t.node? r = some node ∧ node.kind = .moduleDeclaration ∧
    node.modifiers = modifiers := by
  obtain ⟨node, hnode, hheading⟩ := Option.map_eq_some_iff.mp h.heading
  obtain ⟨hkind, hmodifiers⟩ := Prod.mk.inj hheading
  exact ⟨node, hnode, hkind, hmodifiers⟩

theorem opens_eq (hne : segments ≠ []) {node : Node} (hkind : node.kind = .moduleDeclaration)
    (hmodifiers : node.modifiers = modifiers) :
    t.opens path r node = moduleEntries r (.ofModifiers modifiers) segments := by
  obtain ⟨name, hrecord, ⟨kind, hname, htext⟩, hsegments⟩ := h.record
  have hnotText : t.kind? name ≠ some .stringLiteral := by
    obtain ⟨node, hnode, hheading⟩ := Option.map_eq_some_iff.mp hname
    rw [kind?, hnode]
    exact fun hk => htext ((Prod.mk.inj hheading).1.symm.trans (Option.some.inj hk))
  have hentity : t.entityName name = segments := by
    rw [entityName, hsegments]
    rfl
  unfold opens
  rw [hkind, hmodifiers]
  dsimp only
  rw [hrecord]
  dsimp only
  rw [if_neg hnotText, hentity, if_neg (by simpa using hne)]

theorem partsOf_eq {node : Node} (hkind : node.kind = .moduleDeclaration) :
    t.partsOf r node = body.map .plain := by
  obtain ⟨name, hrecord, -⟩ := h.record
  unfold partsOf
  rw [hkind]
  dsimp only
  rw [hrecord]

theorem outline_succ (hne : segments ≠ []) (path : String) (levels : Nat) :
    t.outline path (levels + 1) r = .within (moduleEntries r (.ofModifiers modifiers) segments)
      (Part.outline (t.outline path levels) (body.map .plain)) := by
  obtain ⟨node, hnode, hkind, hmodifiers⟩ := h.exists_node?
  rw [outline, hnode]
  dsimp only
  rw [h.opens_eq hne hkind hmodifiers, h.partsOf_eq hkind]

theorem cuts_succ (levels : Nat) :
    t.cuts (levels + 1) r = (body.map Part.plain).flatMap fun part => t.cuts levels part.node := by
  obtain ⟨node, hnode, hkind, -⟩ := h.exists_node?
  rw [cuts, DocTree.parts, hnode]
  dsimp only
  rw [h.partsOf_eq hkind]

end ModuleAt

end DocTree

theorem bare_moduleEntries (r : NodeRef) (flags : Flags DeclFlag) (segments : List String) :
    (moduleEntries r flags segments).map Entry.bare = moduleEntries none flags segments := by
  induction segments generalizing flags with
  | nil => rfl
  | cons segment segments ih => exact congrArg _ (ih _)

theorem Flags.has_inter {F : Type} [Flag F] (s t : Flags F) (f : F) :
    (s ∩ t).has f = (s.has f && t.has f) :=
  Nat.testBit_and s.bits t.bits (Flag.bit f)

theorem has_innerModifiers (modifiers : Flags Modifier) (f : Modifier) :
    (innerModifiers modifiers).has f =
      (decide (f = .exported) || (decide (f = .ambient) && modifiers.has .ambient)) := by
  cases f <;> simp [innerModifiers, Flags.has_inter, Flags.has_single, Flag.bit]

/-- The flags of an inner module are those that a dotted name gives it. -/
theorem ofModifiers_innerModifiers (modifiers : Flags Modifier) :
    Flags.ofModifiers (innerModifiers modifiers) =
      Flags.single .exported ∪ Flags.ofModifiers modifiers ∩ Flags.single .ambient := by
  simp only [Flags.ofModifiers, Flags.carry, has_innerModifiers]
  generalize modifiers.has .exported = exported
  generalize modifiers.has .ambient = ambient
  generalize modifiers.has .static = static
  generalize modifiers.has .privateAccess = privateAccess
  generalize modifiers.has .publicAccess = publicAccess
  generalize modifiers.has .optional = optional
  generalize modifiers.has .rest = rest
  revert exported ambient static privateAccess publicAccess optional rest
  decide

namespace DocTree.Nests

variable {t : DocTree} {path : String} {modifiers : Flags Modifier} {segments : List String}
  {body nodes : List NodeRef}

theorem exists_moduleAt {segment : String} {r : NodeRef}
    (h : t.Nests body modifiers (segment :: segments) [r]) :
    ∃ inside, t.ModuleAt r modifiers [segment] inside := by
  cases h with
  | module hmodule => exact ⟨_, hmodule⟩

/-- By induction on the modules. The body is found so many levels further down, and where nothing is
cut it has the same outline here. -/
theorem bare_outline (h : t.Nests body modifiers segments nodes) (path : String) {levels : Nat}
    (hcuts : ∀ r ∈ nodes, t.cuts levels r = []) :
    (Part.outline (t.outline path levels) (nodes.map .plain)).bare =
      (Outline.within (moduleEntries none (.ofModifiers modifiers) segments)
        (Part.outline (t.outline path levels) (body.map .plain))).bare ∧
    ∀ r ∈ body, t.cuts levels r = [] := by
  induction h generalizing levels with
  | body modifiers => exact ⟨rfl, hcuts⟩
  | @module modifiers r segment inside segments hmodule _ ih =>
      obtain ⟨node, hnode, -⟩ := hmodule.exists_node?
      have hr := hcuts r (List.mem_singleton_self r)
      cases levels with
      | zero => exact absurd hr (by simp [cuts, hnode])
      | succ levels =>
          rw [hmodule.cuts_succ, List.flatMap_map, List.flatMap_eq_nil_iff] at hr
          obtain ⟨houtline, hbody⟩ := ih hr
          have hdeeper := fun x hx =>
            outline_eq_of_cuts_eq_nil path (Nat.le_succ levels) (hbody x hx)
          have hsame : Part.outline (t.outline path levels) (body.map .plain) =
              Part.outline (t.outline path (levels + 1)) (body.map .plain) :=
            Part.outline_congr fun part hpart => by
              obtain ⟨x, hx, rfl⟩ := List.mem_map.mp hpart
              exact (hdeeper x hx).1
          refine ⟨?_, fun x hx => (hdeeper x hx).2⟩
          have hsingle : Part.outline (t.outline path (levels + 1)) ([r].map .plain) =
              t.outline path (levels + 1) r := Outline.append_nil _
          rw [hsingle, hmodule.outline_succ (by simp), Outline.bare_within, houtline, hsame,
            ofModifiers_innerModifiers]
          rfl

/-- The outline of the outermost module, with the body that is found inside all of them. -/
theorem bare_outline_succ {segment : String} {r : NodeRef}
    (h : t.Nests body modifiers (segment :: segments) [r]) (path : String) {levels : Nat}
    (hcuts : t.cuts (levels + 1) r = []) :
    (t.outline path (levels + 1) r).bare =
      (Outline.within (moduleEntries none (.ofModifiers modifiers) (segment :: segments))
        (Part.outline (t.outline path levels) (body.map .plain))).bare ∧
    ∀ x ∈ body, t.cuts levels x = [] := by
  cases h with
  | module hmodule hinside =>
      rw [hmodule.cuts_succ, List.flatMap_map, List.flatMap_eq_nil_iff] at hcuts
      obtain ⟨houtline, hbody⟩ := hinside.bare_outline path hcuts
      refine ⟨?_, hbody⟩
      rw [hmodule.outline_succ (by simp), Outline.bare_within, houtline, ofModifiers_innerModifiers]
      rfl

end DocTree.Nests

/-! ### Both forms of a module -/

namespace ModuleSite

/-- No node of the nested form lies below so many levels. -/
def Fits (s : ModuleSite) (levels : Nat) : Prop :=
  ∀ r, s.nested.Reaches levels s.root r → s.nested.node? r = none

instance (s : ModuleSite) (levels : Nat) : Decidable (s.Fits levels) :=
  decidable_of_iff _ DocTree.cuts_eq_nil_iff

namespace Sealed

open DocTree

variable {s : ModuleSite} (h : s.Sealed) {r : NodeRef}

include h

/-- Apart from the module all is the same in both documents, and leads to nothing that is there for
the name. -/
theorem same_record (hr : s.Outside r) (hne : r ≠ some s.top) :
    s.dotted.record? r = s.nested.record? r ∧ ∀ c ∈ s.dotted.children r, s.Outside c := by
  cases r with
  | none =>
      refine ⟨by rw [record?_none, record?_none], fun c hc => ?_⟩
      rw [children_eq_nil (t := s.dotted) rfl] at hc
      exact absurd hc List.not_mem_nil
  | some i =>
      have hi : i ≠ s.top := fun hi => hne (congrArg some hi)
      exact ⟨(h.same_of_ne hr hi).2, h.children_of_ne hr hi⟩

theorem agree : s.dotted.Agree s.nested s.Outside where
  size := h.size_eq
  missing := s.outside_none
  heading {r} hr := by
    cases r with
    | none => rw [heading?_none, heading?_none]
    | some i =>
        by_cases hi : i = s.top
        · subst hi
          obtain ⟨inside, hmodule⟩ := h.nests_nested.exists_moduleAt
          rw [h.moduleAt_dotted.heading, hmodule.heading]
        · exact (h.same_of_ne hr hi).1
  record {r} hr := by
    by_cases htop : r = some s.top
    · subst htop
      obtain ⟨inside, hmodule⟩ := h.nests_nested.exists_moduleAt
      obtain ⟨name, hrecord, -⟩ := h.moduleAt_dotted.record
      obtain ⟨name', hrecord', -⟩ := hmodule.record
      exact .inr ⟨⟨_, hrecord⟩, _, hrecord'⟩
    · exact .inl (h.same_record hr htop)

/-- By induction on the levels. The modules of the nested form are met at its outermost one. -/
theorem bare_outline (path : String) {levels : Nat} (hr : s.Outside r)
    (hcuts : s.nested.cuts levels r = []) :
    (s.dotted.outline path levels r).bare = (s.nested.outline path levels r).bare ∧
      s.dotted.cuts levels r = [] := by
  induction levels generalizing r with
  | zero =>
      refine ⟨by rw [outline, outline], ?_⟩
      rcases h.agree.node?_eq hr with ⟨hnode, -⟩ | ⟨_, _, -, hnode, -⟩
      · simp [cuts, hnode]
      · exact absurd hcuts (by simp [cuts, hnode])
  | succ levels ih =>
      by_cases htop : r = some s.top
      · subst htop
        obtain ⟨hnested, hbody⟩ := h.nests_nested.bare_outline_succ path hcuts
        have hall := fun x hx => ih (h.body x hx) (hbody x hx)
        have hparts : (Part.outline (s.dotted.outline path levels) (s.body.map .plain)).bare =
            (Part.outline (s.nested.outline path levels) (s.body.map .plain)).bare :=
          Part.bare_outline_congr fun part hpart => by
            obtain ⟨x, hx, rfl⟩ := List.mem_map.mp hpart
            exact (hall x hx).1
        constructor
        · rw [hnested, h.moduleAt_dotted.outline_succ (by simp), Outline.bare_within,
            Outline.bare_within, bare_moduleEntries, bare_moduleEntries, hparts]
        · rw [h.moduleAt_dotted.cuts_succ, List.flatMap_map, List.flatMap_eq_nil_iff]
          exact fun x hx => (hall x hx).2
      · obtain ⟨hrecord, hchildren⟩ := h.same_record hr htop
        exact h.agree.bare_outline_succ hr hrecord hchildren ih hcuts

/-- Where no node of the nested form lies too deep, the forms of the module are collected alike. -/
theorem bare_collect (id : UnitId) (path : String) {limit : Nat} (hdepth : s.Fits limit) :
    ((CompilationUnit.ofTree id path s.dotted s.root).collect limit).bare =
      ((CompilationUnit.ofTree id path s.nested s.root).collect limit).bare := by
  obtain ⟨houtline, -⟩ := h.bare_outline path h.root (cuts_eq_nil_iff.mpr hdepth)
  have hroot : (s.dotted.rootOutline path limit s.root).bare =
      (s.nested.rootOutline path limit s.root).bare := by
    unfold rootOutline
    rw [h.agree.kind?_eq h.root]
    split
    · exact houtline
    · exact congrArg (Outline.decl _ · .nil) houtline
  have hlay := CompilationUnit.bare_lay_congr hroot
    (CompilationUnit.bare_ofTree_eq id path s.dotted s.nested s.root s.root) none
  rw [CompilationUnit.collect_ofTree, CompilationUnit.collect_ofTree]
  exact congrArg (fun u : CompilationUnit => { u with rootDecl := ⟨id, 0⟩ }) hlay

end Sealed

end ModuleSite

end NameBinding
