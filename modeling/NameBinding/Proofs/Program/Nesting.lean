import NameBinding.Proofs.Program.Outline
import NameBinding.Proofs.Tree.Calls

/-! # What stands inside what

A relation between a declaration and the one around it is shown of the outline of a document, node by
node, and holds then of what is collected.

Main statements: only declarations that open a scope have others inside, and arguments stand in what
has parameters. In trees that are built, nothing else stands in a signature. -/

namespace NameBinding

/-! ### Related neighbours -/

namespace Outline

variable {R : Entry → Entry → Prop} {a : Entry} {around : Option Entry} {o o' : Outline}

/-- Every declaration is in the relation with the one around it. -/
def Linked (R : Entry → Entry → Prop) : Option Entry → Outline → Prop
  | _, nil => True
  | around, decl e inside rest =>
    (∀ a, around = some a → R a e) ∧ inside.Linked R (some e) ∧ rest.Linked R around

theorem Linked.append (ho : o.Linked R around) (ho' : o'.Linked R around) :
    (o ++ o').Linked R around := by
  induction o with
  | nil => exact ho'
  | decl e inside rest _ ih => exact ⟨ho.1, ho.2.1, ih ho.2.2⟩

/-- By induction on the scopes, from the outermost one. -/
theorem Linked.within {es : List Entry} (hes : (a :: es).Pairwise R)
    (ho : o.Linked R (some ((a :: es).getLast (List.cons_ne_nil a es)))) :
    (within es o).Linked R (some a) := by
  induction es generalizing a with
  | nil => exact ho
  | cons e es ih =>
      obtain ⟨ha, hes⟩ := List.pairwise_cons.mp hes
      refine ⟨?_, ih hes (by rwa [List.getLast_cons_cons] at ho), True.intro⟩
      rintro _ ⟨⟩
      exact ha e List.mem_cons_self

theorem Linked.parts {inside : NodeRef → Outline} {parts : List Part}
    (h : ∀ part ∈ parts, (∀ e, part.value = some e → R a e) ∧
      (inside part.node).Linked R (some a)) : (Part.outline inside parts).Linked R (some a) := by
  induction parts with
  | nil => exact True.intro
  | cons part parts ih =>
      obtain ⟨⟨hvalue, hinside⟩, hparts⟩ := List.forall_mem_cons.mp h
      obtain ⟨_ | e, r⟩ := part
      · exact hinside.append (ih hparts)
      · refine ⟨?_, True.intro, hinside.append (ih hparts)⟩
        rintro _ ⟨⟩
        exact hvalue e rfl

end Outline

namespace DocTree

variable {t : DocTree} {R : Entry → Entry → Prop} {Q : Entry → Prop}

/-- What a node declares inside a declaration is related to it and to what it opens. Nodes below are
visited inside declarations of the kind. -/
structure Fits (t : DocTree) (path : String) (R : Entry → Entry → Prop) (Q : Entry → Prop)
    (r : NodeRef) (node : Node) (a : Entry) : Prop where
  opens : (a :: t.opens path r node).Pairwise R
  part : ∀ part ∈ t.partsOf r node,
    (∀ e, part.value = some e → R ((a :: t.opens path r node).getLast (List.cons_ne_nil _ _)) e) ∧
    (Q ((a :: t.opens path r node).getLast (List.cons_ne_nil _ _)) ∨ t.node? part.node = none)

/-- By induction on the levels. -/
theorem linked_outline (path : String)
    (h : ∀ r node a, t.node? r = some node → Q a → t.Fits path R Q r node a) (levels : Nat)
    (r : NodeRef) {a : Entry} (ha : Q a) : (t.outline path levels r).Linked R (some a) := by
  induction levels generalizing r a with
  | zero => exact True.intro
  | succ levels ih =>
      rw [outline]
      cases hr : t.node? r with
      | none => exact True.intro
      | some node =>
          have hfits := h r node a hr ha
          refine .within hfits.opens (.parts fun part hpart => ?_)
          obtain ⟨hvalue, hlast | hnone⟩ := hfits.part part hpart
          · exact ⟨hvalue, ih part.node hlast⟩
          · refine ⟨hvalue, ?_⟩
            cases levels with
            | zero => exact True.intro
            | succ levels =>
                rw [outline, hnone]
                exact True.intro

end DocTree

namespace CompilationUnit

variable {u : CompilationUnit} {R : Entry → Entry → Prop} {parent : Option DeclId} {i : Nat}

/-- What a declaration is written with. -/
def entryAt (u : CompilationUnit) (i : Nat) : Option Entry := (u.decls[i]?).map Decl.entry

theorem lt_size_of_entryAt {e : Entry} (h : u.entryAt i = some e) : i < u.decls.size := by
  obtain ⟨d, hd, -⟩ := Option.map_eq_some_iff.mp h
  exact lt_size_of_getElem? hd

theorem entryAt_write_of_lt (parent : Option DeclId) (e : Entry) (h : i < u.decls.size) :
    (u.write parent e).entryAt i = u.entryAt i := by
  rw [entryAt, entry_write, if_neg (Nat.ne_of_lt h)]
  rfl

theorem entryAt_write_size (u : CompilationUnit) (parent : Option DeclId) (e : Entry) :
    (u.write parent e).entryAt u.decls.size = some e := by
  rw [entryAt, entry_write, if_pos rfl]

theorem entryAt_lay_of_lt (parent : Option DeclId) (o : Outline) (h : i < u.decls.size) :
    (u.lay parent o).entryAt i = u.entryAt i := by
  induction o generalizing u parent with
  | nil => rfl
  | decl e inside rest ihi ihr =>
      have hi : i < (u.write parent e).decls.size := by simp; omega
      rw [lay, ihr _ (Nat.lt_of_lt_of_le hi (size_le_size_lay ..)), ihi _ hi,
        entryAt_write_of_lt parent e h]

/-- What the declaration around is written with. -/
def around (u : CompilationUnit) (parent : Option DeclId) : Option Entry :=
  parent.bind fun p => u.entryAt p.index

/-- Every declaration is in the relation with its parent. -/
def Linked (R : Entry → Entry → Prop) (u : CompilationUnit) : Prop :=
  ∀ p i, u.Parent p i → ∃ a e, u.entryAt p = some a ∧ u.entryAt i = some e ∧ R a e

theorem Linked.write (h : u.Linked R) (hparent : u.Holds parent) {e : Entry}
    (he : ∀ a, u.around parent = some a → R a e) : (u.write parent e).Linked R := by
  intro p i hp
  rcases (parent_write_iff ..).mp hp with hp | ⟨rfl, rfl⟩
  · obtain ⟨a, e', ha, he', hR⟩ := h p i hp
    refine ⟨a, e', ?_, ?_, hR⟩
    · rw [entryAt_write_of_lt _ _ (lt_size_of_entryAt ha), ha]
    · rw [entryAt_write_of_lt _ _ (lt_size_of_entryAt he'), he']
  · have hlt := (hparent _ rfl).2
    obtain ⟨d, hd⟩ : ∃ d, u.decls[p]? = some d := ⟨_, Array.getElem?_eq_getElem hlt⟩
    have ha : u.entryAt p = some d.entry := by rw [entryAt, hd, Option.map_some]
    refine ⟨d.entry, e, ?_, entryAt_write_size .., he _ ha⟩
    rw [entryAt_write_of_lt _ _ hlt, ha]

/-- By induction on the outline. -/
theorem Linked.lay {o : Outline} (h : u.Linked R) (hparent : u.Holds parent)
    (ho : o.Linked R (u.around parent)) : (u.lay parent o).Linked R := by
  induction o generalizing u parent with
  | nil => exact h
  | decl e inside rest ihi ihr =>
      have hinside := ihi (h.write hparent ho.1) (holds_nextDecl_write u parent e) (by
        have hnew : (u.write parent e).around (some u.nextDecl) = some e := entryAt_write_size ..
        rw [hnew]
        exact ho.2.1)
      refine ihr hinside ((hparent.write _ e).lay _ inside) ?_
      have hsame : ((u.write parent e).lay (some u.nextDecl) inside).around parent =
          u.around parent := by
        cases parent with
        | none => rfl
        | some p =>
            have hlt := (hparent p rfl).2
            have hlt' : p.index < (u.write (some p) e).decls.size := by simp; omega
            exact (entryAt_lay_of_lt _ inside hlt').trans (entryAt_write_of_lt _ e hlt)
      rw [hsame]
      exact ho.2.2

end CompilationUnit

/-! ### What nodes declare -/

/-- The declaration has others inside it. -/
def Entry.Opens (e : Entry) : Prop :=
  e.kind.isScope ∨ ((e.kind = .field ∨ e.kind = .staticField) ∧ e.flags.has .accessor)

theorem Entry.Opens.kind_ne_argument {e : Entry} (h : e.Opens) : e.kind ≠ .argument := by
  intro hk
  simp [Opens, DeclKind.isScope, hk] at h

theorem kind_of_mem_moduleEntries {node : NodeRef} {segments : List String} {e : Entry} :
    ∀ {flags : Flags DeclFlag}, e ∈ moduleEntries node flags segments → e.kind = .module := by
  induction segments with
  | nil => exact fun h => absurd h List.not_mem_nil
  | cons segment segments ih =>
      intro flags h
      rcases List.mem_cons.mp h with rfl | h
      · rfl
      · exact ih h

namespace DocTree

variable {t : DocTree} {path : String} {r : NodeRef} {node : Node} {e : Entry} {part : Part}

theorem mem_ofFunction_iff {entry : FunctionParts → Entry} :
    e ∈ opens.ofFunction t r entry ↔ ∃ f, t.function? r = some f ∧ entry f = e := by
  simp [opens.ofFunction]

theorem opens_of_mem_opens (h : e ∈ t.opens path r node) : e.Opens := by
  unfold opens at h
  cases hk : node.kind with
  | sourceFile =>
      simp only [hk, List.mem_singleton] at h
      exact .inl (h ▸ rfl)
  | moduleDeclaration =>
      simp only [hk] at h
      split at h
      · split at h
        · exact .inl (List.mem_singleton.mp h ▸ rfl)
        · exact .inl (by rw [kind_of_mem_moduleEntries h]; rfl)
      · exact absurd h List.not_mem_nil
  | classDeclaration | interfaceDeclaration =>
      simp only [hk] at h
      split at h
      · exact .inl (List.mem_singleton.mp h ▸ rfl)
      · exact absurd h List.not_mem_nil
  | functionDeclaration | functionExpression | arrowFunction | constructor | callSignature
  | constructSignature | indexSignature =>
      simp only [hk, mem_ofFunction_iff] at h
      obtain ⟨f, -, rfl⟩ := h
      exact .inl rfl
  | methodDeclaration | methodSignature =>
      simp only [hk, mem_ofFunction_iff] at h
      obtain ⟨f, -, rfl⟩ := h
      refine .inl ?_
      unfold functionEntry
      split <;> rfl
  | getAccessor | setAccessor =>
      simp only [hk, mem_ofFunction_iff] at h
      obtain ⟨f, -, rfl⟩ := h
      refine .inr ⟨?_, by simp [Flags.insert, Flags.has_single]⟩
      dsimp only
      split
      · exact .inr rfl
      · exact .inl rfl
  | _ => 
      simp only [hk] at h
      exact absurd h List.not_mem_nil

/-- A signature opens one scope. -/
theorem opens_eq_of_isSignature (h : e ∈ t.opens path r node) (hk : e.kind.isSignature) :
    t.opens path r node = [e] ∧ node.kind.isSignature := by
  unfold opens at h ⊢
  cases hnode : node.kind with
  | callSignature | constructSignature | indexSignature =>
      simp only [hnode, mem_ofFunction_iff] at h
      obtain ⟨f, hf, rfl⟩ := h
      simp [opens.ofFunction, hf, NodeKind.isSignature]
  | moduleDeclaration =>
      simp only [hnode] at h
      split at h
      · split at h
        · rw [List.mem_singleton.mp h] at hk
          simp [DeclKind.isSignature] at hk
        · rw [kind_of_mem_moduleEntries h] at hk
          simp [DeclKind.isSignature] at hk
      · exact absurd h List.not_mem_nil
  | sourceFile =>
      simp only [hnode, List.mem_singleton] at h
      simp [h, DeclKind.isSignature] at hk
  | classDeclaration | interfaceDeclaration =>
      simp only [hnode] at h
      split at h
      · rw [List.mem_singleton.mp h] at hk
        simp [DeclKind.isSignature] at hk
      · exact absurd h List.not_mem_nil
  | functionDeclaration | functionExpression | arrowFunction | constructor =>
      simp only [hnode, mem_ofFunction_iff] at h
      obtain ⟨f, -, rfl⟩ := h
      simp [functionEntry, DeclKind.isSignature] at hk
  | methodDeclaration | methodSignature | getAccessor | setAccessor =>
      simp only [hnode, mem_ofFunction_iff] at h
      obtain ⟨f, -, rfl⟩ := h
      simp only [functionEntry] at hk
      split at hk <;> simp [DeclKind.isSignature] at hk
  | _ =>
      simp only [hnode] at h
      exact absurd h List.not_mem_nil

theorem value_of_mem_variableParts {flags : Flags DeclFlag} (h : part ∈ t.variableParts flags r)
    (he : part.value = some e) : e.kind = .variable := by
  unfold variableParts at h
  split at h
  · rw [List.mem_singleton.mp h] at he
    cases he
    rfl
  · exact absurd h List.not_mem_nil

theorem value_of_mem_plain {nodes : List NodeRef} (h : part ∈ nodes.map Part.plain) :
    part.value = none := by
  obtain ⟨_, -, rfl⟩ := List.mem_map.mp h
  rfl

/-- Only functions and signatures declare arguments. -/
theorem exists_opens_of_argument (path : String) (hpart : part ∈ t.partsOf r node)
    (he : part.value = some e) (hk : e.kind = .argument) :
    ∃ e', t.opens path r node = [e'] ∧ e'.kind.isSignatureBearing := by
  unfold partsOf at hpart
  cases hnode : node.kind with
  | functionDeclaration | functionExpression | arrowFunction | constructor | callSignature
  | constructSignature | indexSignature =>
      simp only [hnode] at hpart
      split at hpart
      · next f hf => exact ⟨_, by simp [opens, hnode, opens.ofFunction, hf]; rfl, rfl⟩
      · exact absurd hpart List.not_mem_nil
  | methodDeclaration | methodSignature =>
      simp only [hnode] at hpart
      split at hpart
      · next f hf =>
        refine ⟨_, by simp [opens, hnode, opens.ofFunction, hf]; rfl, ?_⟩
        unfold functionEntry
        split <;> rfl
      · exact absurd hpart List.not_mem_nil
  | getAccessor | setAccessor =>
      simp only [hnode] at hpart
      split at hpart
      · rw [List.mem_singleton.mp hpart] at he
        cases he
      · exact absurd hpart List.not_mem_nil
  | propertyDeclaration | propertySignature =>
      simp only [hnode] at hpart
      split at hpart
      · rw [List.mem_singleton.mp hpart] at he
        cases he
        dsimp only at hk
        split at hk <;> cases hk
      · exact absurd hpart List.not_mem_nil
  | variableStatement =>
      simp only [hnode] at hpart
      split at hpart
      · obtain ⟨_, -, hpart⟩ := List.mem_flatMap.mp hpart
        rw [value_of_mem_variableParts hpart he] at hk
        cases hk
      · exact absurd hpart List.not_mem_nil
  | variableDeclaration =>
      simp only [hnode] at hpart
      rw [value_of_mem_variableParts hpart he] at hk
      cases hk
  | importEqualsDeclaration =>
      simp only [hnode] at hpart
      split at hpart
      · rw [List.mem_singleton.mp hpart] at he
        cases he
        cases hk
      · exact absurd hpart List.not_mem_nil
  | moduleDeclaration | classDeclaration | interfaceDeclaration =>
      simp only [hnode] at hpart
      split at hpart
      · rw [value_of_mem_plain hpart] at he
        cases he
      · exact absurd hpart List.not_mem_nil
  | sourceFile | unknown | externalModuleReference | parameter | block | ifStatement
  | whileStatement | forStatement | expressionStatement | returnStatement | expression =>
      simp only [hnode] at hpart
      rw [value_of_mem_plain hpart] at he
      cases he
  | _ =>
      simp only [hnode] at hpart
      exact absurd hpart List.not_mem_nil

end DocTree

/-! ### Collected units -/

namespace Entry

/-- The first declaration can have the second one inside: it opens a scope, and it has parameters if
the second one is an argument. -/
def Frames (a e : Entry) : Prop := a.Opens ∧ (e.kind = .argument → a.kind.isSignatureBearing)

/-- In a signature stand arguments only. -/
def Seals (a e : Entry) : Prop := a.kind.isSignature → e.kind = .argument

end Entry

namespace DocTree

variable {t : DocTree} {path : String} {r : NodeRef} {node : Node} {a : Entry}

theorem fits_frames (ha : a.Opens) : t.Fits path Entry.Frames Entry.Opens r node a := by
  have hopens : ∀ e ∈ a :: t.opens path r node, e.Opens :=
    List.forall_mem_cons.mpr ⟨ha, fun e he => opens_of_mem_opens he⟩
  have hlast := hopens _ (List.getLast_mem (List.cons_ne_nil _ _))
  refine ⟨List.pairwise_cons.mpr ⟨fun e he => ?_, ?_⟩, fun part hpart => ⟨fun e he => ?_, .inl hlast⟩⟩
  · exact ⟨ha, fun hk => absurd hk (opens_of_mem_opens he).kind_ne_argument⟩
  · refine List.pairwise_of_forall_mem_list fun x hx e he => ?_
    exact ⟨opens_of_mem_opens hx, fun hk => absurd hk (opens_of_mem_opens he).kind_ne_argument⟩
  · refine ⟨hlast, fun hk => ?_⟩
    obtain ⟨e', hopen, hbearing⟩ := exists_opens_of_argument path hpart he hk
    simpa [hopen] using hbearing

/-- The parts of a signature are its parameters, and have nothing below them. -/
theorem Plain.part_of_isSignature (h : t.Plain) (hr : t.node? r = some node)
    (hk : node.kind.isSignature) {part : Part} (hpart : part ∈ t.partsOf r node) :
    (∀ e, part.value = some e → e.kind = .argument) ∧ part.node = none := by
  have hparts : t.partsOf r node = ((t.function? r).map fun f =>
      f.parameters.flatMap t.parameterParts ++ [.plain f.body]).getD [] := by
    unfold partsOf
    cases hnode : node.kind <;> simp [hnode, NodeKind.isSignature] at hk <;>
      cases t.function? r <;> rfl
  rw [hparts] at hpart
  cases hf : t.function? r with
  | none => simp [hf] at hpart
  | some f =>
      rw [hf] at hpart
      rcases List.mem_append.mp hpart with hpart | hpart
      · obtain ⟨p, -, hpart⟩ := List.mem_flatMap.mp hpart
        unfold parameterParts at hpart
        split at hpart
        · next value v hvalue hv =>
          have hhead : t.heading? p = some (value.kind, value.modifiers) := by
            rw [heading?, hvalue, Option.map_some]
          have hnone := (h p _ _ _ hhead (Collect.record_of_parameter? hv)).parameter v rfl
          rw [List.mem_singleton.mp hpart]
          refine ⟨?_, hnone⟩
          rintro e ⟨⟩
          rfl
        · exact absurd hpart List.not_mem_nil
      · have hhead : t.heading? r = some (node.kind, node.modifiers) := by rw [heading?, hr]; rfl
        have hnone := (h r _ _ _ hhead (Collect.record_of_function? hf)).signature hk f rfl
        rw [List.mem_singleton.mp hpart]
        exact ⟨by simp [Part.plain], hnone⟩

theorem Plain.fits_seals (h : t.Plain) (hr : t.node? r = some node) (ha : ¬a.kind.isSignature) :
    t.Fits path Entry.Seals (fun a => ¬a.kind.isSignature) r node a := by
  refine ⟨List.pairwise_cons.mpr ⟨fun e he hk => absurd hk ha, ?_⟩, fun part hpart => ?_⟩
  · by_cases hsig : ∃ e ∈ t.opens path r node, e.kind.isSignature
    · obtain ⟨e, he, hk⟩ := hsig
      rw [(opens_eq_of_isSignature he hk).1]
      exact List.pairwise_singleton ..
    · refine List.pairwise_of_forall_mem_list fun x hx e _ hk => ?_
      exact absurd ⟨x, hx, hk⟩ hsig
  · generalize hlast : (a :: t.opens path r node).getLast (List.cons_ne_nil _ _) = last
    by_cases hk : last.kind.isSignature
    · have hmem : last ∈ a :: t.opens path r node := hlast ▸ List.getLast_mem _
      rcases List.mem_cons.mp hmem with rfl | hmem
      · exact absurd hk ha
      · obtain ⟨hvalue, hnone⟩ := h.part_of_isSignature hr (opens_eq_of_isSignature hmem hk).2 hpart
        exact ⟨fun e he _ => hvalue e he, .inr (by rw [hnone]; rfl)⟩
    · exact ⟨fun e _ hs => absurd hs hk, .inl hk⟩

end DocTree

theorem Outline.Linked.outermost {R : Entry → Entry → Prop} {a : Entry} {o : Outline}
    (h : o.Linked R (some a)) : o.Linked R none := by
  induction o with
  | nil => exact True.intro
  | decl e inside rest _ ih => exact ⟨fun _ hx => (nomatch hx), h.2.1, ih h.2.2⟩

namespace CompilationUnit

variable {R : Entry → Entry → Prop} {Q : Entry → Prop} {path : String} {t : DocTree}

theorem linked_collect_of_outline {root : NodeRef} {limit : Nat}
    (h : (t.rootOutline path limit root).Linked R none) (id : UnitId) :
    ((ofTree id path t root).collect limit).Linked R := by
  have hempty : (ofTree id path t root).Linked R := fun p i hp =>
    absurd hp (not_parent_ofTree id path t root p i)
  rw [collect_ofTree]
  exact hempty.lay (holds_none _) h

theorem linked_collect (h : ∀ r node a, t.node? r = some node → Q a → t.Fits path R Q r node a)
    (id : UnitId) (root : NodeRef) (limit : Nat) (hscript : Q ⟨root, path, .script, ∅⟩) :
    ((ofTree id path t root).collect limit).Linked R := by
  refine linked_collect_of_outline ?_ id
  have hroot := DocTree.linked_outline path h limit root hscript
  unfold DocTree.rootOutline
  split
  · exact hroot.outermost
  · exact ⟨fun _ hx => (nomatch hx), hroot, True.intro⟩

/-- Only declarations that open a scope have others inside. -/
theorem frames_collect (id : UnitId) (path : String) (t : DocTree) (root : NodeRef) (limit : Nat) :
    ((ofTree id path t root).collect limit).Linked Entry.Frames :=
  linked_collect (fun _ _ _ _ ha => DocTree.fits_frames ha) id root limit (.inl rfl)

/-- In a tree that is built, signatures have nothing but their arguments inside. -/
theorem seals_collect (h : t.Plain) (id : UnitId) (path : String) (root : NodeRef) (limit : Nat) :
    ((ofTree id path t root).collect limit).Linked Entry.Seals :=
  linked_collect (fun _ _ _ hr ha => h.fits_seals hr ha) id root limit (by simp [DeclKind.isSignature])

end CompilationUnit

end NameBinding
