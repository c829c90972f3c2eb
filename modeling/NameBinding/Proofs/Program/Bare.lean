import NameBinding.Proofs.Program.Outline

/-! # Declarations without their nodes

What is left of a program if it forgets from which nodes its declarations come. Reports and the tables
that lead from nodes to declarations are forgotten with them.

Main statement: outlines that differ in their nodes only are laid alike. -/

namespace NameBinding

namespace Decl

/-- The declaration without its node and its place in the text. -/
def bare (d : Decl) : Decl := { d with span := Span.invalid, node := none }

end Decl

namespace Entry

def bare (e : Entry) : Entry := { e with node := none }

end Entry

namespace Outline

/-- The outline without the nodes. -/
def bare : Outline → Outline
  | nil => nil
  | decl e inside rest => decl e.bare inside.bare rest.bare

@[simp] theorem bare_append (o o' : Outline) : (o ++ o').bare = o.bare ++ o'.bare := by
  induction o with
  | nil => rfl
  | decl e inside rest _ ih => rw [decl_append, bare, bare, ih, decl_append]

theorem bare_within (es : List Entry) (o : Outline) :
    (within es o).bare = within (es.map Entry.bare) o.bare := by
  induction es with
  | nil => rfl
  | cons e es ih => exact congrArg (decl e.bare · nil) ih

end Outline

namespace Part

theorem bare_outline_congr {inside inside' : NodeRef → Outline} {parts : List Part}
    (h : ∀ part ∈ parts, (inside part.node).bare = (inside' part.node).bare) :
    (outline inside parts).bare = (outline inside' parts).bare := by
  induction parts with
  | nil => rfl
  | cons part parts ih =>
      obtain ⟨hpart, hparts⟩ := List.forall_mem_cons.mp h
      obtain ⟨_ | e, r⟩ := part <;>
        simp only [outline, Outline.bare, Outline.bare_append, ih hparts, hpart]

end Part

namespace CompilationUnit

/-- The unit without nodes. -/
def bare (u : CompilationUnit) : CompilationUnit :=
  { u with
    tree := {}
    root := none
    decls := u.decls.map Decl.bare
    declsByNode := []
    diagnostics := [] }

variable {u v : CompilationUnit}

/-- Nothing is left of the trees. -/
theorem bare_ofTree_eq (id : UnitId) (path : String) (t t' : DocTree) (r r' : NodeRef) :
    (ofTree id path t r).bare = (ofTree id path t' r').bare := rfl

theorem bare_modifyDecl (u : CompilationUnit) (d : DeclId) {f : Decl → Decl}
    (hf : ∀ x, (f x).bare = f x.bare) : (u.modifyDecl d f).bare = u.bare.modifyDecl d f := by
  unfold modifyDecl
  change _ = if d.unit = u.id then _ else _
  split
  · have hdecls : (u.decls.modify d.index f).map Decl.bare =
        (u.decls.map Decl.bare).modify d.index f := by
      refine Array.ext_getElem? fun i => ?_
      simp only [Array.getElem?_map, Array.getElem?_modify]
      split
      · cases u.decls[i]? <;> simp [hf]
      · rfl
    simp only [bare, hdecls]
  · rfl

theorem decl?_bare (u : CompilationUnit) (d : DeclId) :
    u.bare.decl? d = (u.decl? d).map Decl.bare := by
  unfold decl?
  change (if d.unit = u.id then (u.decls.map Decl.bare)[d.index]? else none) = _
  split
  · exact Array.getElem?_map
  · rfl

theorem nextDecl_bare (u : CompilationUnit) : u.bare.nextDecl = u.nextDecl := by
  simp [nextDecl, bare]

theorem nextDecl_eq_of_bare_eq (h : u.bare = v.bare) : u.nextDecl = v.nextDecl := by
  rw [← nextDecl_bare, h, nextDecl_bare]

/-- What is left of a unit with one more declaration. -/
theorem bare_addDecl (u : CompilationUnit) (d : Decl) :
    (u.addDecl d).bare = (u.bare.addDecl d.bare).bare := by
  unfold addDecl
  have hpush : { u with
      decls := u.decls.push d
      declsByNode := (d.node, d.id) :: u.declsByNode }.bare = { u.bare with
      decls := u.bare.decls.push d.bare
      declsByNode := (d.bare.node, d.bare.id) :: u.bare.declsByNode }.bare := by
    simp only [bare, Array.map_push, Array.map_map]
    rfl
  have hparent : d.bare.parent = d.parent := rfl
  rw [hparent]
  cases d.parent with
  | none => exact hpush
  | some parent =>
      have hchild : ∀ x : Decl, ({ x with children := x.children ++ [d.id] } : Decl).bare =
          { x.bare with children := x.bare.children ++ [d.id] } := fun _ => rfl
      dsimp only
      rw [bare_modifyDecl _ parent hchild, bare_modifyDecl _ parent (f := fun x =>
        { x with children := x.children ++ [d.bare.id] }) fun _ => rfl, hpush]
      rfl

/-- Declarations that differ in their nodes only are written alike. -/
theorem bare_write_congr (hu : u.bare = v.bare) (parent : Option DeclId) {e e' : Entry}
    (he : e.bare = e'.bare) : (u.write parent e).bare = (v.write parent e').bare := by
  have hdecl : (Decl.fresh u.nextDecl e.name e.kind e.flags (u.tree.span e.node) parent e.node).bare =
      (Decl.fresh v.nextDecl e'.name e'.kind e'.flags (v.tree.span e'.node) parent e'.node).bare := by
    obtain ⟨hname, hkind, hflags⟩ : e.name = e'.name ∧ e.kind = e'.kind ∧ e.flags = e'.flags := by
      simpa [Entry.bare] using he
    rw [nextDecl_eq_of_bare_eq hu, hname, hkind, hflags]
    rfl
  rw [write, write, bare_addDecl, bare_addDecl v, hu, hdecl]

/-- By induction on the first outline. -/
theorem bare_lay_congr {o o' : Outline} (ho : o.bare = o'.bare) (hu : u.bare = v.bare)
    (parent : Option DeclId) : (u.lay parent o).bare = (v.lay parent o').bare := by
  induction o generalizing o' u v parent with
  | nil =>
      cases o' with
      | nil => exact hu
      | decl => exact absurd ho (by simp [Outline.bare])
  | decl e inside rest ihi ihr =>
      cases o' with
      | nil => exact absurd ho (by simp [Outline.bare])
      | decl e' inside' rest' =>
          obtain ⟨he, hinside, hrest⟩ := Outline.decl.inj ho
          rw [lay, lay, nextDecl_eq_of_bare_eq hu]
          exact ihr hrest (ihi hinside (bare_write_congr hu parent he) _) parent

end CompilationUnit

namespace Program

/-- The program without nodes. -/
def bare (p : Program) : Program := { p with units := p.units.map (·.bare) }

theorem bare_add (p : Program) (u : CompilationUnit) : (p.add u).bare = p.bare.add u.bare :=
  congrArg (Program.mk · p.nextUnit) List.map_append

theorem unitById?_bare (p : Program) (id : UnitId) :
    p.bare.unitById? id = (p.unitById? id).map (·.bare) := by
  unfold unitById? bare
  exact List.find?_map ..

theorem decl?_bare (p : Program) (d : DeclId) : p.bare.decl? d = (p.decl? d).map Decl.bare := by
  rw [decl?, unitById?_bare, decl?]
  cases p.unitById? d.unit with
  | none => rfl
  | some u => exact u.decl?_bare d

theorem bare_modifyUnit (p : Program) (id : UnitId) {f : CompilationUnit → CompilationUnit}
    (hf : ∀ u, (f u).bare = f u.bare) : (p.modifyUnit id f).bare = p.bare.modifyUnit id f := by
  simp only [bare, modifyUnit, List.map_map]
  congr 1
  refine List.map_congr_left fun u _ => ?_
  change (if u.id = id then f u else u).bare = if u.id = id then f u.bare else u.bare
  split
  · exact hf u
  · rfl

theorem globalSymbols_bare (p : Program) (name : String) :
    p.bare.globalSymbols name = p.globalSymbols name := by
  simp only [globalSymbols, bare, List.flatMap_map]
  rfl

end Program

end NameBinding
