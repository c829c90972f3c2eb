import Mathlib.Data.List.Forall2
import NameBinding.Proofs.Place.Basic
import NameBinding.Proofs.Program.Collect
import NameBinding.Proofs.Program.Text

/-! # The number of a unit does not matter

A document that is read again gets a new number. Its declarations contribute to the same places, with
the same numbers inside the document. -/

namespace NameBinding

/-- Two numbers of declarations, one for each of two units, that say the same inside their units. -/
def SameNumber (unit unit' : UnitId) (x x' : DeclId) : Prop :=
  (x.unit = unit ↔ x'.unit = unit') ∧ x.index = x'.index

theorem SameNumber.eq_iff {unit unit' : UnitId} {x x' : DeclId} (h : SameNumber unit unit' x x')
    (i : Nat) : x = ⟨unit, i⟩ ↔ x' = ⟨unit', i⟩ := by
  obtain ⟨hunit, hindex⟩ := h
  obtain ⟨xu, xi⟩ := x
  obtain ⟨xu', xi'⟩ := x'
  simp only at hunit hindex
  simp [hunit, hindex]

namespace Decl

/-- All of a declaration that its places depend on. -/
def face (d : Decl) : Decl :=
  ⟨⟨0, d.id.index⟩, d.name, d.kind, d.flags, default, none, [], default, none⟩

theorem signaturePlaces_face (d : Decl) (file : String) (args : List Decl) (fieldsOf : Option Place)
    (q : Place) : d.face.signaturePlaces file (args.map face) fieldsOf q =
      d.signaturePlaces file args fieldsOf q := by
  simp only [signaturePlaces, List.flatMap_map]
  rfl

theorem outcome_face (d : Decl) (file : String) (q : Place) (args : List Decl) :
    d.face.outcome file q (args.map face) = d.outcome file q args := by
  have hfunction : d.face.functionOutcome file q (args.map face) =
      d.functionOutcome file q args := by
    simp only [functionOutcome, signaturePlaces_face]
    rfl
  have hconstructor : d.face.constructorOutcome file q (args.map face) =
      d.constructorOutcome file q args := by
    simp only [constructorOutcome, signaturePlaces_face]
    rfl
  have hmember : d.face.memberSignatureOutcome file q (args.map face) =
      d.memberSignatureOutcome file q args := by
    simp only [memberSignatureOutcome, signaturePlaces_face]
    rfl
  simp only [outcome, hfunction, hconstructor, hmember]
  rfl

/-- The declarations say the same, each inside its unit. -/
structure Alike (unit unit' : UnitId) (d d' : Decl) : Prop where
  face : d.face = d'.face
  parent : Option.Rel (SameNumber unit unit') d.parent d'.parent
  children : List.Forall₂ (SameNumber unit unit') d.children d'.children

theorem Alike.kind_eq {unit unit' : UnitId} {d d' : Decl} (h : Alike unit unit' d d') :
    d.kind = d'.kind := by
  have hkind := congrArg Decl.kind h.face
  exact hkind

end Decl

namespace CompilationUnit

/-- The units have the same declarations in the same order. -/
structure Alike (u v : CompilationUnit) : Prop where
  path : u.path = v.path
  decls : ∀ i : Nat, Option.Rel (Decl.Alike u.id v.id) u.decls[i]? v.decls[i]?

variable {u v : CompilationUnit} {d d' : Decl} {opened : List Opened}

theorem Alike.decl? (h : u.Alike v) {x x' : DeclId} (hx : SameNumber u.id v.id x x') :
    Option.Rel (Decl.Alike u.id v.id) (u.decl? x) (v.decl? x') := by
  unfold CompilationUnit.decl?
  by_cases hu : x.unit = u.id
  · rw [if_pos hu, if_pos (hx.1.mp hu), hx.2]
    exact h.decls x'.index
  · rw [if_neg hu, if_neg fun hv => hu (hx.1.mpr hv)]
    exact .none

theorem Alike.arguments (h : u.Alike v) (hd : Decl.Alike u.id v.id d d') :
    (u.arguments d).map Decl.face = (v.arguments d').map Decl.face := by
  have hmap : List.Forall₂ (Decl.Alike u.id v.id) (d.children.filterMap u.decl?)
      (d'.children.filterMap v.decl?) :=
    List.rel_filterMap (fun _ _ hx => h.decl? hx) hd.children
  have hfilter : List.Forall₂ (Decl.Alike u.id v.id) (u.arguments d) (v.arguments d') :=
    List.rel_filter (fun x x' hx => by
      have hkind := hx.kind_eq
      simp [hkind]) hmap
  have hface : List.Forall₂ Eq ((u.arguments d).map Decl.face) ((v.arguments d').map Decl.face) :=
    List.rel_map (fun _ _ hx => hx.face) hfilter
  rwa [List.forall₂_eq_eq_eq] at hface

theorem Alike.outcomeOf_eq (h : u.Alike v) (hd : Decl.Alike u.id v.id d d') (opened : List Opened) :
    u.outcomeOf opened d = v.outcomeOf opened d' := by
  have haround : openedAround opened d = openedAround opened d' := by
    unfold openedAround
    have hparent := hd.parent
    generalize d.parent = parent at hparent
    generalize d'.parent = parent' at hparent
    cases hparent with
    | none => rfl
    | some hx => simp only [hx.2]
  unfold outcomeOf
  rw [haround]
  split
  · rfl
  · rw [← Decl.outcome_face, ← Decl.outcome_face d', hd.face, h.arguments hd, h.path]

theorem Alike.placesAfter_eq (h : u.Alike v) {ds ds' : List Decl}
    (hds : List.Forall₂ (Decl.Alike u.id v.id) ds ds') (opened : List Opened) :
    u.placesAfter opened ds = v.placesAfter opened ds' := by
  induction hds generalizing opened with
  | nil => rfl
  | cons hd _ ih => rw [placesAfter, placesAfter, h.outcomeOf_eq hd opened, ih]

theorem forall₂_of_getElem? {α β : Type} {R : α → β → Prop} {l : List α} {m : List β}
    (h : ∀ i : Nat, Option.Rel R l[i]? m[i]?) : List.Forall₂ R l m := by
  induction l generalizing m with
  | nil =>
      cases m with
      | nil => exact .nil
      | cons y m =>
          have hfirst := h 0
          exact absurd hfirst (by rintro ⟨⟩)
  | cons x l ih =>
      cases m with
      | nil =>
          have hfirst := h 0
          exact absurd hfirst (by rintro ⟨⟩)
      | cons y m =>
          have hfirst : Option.Rel R (some x) (some y) := h 0
          cases hfirst with
          | some hxy => exact .cons hxy (ih fun i => h (i + 1))

/-- Units that say the same contribute to the same places. -/
theorem Alike.places_eq (h : u.Alike v) : u.places = v.places := by
  refine h.placesAfter_eq (forall₂_of_getElem? fun i => ?_) []
  rw [Array.getElem?_toList, Array.getElem?_toList]
  exact h.decls i

theorem Alike.size_eq (h : u.Alike v) : u.decls.size = v.decls.size := by
  rcases Nat.lt_trichotomy u.decls.size v.decls.size with hlt | heq | hlt
  · have hrel := h.decls u.decls.size
    rw [Array.getElem?_eq_none (Nat.le_refl _), Array.getElem?_eq_getElem hlt] at hrel
    exact absurd hrel (by rintro ⟨⟩)
  · exact heq
  · have hrel := h.decls v.decls.size
    rw [Array.getElem?_eq_none (Nat.le_refl v.decls.size), Array.getElem?_eq_getElem hlt] at hrel
    exact absurd hrel (by rintro ⟨⟩)

/-- A declaration comes to both units. -/
theorem Alike.addDecl (h : u.Alike v) (hd : Decl.Alike u.id v.id d d')
    (hid : SameNumber u.id v.id d.id d'.id) : (u.addDecl d).Alike (v.addDecl d') := by
  constructor
  · rw [path_addDecl, path_addDecl, h.path]
  · intro i
    have hparent : d.parent = some ⟨u.id, i⟩ ↔ d'.parent = some ⟨v.id, i⟩ := by
      have hrel := hd.parent
      generalize d.parent = parent at hrel
      generalize d'.parent = parent' at hrel
      cases hrel with
      | none => simp
      | some hx => simpa using hx.eq_iff i
    have hchild : ∀ {x x'}, Decl.Alike u.id v.id x x' →
        Decl.Alike u.id v.id (withChild u.id d i x) (withChild v.id d' i x') := by
      intro x x' hx
      unfold withChild
      by_cases hp : d.parent = some ⟨u.id, i⟩
      · rw [if_pos hp, if_pos (hparent.mp hp)]
        exact ⟨hx.face, hx.parent, List.rel_append hx.children (.cons hid .nil)⟩
      · rw [if_neg hp, if_neg fun hp' => hp (hparent.mpr hp')]
        exact hx
    rw [id_addDecl, id_addDecl, getElem?_addDecl, getElem?_addDecl, Array.getElem?_push,
      Array.getElem?_push, h.size_eq]
    split
    · exact .some (hchild hd)
    · have hold := h.decls i
      generalize u.decls[i]? = x at hold ⊢
      generalize v.decls[i]? = x' at hold ⊢
      cases hold with
      | none => exact .none
      | some hx => exact .some (hchild hx)

/-- Binding leaves what a unit says. -/
theorem alike_text (u : CompilationUnit) : u.Alike u.text := by
  have hsame : ∀ x : DeclId, SameNumber u.id u.id x x := fun x => ⟨.rfl, rfl⟩
  refine ⟨rfl, fun i => ?_⟩
  change Option.Rel _ u.decls[i]? (u.decls.map Decl.unbind)[i]?
  rw [Array.getElem?_map]
  cases u.decls[i]? with
  | none => exact .none
  | some d =>
      refine .some ⟨rfl, ?_, List.forall₂_same.mpr fun x _ => hsame x⟩
      change Option.Rel _ d.parent d.parent
      cases d.parent with
      | none => exact .none
      | some parent => exact .some (hsame parent)

end CompilationUnit

/-! ### Collecting twice -/

/-- The units have their numbers, come from one text and are alike so far. -/
structure Collection.Alike (t : DocTree) (id id' : UnitId) (c c' : Collection) : Prop where
  id_eq : c.unit.id = id
  id_eq' : c'.unit.id = id'
  tree : c.unit.tree = t ∧ c'.unit.tree = t
  root : c.unit.root = c'.unit.root
  alike : c.unit.Alike c'.unit

theorem Collect.closed_alike (t : DocTree) (id id' : UnitId) :
    Closed t (Collection.Alike t id id') (SameNumber id id') where
  tree hc := hc.tree
  path hc := hc.alike.path
  root hc := hc.root
  next {c c'} hc :=
    ⟨by simp [CompilationUnit.nextDecl, hc.id_eq, hc.id_eq'], hc.alike.size_eq⟩
  declare {scopes scopes'} node name kind flags hscopes _ := by
    rintro c c' hc
    have hnext : SameNumber id id' c.unit.nextDecl c'.unit.nextDecl :=
      ⟨by simp [CompilationUnit.nextDecl, hc.id_eq, hc.id_eq'], hc.alike.size_eq⟩
    obtain ⟨rfl, rfl, htree, hroot, halike⟩ := hc
    refine ⟨⟨CompilationUnit.id_addDecl _ _, CompilationUnit.id_addDecl _ _, ?_, ?_, ?_⟩, hnext⟩
    · exact ⟨(CompilationUnit.tree_addDecl _ _).trans htree.1,
        (CompilationUnit.tree_addDecl _ _).trans htree.2⟩
    · exact (CompilationUnit.root_addDecl _ _).trans
        (hroot.trans (CompilationUnit.root_addDecl _ _).symm)
    · refine halike.addDecl ⟨?_, hscopes, .nil⟩ hnext
      simp only [Decl.face, Decl.fresh, CompilationUnit.nextDecl, halike.size_eq]
  leaveOut limit node := by
    rintro c c' hc
    refine ⟨?_, True.intro⟩
    change Collection.Alike t id id' (if c.truncated then c else _) (if c'.truncated then c' else _)
    split <;> split <;>
      exact ⟨hc.id_eq, hc.id_eq', hc.tree, hc.root, hc.alike.path, hc.alike.decls⟩

namespace CompilationUnit

/-- A document has the same declarations whatever the number of its unit is. -/
theorem alike_collect (limit : Nat) (id id' : UnitId) (path : String) (tree : DocTree)
    (root : NodeRef) : ((ofTree id path tree root).collect limit).Alike
      ((ofTree id' path tree root).collect limit) := by
  have h := (Collect.closed_alike tree id id').visitRoot limit { unit := ofTree id path tree root }
    { unit := ofTree id' path tree root } ⟨rfl, rfl, ⟨rfl, rfl⟩, rfl, rfl, fun _ => .none⟩
  exact ⟨h.1.alike.path, h.1.alike.decls⟩

end CompilationUnit

end NameBinding
