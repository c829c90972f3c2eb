import NameBinding.Proofs.Program.WellFormed

/-! # The text of a program

What the units of a program say, without what binding adds to them. -/

namespace NameBinding

namespace Decl

/-- The declaration as it is collected. -/
def unbind (d : Decl) : Decl := { d with symbol := none }

end Decl

namespace CompilationUnit

/-- The unit as it is collected. -/
def text (u : CompilationUnit) : CompilationUnit :=
  { u with decls := u.decls.map Decl.unbind, topLevel := [], diagnostics := [] }

theorem text_modifyDecl (u : CompilationUnit) (d : DeclId) {f : Decl → Decl}
    (hf : ∀ x, (f x).unbind = x.unbind) : (u.modifyDecl d f).text = u.text := by
  unfold modifyDecl
  split
  · have hdecls : (u.decls.modify d.index f).map Decl.unbind = u.decls.map Decl.unbind := by
      refine Array.ext_getElem? fun i => ?_
      simp only [Array.getElem?_map, Array.getElem?_modify]
      split
      · cases u.decls[i]? <;> simp [hf]
      · rfl
    simp only [text, hdecls]
  · rfl

theorem map_unbind_decl? (u : CompilationUnit) (d : DeclId) :
    (u.decl? d).map Decl.unbind = u.text.decl? d := by
  unfold decl?
  change _ = if d.unit = u.id then (u.decls.map Decl.unbind)[d.index]? else none
  split
  · rw [Array.getElem?_map]
  · rfl

variable {u v : CompilationUnit}

/-- Units with equal texts have the same declarations, apart from their symbols. -/
theorem exists_decl_of_text_eq (h : v.text = u.text) {i : Nat} {d : Decl}
    (hd : u.decls[i]? = some d) : ∃ d', v.decls[i]? = some d' ∧ d'.unbind = d.unbind := by
  have hdecls : v.decls.map Decl.unbind = u.decls.map Decl.unbind :=
    congrArg (fun t : CompilationUnit => t.decls) h
  have hget : (v.decls.map Decl.unbind)[i]? = some d.unbind := by
    rw [hdecls, Array.getElem?_map, hd]
    rfl
  rw [Array.getElem?_map] at hget
  exact Option.map_eq_some_iff.mp hget

theorem ReadsInterfaces.of_text (h : v.ReadsInterfaces) (ht : v.text = u.text) :
    u.ReadsInterfaces := by
  intro i d hd hnode
  obtain ⟨d', hd', heq⟩ := exists_decl_of_text_eq ht hd
  have htree : v.text.tree = u.text.tree := congrArg CompilationUnit.tree ht
  have hsame : d'.unbind.node = d.unbind.node := congrArg Decl.node heq
  have hkind : d'.unbind.kind = d.unbind.kind := congrArg Decl.kind heq
  have hread := h i d' hd'
  rw [show v.tree = u.tree from htree, show d'.node = d.node from hsame,
    show d'.kind = d.kind from hkind] at hread
  exact hread hnode

theorem ReadsImports.of_text (h : v.ReadsImports) (ht : v.text = u.text) : u.ReadsImports := by
  intro i d hd hk
  obtain ⟨d', hd', heq⟩ := exists_decl_of_text_eq ht hd
  have htree : v.text.tree = u.text.tree := congrArg CompilationUnit.tree ht
  have hsame : d'.unbind.node = d.unbind.node := congrArg Decl.node heq
  have hkind : d'.unbind.kind = d.unbind.kind := congrArg Decl.kind heq
  have hread := h i d' hd'
  rw [show v.tree = u.tree from htree, show d'.node = d.node from hsame,
    show d'.kind = d.kind from hkind] at hread
  exact hread hk

theorem TellsStatics.of_text (h : v.TellsStatics) (ht : v.text = u.text) : u.TellsStatics := by
  intro i d hd
  obtain ⟨d', hd', heq⟩ := exists_decl_of_text_eq ht hd
  have hkind : d'.unbind.kind = d.unbind.kind := congrArg Decl.kind heq
  have hflags : d'.unbind.flags = d.unbind.flags := congrArg Decl.flags heq
  rw [← show d'.kind = d.kind from hkind, ← show d'.flags = d.flags from hflags]
  exact h i d' hd'

/-- A declaration is found in a unit with an equal text, apart from its symbol. -/
theorem exists_decl?_of_text_eq (h : v.text = u.text) {d : DeclId} {x : Decl}
    (hx : u.decl? d = some x) : ∃ x', v.decl? d = some x' ∧ x'.unbind = x.unbind := by
  have hmap : (v.decl? d).map Decl.unbind = some x.unbind := by
    rw [map_unbind_decl?, h, ← map_unbind_decl?, hx]
    rfl
  exact Option.map_eq_some_iff.mp hmap

theorem Nested.of_text (h : v.Nested) (ht : v.text = u.text) : u.Nested := by
  have hid : v.text.id = u.text.id := congrArg CompilationUnit.id ht
  constructor
  · intro i d hd
    obtain ⟨d', hd', heq⟩ := exists_decl_of_text_eq ht hd
    have hchildren : d'.unbind.children = d.unbind.children := congrArg Decl.children heq
    exact (show d'.children = d.children from hchildren) ▸ h.nodup hd'
  · intro i d x hd hx
    obtain ⟨d', hd', heq⟩ := exists_decl_of_text_eq ht hd
    have hchildren : d'.unbind.children = d.unbind.children := congrArg Decl.children heq
    have hsame : d'.unbind.id = d.unbind.id := congrArg Decl.id heq
    obtain ⟨y', hy', hp⟩ := h.child hd' ((show d'.children = d.children from hchildren) ▸ hx)
    obtain ⟨y, hy, hyy⟩ := exists_decl?_of_text_eq ht.symm hy'
    have hparent : y.unbind.parent = y'.unbind.parent := congrArg Decl.parent hyy
    exact ⟨y, hy, hparent.trans (hp.trans (congrArg some hsame))⟩
  · intro i d x hd hp
    obtain ⟨d', hd', heq⟩ := exists_decl_of_text_eq ht hd
    have hparent : d'.unbind.parent = d.unbind.parent := congrArg Decl.parent heq
    exact (h.parent hd' (hparent.trans hp)).trans hid
  · intro i d hd hk
    obtain ⟨d', hd', heq⟩ := exists_decl_of_text_eq ht hd
    have hkind : d'.unbind.kind = d.unbind.kind := congrArg Decl.kind heq
    have hflags : d'.unbind.has .accessor = d.unbind.has .accessor :=
      congrArg (fun y : Decl => y.has .accessor) heq
    have hplain := h.plain hd' (hkind.trans hk)
    rwa [show d'.has .accessor = d.has .accessor from hflags] at hplain

end CompilationUnit

namespace Program

/-- The units as they are collected. -/
def text (p : Program) : List CompilationUnit := p.units.map (·.text)

theorem text_modifyUnit (p : Program) (unit : UnitId) {f : CompilationUnit → CompilationUnit}
    (hf : ∀ u, (f u).text = u.text) : (p.modifyUnit unit f).text = p.text := by
  simp only [text, modifyUnit, List.map_map]
  refine List.map_congr_left fun u _ => ?_
  by_cases hu : u.id = unit <;> simp [hu, hf]

/-- Units with equal texts. -/
theorem exists_of_text_eq {p p' : Program} (h : p'.text = p.text) {u : CompilationUnit}
    (hu : u ∈ p.units) : ∃ u' ∈ p'.units, u'.text = u.text := by
  have hm : u.text ∈ p'.text := h ▸ List.mem_map_of_mem hu
  obtain ⟨u', hu', ht⟩ := List.mem_map.mp hm
  exact ⟨u', hu', ht⟩

theorem map_unbind_decl?_of_text_eq {p p' : Program} (h : p'.text = p.text) (d : DeclId) :
    (p'.decl? d).map Decl.unbind = (p.decl? d).map Decl.unbind := by
  have hfind : ∀ us vs : List CompilationUnit, us.map (·.text) = vs.map (·.text) →
      ((us.find? fun u => u.id == d.unit).bind (·.decl? d)).map Decl.unbind =
        ((vs.find? fun u => u.id == d.unit).bind (·.decl? d)).map Decl.unbind := by
    intro us
    induction us with
    | nil =>
        intro vs hvs
        obtain rfl : vs = [] := by simpa using hvs.symm
        rfl
    | cons u us ih =>
        intro vs hvs
        obtain ⟨v, vs, rfl, huv, hrest⟩ := List.map_eq_cons_iff.mp hvs.symm
        have hid : v.text.id = u.text.id := congrArg (fun t : CompilationUnit => t.id) huv
        replace hid : v.id = u.id := hid
        by_cases hu : u.id = d.unit
        · have hv : v.id = d.unit := hid.trans hu
          simp only [List.find?_cons, hu, hv, beq_self_eq_true, Option.bind_some,
            CompilationUnit.map_unbind_decl?, huv]
        · have hv : v.id ≠ d.unit := hid ▸ hu
          simp only [List.find?_cons, beq_eq_false_iff_ne.mpr hu, beq_eq_false_iff_ne.mpr hv]
          exact ih vs hrest.symm
  exact hfind _ _ h

/-- A declaration is found under an equal text, apart from its symbol. -/
theorem exists_decl?_of_text_eq {p p' : Program} (h : p'.text = p.text) {d : DeclId} {x : Decl}
    (hx : p.decl? d = some x) : ∃ x', p'.decl? d = some x' ∧ x'.unbind = x.unbind := by
  have hmap := map_unbind_decl?_of_text_eq h d
  rw [hx] at hmap
  exact Option.map_eq_some_iff.mp hmap

end Program

end NameBinding
