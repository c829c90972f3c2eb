import Mathlib.Data.List.Nodup
import NameBinding.Program.Basic

/-! # Well-formed programs

Units have different numbers and different paths, and a declaration stands at the place that its
number says. -/

namespace NameBinding

/-- The kind tells whether a member is static: of methods and fields at most constructors have the
mark. -/
def DeclKind.TellsStatic (kind : DeclKind) (flags : Flags DeclFlag) : Prop :=
  kind = .method ∨ kind = .field → flags.has .constructor ∨ ¬flags.has .static

namespace CompilationUnit

/-- Each declaration has the number of its unit and of its place. -/
def Numbered (u : CompilationUnit) : Prop :=
  ∀ (i : Nat) (d : Decl), u.decls[i]? = some d → d.id = ⟨u.id, i⟩

/-- Children know their parent, which is in the same unit, and parameters are no accessors. -/
structure Nested (u : CompilationUnit) : Prop where
  nodup : ∀ {i : Nat} {d : Decl}, u.decls[i]? = some d → d.children.Nodup
  child : ∀ {i : Nat} {d : Decl} {x : DeclId}, u.decls[i]? = some d → x ∈ d.children →
    ∃ child, u.decl? x = some child ∧ child.parent = some d.id
  parent : ∀ {i : Nat} {d : Decl} {x : DeclId}, u.decls[i]? = some d → d.parent = some x →
    x.unit = u.id
  plain : ∀ {i : Nat} {d : Decl}, u.decls[i]? = some d → d.kind = .argument → ¬d.has .accessor

/-- Only interfaces have the node of one. A script has the node of the root, whatever that is. -/
def ReadsInterfaces (u : CompilationUnit) : Prop :=
  ∀ (i : Nat) (d : Decl), u.decls[i]? = some d → (u.tree.interfaceDecl? d.node).isSome →
    d.kind = .interface ∨ d.kind = .script

/-- Imports have the node of one. -/
def ReadsImports (u : CompilationUnit) : Prop :=
  ∀ (i : Nat) (d : Decl), u.decls[i]? = some d → d.kind = .import →
    ∃ i, u.tree.record? d.node = some (.importEquals i)

/-- The kinds of all declarations tell whether they are static. -/
def TellsStatics (u : CompilationUnit) : Prop :=
  ∀ (i : Nat) (d : Decl), u.decls[i]? = some d → d.kind.TellsStatic d.flags

/-- No declaration is bound yet. -/
def Unbound (u : CompilationUnit) : Prop :=
  ∀ (i : Nat) (d : Decl), u.decls[i]? = some d → d.symbol = none

theorem decl?_eq_some {u : CompilationUnit} {d : DeclId} {x : Decl} (h : u.decl? d = some x) :
    d.unit = u.id ∧ u.decls[d.index]? = some x := by
  unfold decl? at h
  split at h
  · next hd => exact ⟨hd, h⟩
  · exact absurd h (by simp)

/-- A declaration of a unit is found by its number. -/
theorem Numbered.decl?_id {u : CompilationUnit} (h : u.Numbered) {x : Decl}
    (hx : x ∈ u.decls.toList) : u.decl? x.id = some x := by
  obtain ⟨i, hi⟩ := List.mem_iff_getElem?.mp hx
  rw [Array.getElem?_toList] at hi
  rw [h i x hi, decl?, if_pos rfl, hi]

theorem Numbered.id_eq {u : CompilationUnit} (h : u.Numbered) {d : DeclId} {x : Decl}
    (hx : u.decl? d = some x) : x.id = d := by
  obtain ⟨hu, hi⟩ := decl?_eq_some hx
  rw [h _ x hi, ← hu]

@[simp] theorem id_modifyDecl (u : CompilationUnit) (d : DeclId) (f : Decl → Decl) :
    (u.modifyDecl d f).id = u.id := by
  unfold modifyDecl
  split <;> rfl

@[simp] theorem path_modifyDecl (u : CompilationUnit) (d : DeclId) (f : Decl → Decl) :
    (u.modifyDecl d f).path = u.path := by
  unfold modifyDecl
  split <;> rfl

theorem decl?_modifyDecl (u : CompilationUnit) (d x : DeclId) (f : Decl → Decl) :
    (u.modifyDecl d f).decl? x = if x = d then (u.decl? x).map f else u.decl? x := by
  obtain ⟨unit, index⟩ := d
  obtain ⟨unit', index'⟩ := x
  simp only [decl?, id_modifyDecl, DeclId.mk.injEq]
  by_cases hu' : unit' = u.id
  · by_cases hu : unit = u.id
    · simp only [modifyDecl, hu, hu', if_true, Array.getElem?_modify, true_and]
      grind
    · simp [modifyDecl, hu, hu', Ne.symm hu]
  · simp [hu']

theorem Numbered.modifyDecl {u : CompilationUnit} (h : u.Numbered) (d : DeclId) {f : Decl → Decl}
    (hf : ∀ x, (f x).id = x.id) : (u.modifyDecl d f).Numbered := by
  intro i x hx
  rw [id_modifyDecl]
  unfold CompilationUnit.modifyDecl at hx
  split at hx
  · rw [Array.getElem?_modify] at hx
    split at hx
    · obtain ⟨y, hy, rfl⟩ := Option.map_eq_some_iff.mp hx
      rw [hf, h i y hy]
    · exact h i x hx
  · exact h i x hx

end CompilationUnit

namespace Program

/-- Units have different numbers below the next one, and different paths. -/
structure WellFormed (p : Program) : Prop where
  nodup_ids : (p.units.map (·.id)).Nodup
  nodup_paths : p.paths.Nodup
  lt_next : ∀ u ∈ p.units, u.id < p.nextUnit
  numbered : ∀ u ∈ p.units, u.Numbered

variable {p : Program}

namespace WellFormed

theorem empty : WellFormed {} := by
  constructor <;> simp [paths]

theorem eq_of_id (h : p.WellFormed) {u v : CompilationUnit} (hu : u ∈ p.units) (hv : v ∈ p.units)
    (hid : u.id = v.id) : u = v :=
  List.inj_on_of_nodup_map h.nodup_ids hu hv hid

theorem eq_of_path (h : p.WellFormed) {u v : CompilationUnit} (hu : u ∈ p.units)
    (hv : v ∈ p.units) (hpath : u.path = v.path) : u = v :=
  List.inj_on_of_nodup_map h.nodup_paths hu hv hpath

theorem unitById?_eq_some_iff (h : p.WellFormed) {id : UnitId} {u : CompilationUnit} :
    p.unitById? id = some u ↔ u ∈ p.units ∧ u.id = id := by
  unfold unitById?
  constructor
  · intro hu
    exact ⟨List.mem_of_find?_eq_some hu, by simpa using List.find?_some hu⟩
  · rintro ⟨hu, rfl⟩
    cases hf : p.units.find? fun v => v.id == u.id with
    | none => exact absurd (beq_self_eq_true u.id) (List.find?_eq_none.mp hf u hu)
    | some v =>
        have hv : v.id = u.id := by simpa using List.find?_some hf
        rw [h.eq_of_id (List.mem_of_find?_eq_some hf) hu hv]

theorem unit?_eq_some_iff (h : p.WellFormed) {path : String} {u : CompilationUnit} :
    p.unit? path = some u ↔ u ∈ p.units ∧ u.path = path := by
  unfold unit?
  constructor
  · intro hu
    exact ⟨List.mem_of_find?_eq_some hu, by simpa using List.find?_some hu⟩
  · rintro ⟨hu, rfl⟩
    cases hf : p.units.find? fun v => v.path == u.path with
    | none => exact absurd (beq_self_eq_true u.path) (List.find?_eq_none.mp hf u hu)
    | some v =>
        have hv : v.path = u.path := by simpa using List.find?_some hf
        rw [h.eq_of_path (List.mem_of_find?_eq_some hf) hu hv]

theorem decl?_eq_some_iff (h : p.WellFormed) {d : DeclId} {x : Decl} :
    p.decl? d = some x ↔ ∃ u ∈ p.units, u.decl? d = some x := by
  simp only [decl?, Option.bind_eq_some_iff, h.unitById?_eq_some_iff]
  constructor
  · rintro ⟨u, ⟨hu, -⟩, hx⟩
    exact ⟨u, hu, hx⟩
  · rintro ⟨u, hu, hx⟩
    exact ⟨u, ⟨hu, (CompilationUnit.decl?_eq_some hx).1.symm⟩, hx⟩

/-- A declaration that is found by a number has that number. -/
theorem id_eq (h : p.WellFormed) {d : DeclId} {x : Decl} (hx : p.decl? d = some x) : x.id = d := by
  obtain ⟨u, hu, hx⟩ := h.decl?_eq_some_iff.mp hx
  exact (h.numbered u hu).id_eq hx

/-- The declarations of the units are those that are found. -/
theorem decl?_id (h : p.WellFormed) {u : CompilationUnit} (hu : u ∈ p.units) {x : Decl}
    (hx : x ∈ u.decls.toList) : p.decl? x.id = some x :=
  h.decl?_eq_some_iff.mpr ⟨u, hu, (h.numbered u hu).decl?_id hx⟩

end WellFormed

/-! ### Changes -/

theorem unitById?_modifyUnit (p : Program) (id x : UnitId) {f : CompilationUnit → CompilationUnit}
    (hf : ∀ u, (f u).id = u.id) :
    (p.modifyUnit id f).unitById? x = if x = id then (p.unitById? x).map f else p.unitById? x := by
  simp only [unitById?, modifyUnit]
  induction p.units with
  | nil => simp
  | cons u us ih =>
      by_cases hu : u.id = id <;> by_cases hx : u.id = x <;> grind

theorem WellFormed.modifyUnit (h : p.WellFormed) (id : UnitId)
    {f : CompilationUnit → CompilationUnit} (hid : ∀ u, (f u).id = u.id)
    (hpath : ∀ u, (f u).path = u.path) (hnum : ∀ u : CompilationUnit, u.Numbered → (f u).Numbered) :
    (p.modifyUnit id f).WellFormed := by
  have hids : (p.modifyUnit id f).units.map (·.id) = p.units.map (·.id) := by
    simp only [Program.modifyUnit, List.map_map]
    refine List.map_congr_left fun u _ => ?_
    by_cases hu : u.id = id <;> simp [hu, hid]
  have hpaths : (p.modifyUnit id f).paths = p.paths := by
    simp only [paths, Program.modifyUnit, List.map_map]
    refine List.map_congr_left fun u _ => ?_
    by_cases hu : u.id = id <;> simp [hu, hpath]
  constructor
  · rw [hids]
    exact h.nodup_ids
  · rw [hpaths]
    exact h.nodup_paths
  · intro u hu
    have hm : u.id ∈ p.units.map (·.id) := hids ▸ List.mem_map_of_mem hu
    obtain ⟨v, hv, hvu⟩ := List.mem_map.mp hm
    exact hvu ▸ h.lt_next v hv
  · intro u hu
    obtain ⟨v, hv, rfl⟩ := List.mem_map.mp hu
    split
    · exact hnum v (h.numbered v hv)
    · exact h.numbered v hv

/-- A declaration is changed where it stands. -/
theorem decl?_modifyDecl (p : Program) (d x : DeclId) (f : Decl → Decl) :
    (p.modifyUnit d.unit (·.modifyDecl d f)).decl? x =
      if x = d then (p.decl? x).map f else p.decl? x := by
  rw [decl?, unitById?_modifyUnit p d.unit x.unit (by intro u; simp), decl?]
  split
  · cases p.unitById? x.unit with
    | none => simp
    | some u => simp [CompilationUnit.decl?_modifyDecl]
  · next hu =>
    have hne : x ≠ d := fun hxd => hu (congrArg DeclId.unit hxd)
    rw [if_neg hne]

theorem decl?_addTopLevel (p : Program) (unit : UnitId) (name : String) (symbol : SymbolId)
    (x : DeclId) : (p.modifyUnit unit (·.addTopLevel name symbol)).decl? x = p.decl? x := by
  rw [decl?, unitById?_modifyUnit p unit x.unit (by intro u; rfl), decl?]
  split
  · cases p.unitById? x.unit <;> rfl
  · rfl

/-- The symbol that a declaration is bound to. -/
def symbol? (p : Program) (d : DeclId) : Option SymbolId := (p.decl? d).bind (·.symbol)

theorem symbol?_addTopLevel (p : Program) (unit : UnitId) (name : String) (symbol : SymbolId)
    (x : DeclId) : (p.modifyUnit unit (·.addTopLevel name symbol)).symbol? x = p.symbol? x := by
  rw [symbol?, decl?_addTopLevel, symbol?]

/-- A declaration keeps the symbol that it was bound to first. -/
theorem symbol?_bindTo (p : Program) (d x : DeclId) (symbol : SymbolId) :
    (p.modifyUnit d.unit (·.modifyDecl d (·.bindTo symbol))).symbol? x =
      if x = d then (p.decl? x).map fun y => y.symbol.getD symbol else p.symbol? x := by
  rw [symbol?, decl?_modifyDecl]
  split
  · cases p.decl? x with
    | none => rfl
    | some y => exact Decl.symbol_bindTo y symbol
  · rfl

/-- A unit with a new number and a new path. -/
theorem WellFormed.add (h : p.WellFormed) {u : CompilationUnit} (hid : u.id = p.nextUnit)
    (hpath : u.path ∉ p.paths) (hnum : u.Numbered) :
    (Program.add { p with nextUnit := p.nextUnit + 1 } u).WellFormed := by
  constructor
  · simp only [Program.add, List.map_append, List.map_cons, List.map_nil]
    refine List.nodup_append.mpr ⟨h.nodup_ids, List.nodup_singleton _, ?_⟩
    rintro a ha b hb rfl
    obtain ⟨v, hv, hva⟩ := List.mem_map.mp ha
    have hlt := h.lt_next v hv
    rw [hva, List.mem_singleton.mp hb, hid] at hlt
    exact Nat.lt_irrefl _ hlt
  · simp only [Program.add, paths, List.map_append, List.map_cons, List.map_nil]
    refine List.nodup_append.mpr ⟨h.nodup_paths, List.nodup_singleton _, ?_⟩
    rintro a ha b hb rfl
    exact hpath (List.mem_singleton.mp hb ▸ ha)
  · intro v hv
    rcases List.mem_append.mp hv with hv | hv
    · exact Nat.lt_succ_of_lt (h.lt_next v hv)
    · rw [List.mem_singleton.mp hv, hid]
      exact Nat.lt_succ_self _
  · intro v hv
    rcases List.mem_append.mp hv with hv | hv
    · exact h.numbered v hv
    · exact List.mem_singleton.mp hv ▸ hnum

theorem WellFormed.decl?_add_iff (h : p.WellFormed) {u : CompilationUnit} (hid : u.id = p.nextUnit)
    (hpath : u.path ∉ p.paths) (hnum : u.Numbered) {d : DeclId} {x : Decl} :
    (Program.add { p with nextUnit := p.nextUnit + 1 } u).decl? d = some x ↔
      p.decl? d = some x ∨ u.decl? d = some x := by
  rw [(h.add hid hpath hnum).decl?_eq_some_iff, h.decl?_eq_some_iff]
  constructor
  · rintro ⟨v, hv, hx⟩
    rcases List.mem_append.mp hv with hv | hv
    · exact .inl ⟨v, hv, hx⟩
    · exact .inr (List.mem_singleton.mp hv ▸ hx)
  · rintro (⟨v, hv, hx⟩ | hx)
    · exact ⟨v, List.mem_append_left _ hv, hx⟩
    · exact ⟨u, List.mem_append_right _ (List.mem_singleton_self u), hx⟩

theorem mem_remove {path : String} {u : CompilationUnit} :
    u ∈ (p.remove path).units ↔ u ∈ p.units ∧ u.path ≠ path := by
  simp [Program.remove]

theorem WellFormed.remove (h : p.WellFormed) (path : String) : (p.remove path).WellFormed := by
  have hsub : (p.remove path).units.Sublist p.units := List.filter_sublist
  constructor
  · exact h.nodup_ids.sublist (hsub.map _)
  · exact h.nodup_paths.sublist (hsub.map _)
  · exact fun u hu => h.lt_next u (hsub.subset hu)
  · exact fun u hu => h.numbered u (hsub.subset hu)

/-- Without a unit, the declarations of the other units are found. -/
theorem WellFormed.decl?_remove_iff (h : p.WellFormed) {u : CompilationUnit} (hu : u ∈ p.units)
    {d : DeclId} {x : Decl} :
    (p.remove u.path).decl? d = some x ↔ p.decl? d = some x ∧ d.unit ≠ u.id := by
  rw [(h.remove u.path).decl?_eq_some_iff, h.decl?_eq_some_iff]
  constructor
  · rintro ⟨v, hv, hx⟩
    obtain ⟨hv, hne⟩ := mem_remove.mp hv
    refine ⟨⟨v, hv, hx⟩, fun hd => hne ?_⟩
    have hid : v.id = u.id := (CompilationUnit.decl?_eq_some hx).1.symm.trans hd
    rw [h.eq_of_id hv hu hid]
  · rintro ⟨⟨v, hv, hx⟩, hd⟩
    refine ⟨v, mem_remove.mpr ⟨hv, fun hpath => hd ?_⟩, hx⟩
    rw [← h.eq_of_path hv hu hpath]
    exact (CompilationUnit.decl?_eq_some hx).1

end Program

end NameBinding
