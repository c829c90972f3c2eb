import Mathlib.Data.List.Find
import NameBinding.Proofs.Graph.Query
import NameBinding.Proofs.Graph.Sound
import NameBinding.Proofs.Graph.Visit

/-! # Looking up members and listing them

Both go along the bases of a type, nearest first. One ends at the first member of a name, the other
keeps the names that it has seen. Main statements: the list holds the same first member for each name,
it leaves out only what a nearer type hides, and all that it holds of one name is from one type. -/

namespace NameBinding.SymbolGraph

variable {g : SymbolGraph} {id cls inst m x y type : SymbolId} {name : String}
  {visible walk : List SymbolId}

/-! ### One type -/

theorem mem_addVisible_iff : x ∈ g.addVisible visible type ↔
    x ∈ visible ∨ (x ∈ g.members type ∧ ∀ y ∈ visible, g.name y ≠ g.name x) := by
  simp [addVisible]

/-- A type adds its members of a name if there is none of that name yet. -/
theorem firstNamed_addVisible : g.firstNamed (g.addVisible visible type) name =
    (g.firstNamed visible name).or (g.firstNamed (g.members type) name) := by
  simp only [firstNamed, addVisible, List.find?_append, List.find?_filter]
  cases hfound : visible.find? fun m => g.name m == name with
  | some m => rfl
  | none =>
      rw [Option.none_or, Option.none_or]
      refine List.find?_congr fun m _ => ?_
      by_cases hm : g.name m = name
      · have hnew : name ∉ visible.map g.name := by
          intro hmem
          obtain ⟨y, hy, hname⟩ := List.mem_map.mp hmem
          have hnone := List.find?_eq_none.mp hfound y hy
          simp [hname] at hnone
        simpa [hm] using hnew
      · simp [hm]

/-! ### All types of a walk -/

/-- By induction on the walk. -/
theorem firstNamed_foldl_addVisible : g.firstNamed (walk.foldl g.addVisible visible) name =
    (g.firstNamed visible name).or
      (walk.findSome? fun type => g.firstNamed (g.members type) name) := by
  induction walk generalizing visible with
  | nil => simp
  | cons type walk ih =>
      rw [List.foldl_cons, ih, firstNamed_addVisible, Option.or_assoc, List.findSome?_cons]
      cases g.firstNamed (g.members type) name <;> simp

theorem mem_foldl_of_mem (hx : x ∈ visible) : x ∈ walk.foldl g.addVisible visible := by
  induction walk generalizing visible with
  | nil => exact hx
  | cons type walk ih => exact ih (mem_addVisible_iff.mpr (.inl hx))

/-- What is listed is a member of a type of the walk. -/
theorem exists_type_of_mem_foldl (hx : x ∈ walk.foldl g.addVisible visible) :
    x ∈ visible ∨ ∃ type ∈ walk, x ∈ g.members type := by
  induction walk generalizing visible with
  | nil => exact .inl hx
  | cons type walk ih =>
      rcases ih hx with hv | ⟨t, ht, hm⟩
      · exact (mem_addVisible_iff.mp hv).imp_right fun h => ⟨type, List.mem_cons_self, h.1⟩
      · exact .inr ⟨t, List.mem_cons_of_mem _ ht, hm⟩

/-- A member that is not listed is hidden by one of an earlier type. -/
theorem listed_or_hidden {before after : List SymbolId} (hm : m ∈ g.members type) :
    m ∈ (before ++ type :: after).foldl g.addVisible [] ∨
      ∃ earlier ∈ before, ∃ x ∈ g.members earlier, g.name x = g.name m := by
  rw [List.foldl_append, List.foldl_cons]
  by_cases hhidden : ∃ x ∈ before.foldl g.addVisible [], g.name x = g.name m
  · obtain ⟨x, hx, hname⟩ := hhidden
    rcases exists_type_of_mem_foldl hx with hnil | ⟨earlier, hearlier, hxm⟩
    · exact absurd hnil List.not_mem_nil
    · exact .inr ⟨earlier, hearlier, x, hxm, hname⟩
  · refine .inl (mem_foldl_of_mem (mem_addVisible_iff.mpr (.inr ⟨hm, fun x hx hname => ?_⟩)))
    exact hhidden ⟨x, hx, hname⟩

/-- Symbols of one name are members of one type. -/
def OneTypeEach (g : SymbolGraph) (visible : List SymbolId) : Prop :=
  ∀ x ∈ visible, ∀ y ∈ visible, g.name x = g.name y → ∃ type, x ∈ g.members type ∧ y ∈ g.members type

theorem OneTypeEach.addVisible (h : g.OneTypeEach visible) :
    g.OneTypeEach (g.addVisible visible type) := by
  intro x hx y hy hname
  rcases mem_addVisible_iff.mp hx with hxv | ⟨hxm, hxnew⟩
  · rcases mem_addVisible_iff.mp hy with hyv | ⟨-, hynew⟩
    · exact h x hxv y hyv hname
    · exact absurd hname (hynew x hxv)
  · rcases mem_addVisible_iff.mp hy with hyv | ⟨hym, -⟩
    · exact absurd hname.symm (hxnew y hyv)
    · exact ⟨type, hxm, hym⟩

/-- By induction on the walk. -/
theorem OneTypeEach.foldl (h : g.OneTypeEach visible) :
    g.OneTypeEach (walk.foldl g.addVisible visible) := by
  induction walk generalizing visible with
  | nil => exact h
  | cons type walk ih => exact ih h.addVisible

/-! ### Looking up and listing -/

theorem isSome_kind?_of_mem_members (hm : m ∈ g.members id) : (g.kind? id).isSome := by
  cases hk : g.kind? id with
  | none => simp [members, listFor, hk] at hm
  | some kind => rfl

theorem member?_of_not_class (hk : g.kind? id ≠ some .classType) :
    g.member? id name = if (g.kind? id).isSome then g.inheritedMember? id name else none := by
  unfold member? memberWithin
  split <;> simp_all

theorem ownMember?_of_not_class (hk : g.kind? id ≠ some .classType) :
    g.ownMember? id name = g.firstNamed (g.members id) name := by
  unfold ownMember? ownMemberWithin
  split
  · next hnone => simp [members, listFor, hnone, firstNamed]
  · next hclass => exact absurd hclass hk
  · rfl

theorem allMembers_of_not_class (hk : g.kind? id ≠ some .classType) : g.allMembers id =
    if (g.kind? id).isSome then (g.heritage Limits.heritageDepth id).foldl g.addVisible []
    else [] := by
  unfold allMembers
  split <;> grind

/-- All bases of a type are on its walk, and what is not listed of one is hidden by a type that comes
before it. -/
theorem allMembers_of_distance {n : Nat} (hk : g.kind? id ≠ some .classType)
    (hn : n ≤ Limits.heritageDepth) (hd : Walk.Distance g.ListsBase n id type) :
    ∃ before after, g.heritage Limits.heritageDepth id = before ++ type :: after ∧
      ∀ m ∈ g.members type, m ∈ g.allMembers id ∨
        ∃ earlier ∈ before, ∃ x ∈ g.members earlier, g.name x = g.name m := by
  obtain ⟨before, after, hwalk⟩ := List.append_of_mem (mem_heritage_iff.mpr ⟨n, hn, hd⟩)
  refine ⟨before, after, hwalk, fun m hm => ?_⟩
  have hkind : (g.kind? id).isSome := by
    cases hd.1 with
    | nil => exact isSome_kind?_of_mem_members hm
    | cons hbase _ =>
        obtain ⟨kind, hkind, -⟩ := hbase.1
        simp [hkind]
  rw [allMembers_of_not_class hk, if_pos hkind, hwalk]
  exact listed_or_hidden hm

theorem oneTypeEach_allMembers : g.OneTypeEach (g.allMembers id) := by
  have hnil : g.OneTypeEach [] := fun x hx => absurd hx List.not_mem_nil
  unfold allMembers
  dsimp only
  split
  · exact hnil
  · exact hnil.foldl

/-- Looking up a member and listing all of them agree. -/
theorem member?_eq_firstNamed (hk : g.kind? id ≠ some .classType) :
    g.member? id name = g.firstNamed (g.allMembers id) name := by
  rw [member?_of_not_class hk, allMembers_of_not_class hk]
  split
  · rw [firstNamed_foldl_addVisible, inheritedMember?]
    rfl
  · rfl

/-! ### Own members -/

/-- A walk along bases begins at its start. -/
theorem exists_heritage_eq_cons (g : SymbolGraph) (depth : Nat) (id : SymbolId) :
    ∃ bases, g.heritage depth id = id :: bases := by
  rw [← walkHeritage_never, walkHeritage, Walk.tour]
  exact ⟨_, rfl⟩

/-- A member of the type itself comes before those of its bases. -/
theorem member?_eq_of_ownMember? (hk : g.kind? id ≠ some .classType)
    (hown : g.ownMember? id name = some m) : g.member? id name = some m := by
  rw [ownMember?_of_not_class hk] at hown
  have hkind : (g.kind? id).isSome :=
    isSome_kind?_of_mem_members (List.mem_of_find?_eq_some hown)
  obtain ⟨bases, hwalk⟩ := g.exists_heritage_eq_cons Limits.heritageDepth id
  rw [member?_of_not_class hk, if_pos hkind, inheritedMember?, hwalk, List.findSome?_cons, hown]

/-! ### Both sides of a class -/

/-- A class and its instance side. -/
structure Side (g : SymbolGraph) (cls inst : SymbolId) : Prop where
  kind?_class : g.kind? cls = some .classType
  instanceType? : g.instanceType? cls = some inst
  kind?_instance : g.kind? inst = some .instanceType

theorem Sound.side (h : g.Sound) (hi : g.instanceType? cls = some inst) : g.Side cls inst :=
  have hside := h.isSide (hasEdge_of_instanceType? h.toMirrored hi)
  ⟨hside.1, hi, hside.2.1⟩

theorem Side.exists_size (h : g.Side cls inst) : ∃ n, g.size = n + 1 :=
  Nat.exists_eq_succ_of_ne_zero (Nat.ne_zero_of_lt (lt_size_of_kind? h.kind?_instance))

theorem Side.member?_eq (h : g.Side cls inst) : g.member? cls name =
    (g.member? inst name).or (g.firstNamed (g.staticMembers cls) name) := by
  obtain ⟨n, hn⟩ := h.exists_size
  simp only [member?, memberWithin, h.kind?_class, h.instanceType?, h.kind?_instance, hn, Option.bind_some]

theorem Side.ownMember?_eq (h : g.Side cls inst) : g.ownMember? cls name =
    (g.ownMember? inst name).or (g.firstNamed (g.members cls) name) := by
  obtain ⟨n, hn⟩ := h.exists_size
  simp only [ownMember?, ownMemberWithin, h.kind?_class, h.instanceType?, h.kind?_instance, hn, Option.bind_some]

theorem Side.allMembers_eq (h : g.Side cls inst) : g.allMembers cls = g.allMembers inst := by
  simp only [allMembers, h.kind?_class, h.instanceType?, h.kind?_instance]

theorem member?_of_lone_class (hk : g.kind? cls = some .classType) (hi : g.instanceType? cls = none) :
    g.member? cls name = g.firstNamed (g.staticMembers cls) name := by
  simp only [member?, memberWithin, hk, hi, Option.bind_none, Option.none_or]

theorem ownMember?_of_lone_class (hk : g.kind? cls = some .classType)
    (hi : g.instanceType? cls = none) :
    g.ownMember? cls name = g.firstNamed (g.members cls) name := by
  simp only [ownMember?, ownMemberWithin, hk, hi, Option.bind_none, Option.none_or]

end NameBinding.SymbolGraph
