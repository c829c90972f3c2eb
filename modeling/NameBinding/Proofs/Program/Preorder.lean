import Mathlib.Data.Nat.Find
import Mathlib.Logic.Relation
import NameBinding.Proofs.Program.Collect
import NameBinding.Proofs.Program.Scopes

/-! # Declarations in preorder

A new declaration goes to the end and below the innermost open scope. What carries the order is that
below each open scope stands everything that was declared since: so the declarations below any other
one are those that follow it, up to some place.

Main statement: whatever the tree, the root and the limit, the collected declarations are a tree in
preorder, and the maps between nodes and declarations agree with it. -/

namespace NameBinding

namespace CompilationUnit

/-- The second place is a declaration right below the first. -/
def Parent (u : CompilationUnit) (p i : Nat) : Prop :=
  ∃ d, u.decls[i]? = some d ∧ d.parent = some ⟨u.id, p⟩

/-- The second place is a declaration anywhere below the first. -/
def Below (u : CompilationUnit) : Nat → Nat → Prop := Relation.TransGen u.Parent

/-- The answer is the last declaration from the node, if there is any. -/
def Latest (u : CompilationUnit) (r : NodeRef) : Option DeclId → Prop
  | some y => ∃ d, u.decl? y = some d ∧ d.node = r ∧
      ∀ (i : Nat) (x : Decl), u.decls[i]? = some x → x.node = r → i ≤ y.index
  | none => ∀ (i : Nat) (x : Decl), u.decls[i]? = some x → x.node ≠ r

/-- The declarations of a unit are a tree in preorder, and are found by their nodes. -/
structure Preordered (u : CompilationUnit) : Prop where
  numbered : ∀ (i : Nat) (d : Decl), u.decls[i]? = some d → d.id = ⟨u.id, i⟩
  first : ∀ d : Decl, u.decls[0]? = some d → d.parent = none
  parent : ∀ (i : Nat) (d : Decl), u.decls[i]? = some d → i ≠ 0 →
    ∃ p < i, d.parent = some ⟨u.id, p⟩
  /-- A declaration is listed once by its parent, and by no other declaration. -/
  count : ∀ (i p : Nat) (d x : Decl), u.decls[i]? = some d → u.decls[p]? = some x →
    x.children.count d.id = if d.parent = some x.id then 1 else 0
  /-- Nothing but declarations is listed. -/
  child : ∀ (p : Nat) (x : Decl) (y : DeclId), u.decls[p]? = some x → y ∈ x.children →
    (u.decl? y).isSome
  increasing : ∀ (p : Nat) (x : Decl), u.decls[p]? = some x →
    x.children.Pairwise fun y z => y.index < z.index
  /-- What is below a declaration comes right after it. -/
  contiguous : ∀ i, ∃ n, ∀ j, u.Below i j ↔ i < j ∧ j ≤ i + n
  latest : ∀ r, u.Latest r (u.declOfNode? r)
  inverse : ∀ r y, u.declOfNode? r = some y → u.nodeOfDecl? y = some r

/-! ### What holds while declarations are added -/

/-- Everything after the declaration is below it. -/
def EndsWith (u : CompilationUnit) (y : DeclId) : Prop :=
  y.unit = u.id ∧ y.index < u.decls.size ∧
    ∀ j, y.index < j → j < u.decls.size → u.Below y.index j

structure Growing (u : CompilationUnit) : Prop where
  numbered : u.Numbered
  first : ∀ {d : Decl}, u.decls[0]? = some d → d.parent = none
  parent : ∀ {i : Nat} {d : Decl}, u.decls[i]? = some d → i ≠ 0 →
    ∃ p < i, d.parent = some ⟨u.id, p⟩
  mem_children : ∀ {p : Nat} {x : Decl} {y : DeclId}, u.decls[p]? = some x →
    (y ∈ x.children ↔ y.unit = u.id ∧ u.Parent p y.index)
  increasing : ∀ {p : Nat} {x : Decl}, u.decls[p]? = some x →
    x.children.Pairwise fun y z => y.index < z.index
  /-- What stands between a declaration and one below it is below it too. -/
  convex : ∀ {p j k : Nat}, u.Below p k → p < j → j ≤ k → u.Below p j
  latest : ∀ r, u.Latest r (u.declOfNode? r)

variable {u : CompilationUnit} {d : Decl}

theorem lt_size_of_getElem? {i : Nat} (h : u.decls[i]? = some d) : i < u.decls.size :=
  (Array.getElem?_eq_some_iff.mp h).1

namespace Growing

theorem parent_lt (h : u.Growing) {p i : Nat} (hp : u.Parent p i) : p < i ∧ i < u.decls.size := by
  obtain ⟨d, hd, hparent⟩ := hp
  have hi : i ≠ 0 := by
    rintro rfl
    exact absurd (h.first hd) (by simp [hparent])
  obtain ⟨p', hlt, hp'⟩ := h.parent hd hi
  obtain rfl : p = p' := by simpa [hparent] using hp'
  exact ⟨hlt, lt_size_of_getElem? hd⟩

theorem below_lt (h : u.Growing) {p i : Nat} (hb : u.Below p i) : p < i ∧ i < u.decls.size := by
  induction hb with
  | single hp => exact h.parent_lt hp
  | tail _ hp ih => exact ⟨Nat.lt_trans ih.1 (h.parent_lt hp).1, (h.parent_lt hp).2⟩

/-- The range ends with the last declaration that is below. -/
theorem contiguous (h : u.Growing) (i : Nat) :
    ∃ n, ∀ j, u.Below i j ↔ i < j ∧ j ≤ i + n := by
  classical
  let n := Nat.findGreatest (fun n => u.Below i (i + n)) u.decls.size
  refine ⟨n, fun j => ⟨fun hj => ?_, ?_⟩⟩
  · obtain ⟨hlt, hsize⟩ := h.below_lt hj
    have hle : j - i ≤ n :=
      Nat.le_findGreatest (by omega) (by rwa [Nat.add_sub_cancel' (Nat.le_of_lt hlt)])
    exact ⟨hlt, by omega⟩
  · rintro ⟨hlt, hle⟩
    have hlast : u.Below i (i + n) :=
      Nat.findGreatest_of_ne_zero (P := fun n => u.Below i (i + n)) rfl (show n ≠ 0 by omega)
    exact h.convex hlast hlt hle

theorem nodup_children (h : u.Growing) {p : Nat} {x : Decl} (hx : u.decls[p]? = some x) :
    x.children.Nodup :=
  (h.increasing hx).imp fun hlt heq => absurd (congrArg DeclId.index heq) (Nat.ne_of_lt hlt)

theorem count (h : u.Growing) {i p : Nat} {x : Decl} (hd : u.decls[i]? = some d)
    (hx : u.decls[p]? = some x) :
    x.children.count d.id = if d.parent = some x.id then 1 else 0 := by
  have hmem : d.id ∈ x.children ↔ d.parent = some x.id := by
    rw [h.mem_children hx, h.numbered i d hd, h.numbered p x hx]
    simp [Parent, hd]
  split
  · next hin => exact List.count_eq_one_of_mem (h.nodup_children hx) (hmem.mpr hin)
  · next hout => exact List.count_eq_zero_of_not_mem fun hin => hout (hmem.mp hin)

theorem preordered (h : u.Growing) : u.Preordered where
  numbered := h.numbered
  first _ hd := h.first hd
  parent _ _ hd hi := h.parent hd hi
  count _ _ _ _ hd hx := h.count hd hx
  child _ _ y hx hy := by
    obtain ⟨hunit, d, hd, -⟩ := (h.mem_children hx).mp hy
    rw [decl?, if_pos hunit, hd]
    rfl
  increasing _ _ hx := h.increasing hx
  contiguous := h.contiguous
  latest := h.latest
  inverse r y hy := by
    obtain ⟨d, hd, hnode, -⟩ : u.Latest r (some y) := hy ▸ h.latest r
    rw [nodeOfDecl?, hd, Option.map_some, hnode]

end Growing

/-! ### One more declaration -/

theorem size_addDecl (u : CompilationUnit) (d : Decl) :
    (u.addDecl d).decls.size = u.decls.size + 1 := by
  unfold addDecl modifyDecl
  dsimp only
  split
  · split <;> simp
  · simp

theorem declOfNode?_addDecl (u : CompilationUnit) (d : Decl) (r : NodeRef) :
    (u.addDecl d).declOfNode? r = if r = d.node then some d.id else u.declOfNode? r := by
  have hmap : (u.addDecl d).declsByNode = (d.node, d.id) :: u.declsByNode := by
    unfold addDecl modifyDecl
    dsimp only
    split
    · split <;> rfl
    · rfl
  rw [declOfNode?, hmap, List.lookup_cons]
  by_cases hr : r = d.node
  · simp [hr]
  · simp [hr, beq_eq_false_iff_ne.mpr hr, declOfNode?]

theorem getElem?_addDecl_size (hd : d.parent ≠ some ⟨u.id, u.decls.size⟩) :
    (u.addDecl d).decls[u.decls.size]? = some d := by
  rw [getElem?_addDecl, Array.getElem?_push, if_pos rfl, Option.map_some, withChild, if_neg hd]

theorem parent_addDecl_iff {p i : Nat} : (u.addDecl d).Parent p i ↔
    u.Parent p i ∨ (i = u.decls.size ∧ d.parent = some ⟨u.id, p⟩) := by
  unfold Parent
  rw [id_addDecl, getElem?_addDecl]
  constructor
  · rintro ⟨x, hx, hp⟩
    obtain ⟨y, hy, rfl⟩ := Option.map_eq_some_iff.mp hx
    rw [parent_withChild] at hp
    rcases eq_or_of_getElem?_push hy with hy | ⟨hi, rfl⟩
    · exact .inl ⟨y, hy, hp⟩
    · exact .inr ⟨hi, hp⟩
  · rintro (⟨x, hx, hp⟩ | ⟨rfl, hp⟩)
    · refine ⟨withChild u.id d i x, ?_, (parent_withChild ..).trans hp⟩
      rw [Array.getElem?_push, if_neg (Nat.ne_of_lt (lt_size_of_getElem? hx)), hx, Option.map_some]
    · exact ⟨withChild u.id d u.decls.size d, by simp, (parent_withChild ..).trans hp⟩

theorem Below.addDecl {p i : Nat} (h : u.Below p i) : (u.addDecl d).Below p i :=
  Relation.TransGen.mono (fun _ _ hp => parent_addDecl_iff.mpr (.inl hp)) p i h

section Growing

variable (h : u.Growing) {q : Nat} (hq : q < u.decls.size) (hparent : d.parent = some ⟨u.id, q⟩)

include h hq hparent

/-- Below the new declaration is nothing, and it is below its parent and what is above that. -/
theorem below_addDecl_iff {p j : Nat} : (u.addDecl d).Below p j ↔
    u.Below p j ∨ (j = u.decls.size ∧ (p = q ∨ u.Below p q)) := by
  have hnew : (u.addDecl d).Parent q u.decls.size := parent_addDecl_iff.mpr (.inr ⟨rfl, hparent⟩)
  have hstep : ∀ {a b}, (u.addDecl d).Parent a b → u.Parent a b ∨ (b = u.decls.size ∧ a = q) := by
    intro a b hab
    refine (parent_addDecl_iff.mp hab).imp_right fun hb => ⟨hb.1, ?_⟩
    simpa [hparent, eq_comm] using hb.2
  constructor
  · intro hb
    induction hb with
    | single hp =>
        rcases hstep hp with hp | ⟨hb, rfl⟩
        · exact .inl (.single hp)
        · exact .inr ⟨hb, .inl rfl⟩
    | tail _ hp ih =>
        rcases hstep hp with hp | ⟨hc, rfl⟩
        · rcases ih with ih | ⟨rfl, -⟩
          · exact .inl (.tail ih hp)
          · exact absurd (h.parent_lt hp) (by omega)
        · rcases ih with ih | ⟨hb, -⟩
          · exact .inr ⟨hc, .inr ih⟩
          · exact absurd hb (Nat.ne_of_lt hq)
  · rintro (hb | ⟨rfl, rfl | hb⟩)
    · exact hb.addDecl
    · exact .single hnew
    · exact .tail hb.addDecl hnew

/-- What was above everything since stays so, if the new declaration is not above it. -/
theorem EndsWith.addDecl {y : DeclId} (hy : u.EndsWith y) (hle : y.index ≤ q) :
    (u.addDecl d).EndsWith y := by
  obtain ⟨hunit, hlt, hbelow⟩ := hy
  refine ⟨hunit.trans (id_addDecl u d).symm, by rw [size_addDecl]; omega, fun j hj hsize => ?_⟩
  rw [size_addDecl] at hsize
  rw [below_addDecl_iff h hq hparent]
  rcases Nat.lt_succ_iff_lt_or_eq.mp hsize with hj' | rfl
  · exact .inl (hbelow j hj hj')
  · refine .inr ⟨rfl, ?_⟩
    rcases Nat.eq_or_lt_of_le hle with heq | hlt'
    · exact .inl heq
    · exact .inr (hbelow q hlt' hq)

omit h hq hparent in
theorem endsWith_nextDecl_addDecl (u : CompilationUnit) (d : Decl) :
    (u.addDecl d).EndsWith u.nextDecl := by
  refine ⟨(id_addDecl u d).symm, ?_, fun j hj hsize => ?_⟩
  · rw [size_addDecl]
    exact Nat.lt_succ_self _
  · rw [size_addDecl] at hsize
    exact absurd hj (Nat.not_lt.mpr (Nat.lt_succ_iff.mp hsize))

omit h in
/-- The old declarations keep all but their children. -/
theorem eq_or_of_getElem?_addDecl {i : Nat} {x : Decl} (hx : (u.addDecl d).decls[i]? = some x) :
    (∃ y, u.decls[i]? = some y ∧ x = withChild u.id d i y) ∨ (i = u.decls.size ∧ x = d) := by
  have hlast : (u.addDecl d).decls[u.decls.size]? = some d :=
    getElem?_addDecl_size (by simp [hparent, Nat.ne_of_lt hq])
  by_cases hi : i = u.decls.size
  · subst hi
    exact .inr ⟨rfl, Option.some.inj (hx.symm.trans hlast)⟩
  · rw [getElem?_addDecl, Array.getElem?_push, if_neg hi] at hx
    obtain ⟨y, hy, rfl⟩ := Option.map_eq_some_iff.mp hx
    exact .inl ⟨y, hy, rfl⟩

theorem mem_children_addDecl (hid : d.id = u.nextDecl) (hchildren : d.children = []) {p : Nat}
    {x : Decl} {y : DeclId} (hx : (u.addDecl d).decls[p]? = some x) :
    y ∈ x.children ↔ y.unit = (u.addDecl d).id ∧ (u.addDecl d).Parent p y.index := by
  rw [id_addDecl, parent_addDecl_iff]
  rcases eq_or_of_getElem?_addDecl hq hparent hx with ⟨z, hz, rfl⟩ | ⟨rfl, rfl⟩
  · rw [mem_children_withChild, h.mem_children hz, hid]
    constructor
    · rintro (⟨hunit, hp⟩ | ⟨hp, rfl⟩)
      · exact ⟨hunit, .inl hp⟩
      · exact ⟨rfl, .inr ⟨rfl, hp⟩⟩
    · rintro ⟨hunit, hp | ⟨hindex, hp⟩⟩
      · exact .inl ⟨hunit, hp⟩
      · exact .inr ⟨hp, by rw [nextDecl, ← hunit, ← hindex]⟩
  · refine iff_of_false (by simp [hchildren]) ?_
    rintro ⟨-, hp | ⟨-, hp⟩⟩
    · exact absurd (h.parent_lt hp) (by omega)
    · exact absurd (hparent.symm.trans hp) (by simp [Nat.ne_of_lt hq])

theorem increasing_addDecl (hid : d.id = u.nextDecl) (hchildren : d.children = []) {p : Nat}
    {x : Decl} (hx : (u.addDecl d).decls[p]? = some x) :
    x.children.Pairwise fun y z => y.index < z.index := by
  rcases eq_or_of_getElem?_addDecl hq hparent hx with ⟨z, hz, rfl⟩ | ⟨-, rfl⟩
  · unfold withChild
    split
    · refine List.pairwise_append.mpr ⟨h.increasing hz, List.pairwise_singleton .., ?_⟩
      intro a ha b hb
      rw [List.mem_singleton.mp hb, hid]
      exact (h.parent_lt ((h.mem_children hz).mp ha).2).2
    · exact h.increasing hz
  · simp [hchildren]

/-- Between a declaration and the new one below it, either the new one's parent is passed already or
it is still to come. -/
theorem convex_addDecl (hends : u.EndsWith ⟨u.id, q⟩) {p j k : Nat} (hk : (u.addDecl d).Below p k)
    (hpj : p < j) (hjk : j ≤ k) : (u.addDecl d).Below p j := by
  rw [below_addDecl_iff h hq hparent] at hk ⊢
  rcases hk with hk | ⟨rfl, hk⟩
  · exact .inl (h.convex hk hpj hjk)
  rcases Nat.eq_or_lt_of_le hjk with rfl | hj
  · exact .inr ⟨rfl, hk⟩
  left
  rcases Nat.lt_or_ge q j with hqj | hjq
  · have hbelow : u.Below q j := hends.2.2 j hqj hj
    rcases hk with rfl | hk
    · exact hbelow
    · exact hk.trans hbelow
  · rcases hk with rfl | hk
    · exact absurd hpj (by omega)
    · exact h.convex hk hpj hjq

theorem latest_addDecl (hid : d.id = u.nextDecl) (r : NodeRef) :
    (u.addDecl d).Latest r ((u.addDecl d).declOfNode? r) := by
  rw [declOfNode?_addDecl]
  by_cases hr : r = d.node
  · rw [if_pos hr]
    refine ⟨d, ?_, hr.symm, fun i x hx _ => ?_⟩
    · rw [decl?, id_addDecl, hid, if_pos (by rfl)]
      exact getElem?_addDecl_size (by simp [hparent, Nat.ne_of_lt hq])
    · have hlt := lt_size_of_getElem? hx
      rw [size_addDecl] at hlt
      rw [hid]
      exact Nat.lt_succ_iff.mp hlt
  · rw [if_neg hr]
    have hold : ∀ (i : Nat) (x : Decl), (u.addDecl d).decls[i]? = some x → x.node = r →
        ∃ y, u.decls[i]? = some y ∧ y.node = r := by
      intro i x hx hxr
      rcases eq_or_of_getElem?_addDecl hq hparent hx with ⟨y, hy, rfl⟩ | ⟨-, rfl⟩
      · exact ⟨y, hy, by rwa [node_withChild] at hxr⟩
      · exact absurd hxr.symm hr
    have hlatest := h.latest r
    cases hfound : u.declOfNode? r with
    | none =>
        rw [hfound] at hlatest
        intro i x hx hxr
        obtain ⟨y, hy, hyr⟩ := hold i x hx hxr
        exact hlatest i y hy hyr
    | some y =>
        rw [hfound] at hlatest
        obtain ⟨z, hz, hzr, hmax⟩ := hlatest
        refine ⟨_, decl?_addDecl hz, by rwa [node_withChild], fun i x hx hxr => ?_⟩
        obtain ⟨y', hy', hyr⟩ := hold i x hx hxr
        exact hmax i y' hy' hyr

/-- The new declaration stands below one that ends the unit. -/
theorem Growing.addDecl (hends : u.EndsWith ⟨u.id, q⟩) (hid : d.id = u.nextDecl)
    (hchildren : d.children = []) : (u.addDecl d).Growing where
  numbered := h.numbered.addDecl hid
  first hx := by
    rcases eq_or_of_getElem?_addDecl hq hparent hx with ⟨y, hy, rfl⟩ | ⟨h0, -⟩
    · rw [parent_withChild, h.first hy]
    · exact absurd (h0 ▸ hq) (Nat.not_lt_zero q)
  parent hx hi := by
    rw [id_addDecl]
    rcases eq_or_of_getElem?_addDecl hq hparent hx with ⟨y, hy, rfl⟩ | ⟨rfl, rfl⟩
    · rw [parent_withChild]
      exact h.parent hy hi
    · exact ⟨q, hq, hparent⟩
  mem_children := mem_children_addDecl h hq hparent hid hchildren
  increasing := increasing_addDecl h hq hparent hid hchildren
  convex := convex_addDecl h hq hparent hends
  latest := latest_addDecl h hq hparent hid

end Growing

/-! ### The first declaration -/

theorem growing_of_empty (hdecls : u.decls = #[]) (hmap : u.declsByNode = []) : u.Growing := by
  have hnone : ∀ {i : Nat} {x : Decl}, u.decls[i]? ≠ some x := by
    intro i x hx
    simp [hdecls] at hx
  have hbelow : ∀ {p k}, ¬u.Below p k := by
    intro p k hk
    cases hk with
    | single hp => exact hnone hp.choose_spec.1
    | tail _ hp => exact hnone hp.choose_spec.1
  refine ⟨fun _ _ hx => absurd hx hnone, fun hx => absurd hx hnone, fun hx => absurd hx hnone,
    fun hx => absurd hx hnone, fun hx => absurd hx hnone, fun hk => absurd hk hbelow, fun r => ?_⟩
  rw [declOfNode?, hmap]
  exact fun _ _ hx => absurd hx hnone

theorem growing_addDecl_of_empty (hdecls : u.decls = #[]) (hmap : u.declsByNode = [])
    (hid : d.id = u.nextDecl) (hparent : d.parent = none) (hchildren : d.children = []) :
    (u.addDecl d).Growing := by
  have hsize : u.decls.size = 0 := by simp [hdecls]
  have h := growing_of_empty hdecls hmap
  have honly : ∀ {i : Nat} {x : Decl}, (u.addDecl d).decls[i]? = some x → i = 0 ∧ x = d := by
    intro i x hx
    rw [getElem?_addDecl] at hx
    obtain ⟨y, hy, rfl⟩ := Option.map_eq_some_iff.mp hx
    rcases eq_or_of_getElem?_push hy with hy | ⟨rfl, rfl⟩
    · simp [hdecls] at hy
    · exact ⟨hsize, by simp [withChild, hparent]⟩
  have hnone : ∀ {p i}, ¬(u.addDecl d).Parent p i := by
    rintro p i ⟨x, hx, hp⟩
    rw [(honly hx).2, hparent] at hp
    cases hp
  refine ⟨h.numbered.addDecl hid, fun hx => (honly hx).2 ▸ hparent,
    fun hx hi => absurd (honly hx).1 hi, fun hx => ?_, fun hx => ?_, fun hk => ?_, fun r => ?_⟩
  · simp [(honly hx).2, hchildren, hnone]
  · simp [(honly hx).2, hchildren]
  · cases hk with
    | single hp => exact absurd hp hnone
    | tail _ hp => exact absurd hp hnone
  · rw [declOfNode?_addDecl]
    by_cases hr : r = d.node
    · rw [if_pos hr]
      refine ⟨d, ?_, hr.symm, fun i x hx _ => by simp [(honly hx).1]⟩
      rw [decl?, id_addDecl, hid, if_pos (by rfl)]
      exact getElem?_addDecl_size (by simp [hparent])
    · rw [if_neg hr, declOfNode?, hmap]
      intro i x hx hxr
      exact hr (by rw [← hxr, (honly hx).2])

end CompilationUnit

/-! ### Collected units -/

/-- The open scopes stand one inside the other at the end of the unit. -/
structure Collection.Open (scopes : Collect.Scopes) (c : Collection) : Prop where
  growing : c.unit.Growing
  some : scopes.frames ≠ []
  ends : ∀ frame ∈ scopes.frames, c.unit.EndsWith frame.1
  inner : scopes.frames.Pairwise fun inner outer => outer.1.index < inner.1.index

theorem Collect.scoped_open : Scoped Collection.Open where
  declare {scopes c} node name kind flags scopeName hc := by
    obtain ⟨⟨p, pname⟩, rest, hframes⟩ := List.exists_cons_of_ne_nil hc.some
    have hp := hc.ends _ (hframes ▸ List.mem_cons_self)
    obtain ⟨unit, q⟩ := p
    obtain rfl : unit = c.unit.id := hp.1
    have hcurrent : scopes.current = some ⟨c.unit.id, q⟩ := by simp [ScopeStack.current, hframes]
    let d := Decl.fresh c.unit.nextDecl name kind flags (c.unit.tree.span node) scopes.current node
    have hparent : d.parent = some ⟨c.unit.id, q⟩ := hcurrent
    have hle : ∀ frame ∈ scopes.frames, frame.1.index ≤ q := by
      have hinner := hc.inner
      rw [hframes] at hinner ⊢
      intro frame hframe
      rcases List.mem_cons.mp hframe with rfl | hframe
      · exact Nat.le_refl _
      · exact Nat.le_of_lt ((List.pairwise_cons.mp hinner).1 frame hframe)
    refine ⟨hc.growing.addDecl hp.2.1 hparent hp rfl rfl, by simp [ScopeStack.push], ?_, ?_⟩
    · intro frame hframe
      rcases List.mem_cons.mp hframe with rfl | hframe
      · exact CompilationUnit.endsWith_nextDecl_addDecl _ _
      · exact (hc.ends frame hframe).addDecl hc.growing hp.2.1 hparent (hle frame hframe)
    · exact List.pairwise_cons.mpr ⟨fun frame hframe => (hc.ends frame hframe).2.1, hc.inner⟩
  close hc hc' :=
    ⟨hc'.growing, hc.some, fun frame hframe => hc'.ends frame (List.mem_cons_of_mem _ hframe),
      hc.inner⟩
  leaveOut {scopes c} limit node hc := by
    change Collection.Open scopes (if c.truncated then c else _)
    split
    · exact hc
    · exact ⟨⟨hc.growing.numbered, hc.growing.first, hc.growing.parent, hc.growing.mem_children,
        hc.growing.increasing, hc.growing.convex, hc.growing.latest⟩, hc.some, hc.ends, hc.inner⟩

/-- The declarations of a document form a tree in preorder, each listed once and found by its node,
also where nodes are missing, shared or too deep. -/
theorem CompilationUnit.preordered_collect (id : UnitId) (path : String) (tree : DocTree)
    (root : NodeRef) (limit : Nat) :
    ((ofTree id path tree root).collect limit).id = id ∧
      ((ofTree id path tree root).collect limit).Preordered := by
  refine ⟨(sound_collect limit id path tree root).id_eq, ?_⟩
  let u := ofTree id path tree root
  have hgrowing : (((Collect.visitRoot limit).run { unit := u }).2).unit.Growing := by
    have hroot : Collection.Open (ScopeStack.empty.push u.nextDecl u.path) (Collect.declareRoot u) := by
      refine ⟨?_, by simp [ScopeStack.push], ?_, ?_⟩
      · rw [Collect.unit_declareRoot]
        exact growing_addDecl_of_empty rfl rfl rfl rfl rfl
      · rintro frame hframe
        obtain rfl := List.mem_singleton.mp hframe
        exact endsWith_nextDecl_addDecl _ _
      · exact List.pairwise_singleton ..
    have h := Collect.scoped_open.visitRoot limit hroot
    split at h
    · rw [h]
      exact growing_of_empty rfl rfl
    · exact h.growing
  exact Growing.preordered ⟨hgrowing.numbered, hgrowing.first, hgrowing.parent,
    hgrowing.mem_children, hgrowing.increasing, hgrowing.convex, hgrowing.latest⟩

/-! ### Parents -/

namespace CompilationUnit.Preordered

variable {u : CompilationUnit} {i p : Nat} {d : Decl}

theorem parent_lt (h : u.Preordered) (hp : u.Parent p i) : p < i := by
  obtain ⟨d, hd, hp⟩ := hp
  have hi : i ≠ 0 := by
    rintro rfl
    exact absurd ((h.first d hd).symm.trans hp) (by simp)
  obtain ⟨q, hq, hparent⟩ := h.parent i d hd hi
  obtain rfl : p = q := by simpa using hp.symm.trans hparent
  exact hq

theorem exists_parent_of_some (h : u.Preordered) {x : DeclId}
    (hd : u.decls[i]? = some d) (hx : d.parent = some x) : ∃ p, u.Parent p i := by
  have hi : i ≠ 0 := by
    rintro rfl
    exact absurd ((h.first d hd).symm.trans hx) (by simp)
  obtain ⟨p, -, hp⟩ := h.parent i d hd hi
  exact ⟨p, d, hd, hp⟩

theorem exists_parent (h : u.Preordered) (hp : u.Parent p i) :
    ∃ e, u.decls[p]? = some e ∧ e.id = ⟨u.id, p⟩ := by
  have hlt := h.parent_lt hp
  obtain ⟨d, hd, -⟩ := hp
  have he := Array.getElem?_eq_getElem (Nat.lt_trans hlt (lt_size_of_getElem? hd))
  exact ⟨_, he, h.numbered p _ he⟩

theorem mem_children_iff (h : u.Preordered) {x : Decl} (hx : u.decls[p]? = some x) {y : DeclId} :
    y ∈ x.children ↔ y.unit = u.id ∧ u.Parent p y.index := by
  have hcount : ∀ {i : Nat} {d : Decl}, u.decls[i]? = some d →
      (d.id ∈ x.children ↔ d.parent = some x.id) :=
    fun {i d} hd => by
      rw [← List.count_pos_iff, h.count i p d x hd hx]
      split <;> simp [*]
  constructor
  · intro hy
    obtain ⟨d, hdy⟩ := Option.isSome_iff_exists.mp (h.child p x y hx hy)
    unfold decl? at hdy
    split at hdy
    · next hunit =>
      have hid : d.id = y := by
        rw [h.numbered _ d hdy, ← hunit]
      refine ⟨hunit, d, hdy, ?_⟩
      rw [(hcount hdy).mp (hid ▸ hy), h.numbered p x hx]
    · exact absurd hdy (by simp)
  · rintro ⟨hunit, d, hd, hp⟩
    have hid : d.id = y := by
      rw [h.numbered _ d hd, ← hunit]
    rw [← hid, hcount hd, hp, h.numbered p x hx]

/-- By induction on the number. The first declaration is above all others. -/
theorem eq_zero_or_below (h : u.Preordered) (hd : u.decls[i]? = some d) : i = 0 ∨ u.Below 0 i := by
  induction i using Nat.strongRecOn generalizing d with
  | ind i ih =>
      rcases Nat.eq_zero_or_pos i with rfl | hi
      · exact .inl rfl
      · obtain ⟨p, hlt, hp⟩ := h.parent i d hd (Nat.ne_of_gt hi)
        have hparent : u.Parent p i := ⟨d, hd, hp⟩
        obtain ⟨e, he, -⟩ := h.exists_parent hparent
        rcases ih p hlt he with rfl | hbelow
        · exact .inr (.single hparent)
        · exact .inr (hbelow.tail hparent)

end CompilationUnit.Preordered

end NameBinding
