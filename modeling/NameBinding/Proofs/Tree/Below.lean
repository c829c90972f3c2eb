import Mathlib.Data.List.Perm.Subperm
import Mathlib.Logic.Relation
import NameBinding.Tree.EntityName

/-! # Nodes below other nodes

Where no node is below itself, a way down from a node meets each node at most once, so it is no longer
than there are nodes. -/

namespace NameBinding.DocTree

/-- The first node is below the second one. -/
def Below (t : DocTree) : NodeRef → NodeRef → Prop :=
  Relation.TransGen fun r above => r ∈ t.children above

/-- No node of the tree is below itself. -/
def IsTree (t : DocTree) : Prop := ∀ r, ¬t.Below r r

/-- A part of a node, which may be missing. -/
def IsPart (t : DocTree) (r top : NodeRef) : Prop := r = none ∨ t.Below r top

/-- At most the given number of nodes stand one below the other, the first one counted. -/
def HasLevels (t : DocTree) : Nat → NodeRef → Prop
  | 0, r => t.node? r = none
  | levels + 1, r => ∀ part, t.IsPart part r → t.HasLevels levels part

variable {t : DocTree} {r top : NodeRef}

theorem IsPart.trans {r' : NodeRef} (h : t.IsPart r r') (htop : t.Below r' top) : t.IsPart r top :=
  h.imp_right fun hr => hr.trans htop

/-! ### Parts -/

theorem children_eq {record : Record} (h : t.record? r = some record) :
    t.children r = record.children := by
  rw [children, h]
  rfl

theorem eq_none_or_mem_of_present {x : NodeRef} {rs : List NodeRef}
    (h : NodeRef.present x ⊆ rs) : x = none ∨ x ∈ rs := by
  cases x with
  | none => exact .inl rfl
  | some i => exact .inr (h (by simp [NodeRef.present]))

theorem IsPart.of_present {part : NodeRef} (h : NodeRef.present part ⊆ t.children r) :
    t.IsPart part r :=
  (eq_none_or_mem_of_present h).imp_right .single

theorem isPart_typeNode_of_parameter {p : ValueParts} (h : t.parameter? r = some p) :
    t.IsPart p.typeNode r := by
  unfold parameter? at h
  split at h
  · next hrecord =>
    obtain rfl := Option.some.inj h
    exact .of_present (by simp [children_eq hrecord, Record.children])
  · exact absurd h (by simp)

theorem isPart_typeNode_of_property {p : ValueParts} (h : t.property? r = some p) :
    t.IsPart p.typeNode r := by
  unfold property? at h
  split at h
  · next hrecord =>
    obtain rfl := Option.some.inj h
    exact .of_present (by simp [children_eq hrecord, Record.children])
  · exact absurd h (by simp)

theorem children_of_function {f : FunctionParts} (h : t.function? r = some f) :
    t.children r = NodeRef.present f.name ++ f.parameters ++ NodeRef.present f.typeNode ++
      NodeRef.present f.body := by
  unfold function? at h
  split at h
  · next hrecord =>
    obtain rfl := Option.some.inj h
    exact children_eq hrecord
  · exact absurd h (by simp)

theorem below_of_mem_parameters {p : NodeRef}
    (hp : p ∈ ((t.function? r).map (·.parameters)).getD []) : t.Below p r := by
  cases hf : t.function? r with
  | none => simp [hf] at hp
  | some f =>
      rw [hf] at hp
      refine .single ?_
      rw [children_of_function hf]
      exact List.mem_append_left _ (List.mem_append_left _ (List.mem_append_right _ hp))

/-- The members of a type literal. -/
def literalMembers (t : DocTree) (r : NodeRef) : List NodeRef :=
  match t.record? r with
  | some (.typeLiteral members) => members
  | _ => []

theorem below_of_mem_literalMembers {m : NodeRef} (hm : m ∈ t.literalMembers r) : t.Below m r := by
  unfold literalMembers at hm
  split at hm
  · next members hrecord =>
    refine .single ?_
    rw [children_eq hrecord]
    exact hm
  · exact absurd hm List.not_mem_nil

theorem isPart_elementNode (t : DocTree) (r : NodeRef) : t.IsPart (match t.record? r with
    | some (.arrayType element) => element
    | _ => none) r := by
  split
  · next element hrecord =>
    refine .of_present ?_
    rw [children_eq hrecord]
    exact List.Subset.refl _
  · exact .inl rfl

theorem isPart_returnNode (t : DocTree) (r : NodeRef) :
    t.IsPart (((t.function? r).map (·.typeNode)).getD none) r := by
  cases hf : t.function? r with
  | none => exact .inl rfl
  | some f =>
      refine .of_present fun x hx => ?_
      rw [children_of_function hf]
      exact List.mem_append_left _ (List.mem_append_right _ hx)

/-! ### Levels -/

theorem exists_index (hr : (t.node? r).isSome) : ∃ i < t.size, r = some i := by
  obtain ⟨node, hnode⟩ := Option.isSome_iff_exists.mp hr
  obtain ⟨i, rfl, hi⟩ := Option.bind_eq_some_iff.mp hnode
  obtain ⟨hlt, -⟩ := Array.getElem?_eq_some_iff.mp hi
  exact ⟨i, hlt, rfl⟩

/-- A list of nodes without repetitions is no longer than there are nodes. -/
theorem length_le_size {rs : List NodeRef} (hnodup : rs.Nodup)
    (hnodes : ∀ r ∈ rs, (t.node? r).isSome) : rs.length ≤ t.size := by
  have hsub : rs ⊆ (List.range t.size).map some := by
    intro r hr
    obtain ⟨i, hlt, rfl⟩ := exists_index (hnodes r hr)
    exact List.mem_map_of_mem (List.mem_range.mpr hlt)
  have hlength := (List.subperm_of_subset hnodup hsub).length_le
  simpa using hlength

theorem children_eq_nil (h : t.node? r = none) : t.children r = [] := by
  rw [children, record?, h]
  rfl

/-- Nothing is below a node that is not there. -/
theorem not_below (h : t.node? top = none) : ¬t.Below r top := by
  intro hr
  obtain ⟨above, -, hmem⟩ := Relation.TransGen.tail'_iff.mp hr
  rw [children_eq_nil h] at hmem
  exact absurd hmem List.not_mem_nil

theorem hasLevels_of_node?_eq_none (levels : Nat) (h : t.node? r = none) : t.HasLevels levels r := by
  induction levels generalizing r with
  | zero => exact h
  | succ levels ih =>
      intro part hpart
      obtain rfl := hpart.resolve_right (not_below h)
      exact ih rfl

/-- A node is not among the nodes that it is a part of. -/
theorem IsTree.not_mem_of_isPart (h : t.IsTree) (hr : (t.node? r).isSome) {above : List NodeRef}
    (habove : ∀ a ∈ above, t.IsPart r a) : r ∉ above := by
  intro hmem
  rcases habove r hmem with rfl | hbelow
  · simp [node?] at hr
  · exact h r hbelow

/-- By induction on the levels. The nodes above the node are in a list without repetitions, which is
not longer than there are nodes. -/
theorem IsTree.hasLevels_of_above (h : t.IsTree) (levels : Nat) {above : List NodeRef}
    (hnodup : above.Nodup) (hnodes : ∀ a ∈ above, (t.node? a).isSome)
    (habove : ∀ a ∈ above, t.IsPart r a) (hlevels : t.size ≤ above.length + levels) :
    t.HasLevels levels r := by
  by_cases hr : (t.node? r).isSome
  · have hnodup' : (r :: above).Nodup :=
      List.nodup_cons.mpr ⟨h.not_mem_of_isPart hr habove, hnodup⟩
    have hnodes' : ∀ a ∈ r :: above, (t.node? a).isSome := List.forall_mem_cons.mpr ⟨hr, hnodes⟩
    induction levels generalizing above r with
    | zero =>
        have hlength := length_le_size hnodup' hnodes'
        rw [List.length_cons] at hlength
        omega
    | succ levels ih =>
        intro part hpart
        by_cases hpartnode : (t.node? part).isSome
        · have hbelow : t.Below part r := hpart.resolve_left fun hnone => by
            simp [hnone, node?] at hpartnode
          have habove' : ∀ a ∈ r :: above, t.IsPart part a := by
            refine List.forall_mem_cons.mpr ⟨hpart, fun a ha => ?_⟩
            rcases habove a ha with rfl | hr'
            · exact absurd hbelow (not_below rfl)
            · exact .inr (hbelow.trans hr')
          exact ih hnodup' hnodes' habove' (by rw [List.length_cons]; omega) hpartnode
            (List.nodup_cons.mpr ⟨h.not_mem_of_isPart hpartnode habove', hnodup'⟩)
            (List.forall_mem_cons.mpr ⟨hpartnode, hnodes'⟩)
        · exact hasLevels_of_node?_eq_none levels (by simpa using hpartnode)
  · exact hasLevels_of_node?_eq_none levels (by simpa using hr)

theorem IsTree.hasLevels (h : t.IsTree) (r : NodeRef) : t.HasLevels t.size r :=
  h.hasLevels_of_above t.size .nil (fun _ ha => absurd ha List.not_mem_nil)
    (fun _ ha => absurd ha List.not_mem_nil) (by simp)

/-! ### Names -/

theorem isPart_left {q : QualifiedName} (h : t.record? r = some (.qualifiedName q)) :
    t.IsPart q.left r :=
  .of_present (by simp [children_eq h, Record.children])

theorem isPart_right {q : QualifiedName} (h : t.record? r = some (.qualifiedName q)) :
    t.IsPart q.right r :=
  .of_present (by simp [children_eq h, Record.children])

/-- By induction on the levels of the name. -/
theorem HasLevels.segmentsWithin_eq {levels depth : Nat} (h : t.HasLevels levels r)
    (hlt : levels < depth) : t.segmentsWithin depth r = t.segmentsWithin (levels + 1) r := by
  induction levels generalizing r depth with
  | zero =>
      obtain ⟨depth, rfl⟩ := Nat.exists_eq_add_of_lt hlt
      have hnone : t.record? r = none := by
        rw [record?, show t.node? r = none from h]
        rfl
      simp only [segmentsWithin, hnone]
  | succ levels ih =>
      obtain ⟨more, rfl⟩ := Nat.exists_eq_add_of_lt hlt
      have hparts : levels < levels + 1 + more := by omega
      rw [segmentsWithin, segmentsWithin]
      split
      · rfl
      · next q hq => rw [ih (h _ (isPart_left hq)) hparts, ih (h _ (isPart_right hq)) hparts]
      · rfl

/-- No name of a tree has more levels than the tree has nodes. -/
theorem IsTree.segmentsWithin_eq (h : t.IsTree) {depth : Nat} (hlt : t.size < depth) (r : NodeRef) :
    t.segmentsWithin depth r = t.segmentsWithin (t.size + 1) r :=
  (h.hasLevels r).segmentsWithin_eq hlt

end NameBinding.DocTree
