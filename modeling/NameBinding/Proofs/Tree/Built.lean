import NameBinding.Proofs.Tree.Below
import NameBinding.Tree.Builder

/-! # What is built is a tree

The builder puts a node after the nodes that it is given for it, so no node comes to be below itself.
Parents and spans, which are set at the end, change nothing of that. -/

namespace NameBinding

namespace DocTree

/-- Every node comes after the nodes directly below it. -/
def Ordered (t : DocTree) : Prop := ∀ ⦃i j : NodeIndex⦄, some j ∈ t.children (some i) → j < i

variable {t t' : DocTree} {r : NodeRef}

theorem ordered_iff :
    t.Ordered ↔ ∀ i < t.size, ∀ r ∈ t.children (some i), ∀ j ∈ r, j < i := by
  constructor
  · rintro h i - _ hr j rfl
    exact h hr
  · intro h i j hj
    refine h i ?_ _ hj j rfl
    by_contra hi
    have hnone : t.nodes[i]? = none := Array.getElem?_eq_none (Nat.not_lt.mp hi)
    simp [children, record?, node?, hnone] at hj

instance (t : DocTree) : Decidable t.Ordered := decidable_of_iff _ ordered_iff.symm

/-- By induction on the way down. -/
theorem Ordered.lt_of_below (h : t.Ordered) {i j : NodeIndex} (hb : t.Below (some j) (some i)) :
    j < i := by
  generalize htop : (some i : NodeRef) = top at hb
  induction hb generalizing i with
  | single hmem => exact h (htop ▸ hmem)
  | @tail above top hb hmem ih =>
      subst htop
      cases above with
      | none => exact absurd hb (not_below rfl)
      | some k => exact Nat.lt_trans (ih rfl) (h hmem)

theorem Ordered.isTree (h : t.Ordered) : t.IsTree := by
  intro r hr
  cases r with
  | none => exact not_below rfl hr
  | some i => exact Nat.lt_irrefl i (h.lt_of_below hr)

theorem Ordered.of_record? (h : t.Ordered) (hrecord : ∀ r, t'.record? r = t.record? r) :
    t'.Ordered := fun i j hj => h (by rwa [children, ← hrecord])

/-- Nodes name records that are there. -/
def Stored (t : DocTree) : Prop := ∀ ⦃i : NodeIndex⦄ ⦃node : Node⦄ ⦃sort : RecordSort⦄ ⦃k : Nat⦄,
  t.nodes[i]? = some node → node.kind.sort? = some sort → node.data = some k → k < t.pools.size sort

/-! ### Parents and spans -/

theorem record?_setSpan (t : DocTree) (i : NodeIndex) (span : Span) (r : NodeRef) :
    (t.setSpan i span).record? r = t.record? r := by
  cases r with
  | none => rfl
  | some j =>
      simp only [record?, node?, setSpan, Option.bind_some, Array.getElem?_modify]
      split
      · cases t.nodes[j]? <;> rfl
      · rfl

/-- What neither a parent nor a span changes is the same after placing. By induction on the levels. -/
theorem place_invariant {α : Type} {f : DocTree → α}
    (hparent : ∀ t i parent, f (setParent t i parent) = f t)
    (hspan : ∀ t i span, f (setSpan t i span) = f t) (depth : Nat) (parent : NodeRef)
    (placed : DocTree × Nat) (r : NodeRef) : f (place depth parent placed r).1 = f placed.1 := by
  induction depth generalizing parent placed r with
  | zero => rfl
  | succ depth ih =>
      obtain ⟨t, start⟩ := placed
      unfold place
      split
      · next i node _ =>
        have hfold : ∀ (rs : List NodeRef) (placed : DocTree × Nat),
            f (rs.foldl (place depth (some i)) placed).1 = f placed.1 := by
          intro rs
          induction rs with
          | nil => exact fun _ => rfl
          | cons r rs ihs => exact fun placed => (ihs _).trans (ih _ placed r)
        exact (hspan _ _ _).trans ((hfold _ _).trans (hparent _ _ _))
      · rfl

theorem withoutSpans_invariant {α : Type} {f : DocTree → α}
    (hspan : ∀ t i span, f (setSpan t i span) = f t) (t : DocTree) (marked : List NodeRef) :
    f (t.withoutSpans marked) = f t := by
  induction marked generalizing t with
  | nil => rfl
  | cons m marked ih =>
      refine (ih _).trans ?_
      cases m with
      | none => rfl
      | some i => exact hspan t i Span.invalid

end DocTree

namespace TreeBuilder

/-- What neither a parent nor a span changes is the same at the end. -/
theorem finish_invariant {α : Type} {f : DocTree → α} (b : TreeBuilder) (root : NodeRef)
    (hparent : ∀ t i parent, f (DocTree.setParent t i parent) = f t)
    (hspan : ∀ t i span, f (DocTree.setSpan t i span) = f t) : f (b.finish root) = f b.tree :=
  (DocTree.withoutSpans_invariant hspan _ _).trans (DocTree.place_invariant hparent hspan _ _ _ _)

theorem record?_finish (b : TreeBuilder) (root r : NodeRef) :
    (b.finish root).record? r = b.tree.record? r :=
  b.finish_invariant root (f := (·.record? r)) (fun _ _ _ => rfl)
    fun t i span => DocTree.record?_setSpan t i span r

/-- Every node was made with nodes that were there before. -/
inductive Grown : TreeBuilder → Prop
  | start (path : String) : Grown { path }
  | leaf {b : TreeBuilder} (h : b.Grown) (kind : NodeKind) (modifiers : Flags Modifier) :
      Grown (StateT.run (m := Id) (Build.addNode kind modifiers none) b).2
  | node {b : TreeBuilder} (h : b.Grown) (kind : NodeKind) (modifiers : Flags Modifier)
      (record : Record) (hkind : kind.sort? = some record.sort)
      (hparts : ∀ i, some i ∈ record.children → i < b.tree.size) :
      Grown (StateT.run (m := Id) (Build.add kind modifiers record) b).2
  | unplace {b : TreeBuilder} (h : b.Grown) (r : NodeRef) :
      Grown (StateT.run (m := Id) (Build.markUnplaced r) b).2

/-- A node without a record. -/
theorem record?_leaf (b : TreeBuilder) (kind : NodeKind) (modifiers : Flags Modifier) (r : NodeRef) :
    (StateT.run (m := Id) (Build.addNode kind modifiers none) b).2.tree.record? r =
      b.tree.record? r := by
  cases r with
  | none => rfl
  | some i =>
      change (b.tree.nodes.push ⟨kind, modifiers, Span.invalid, none⟩)[i]?.bind b.tree.recordOf? =
        b.tree.nodes[i]?.bind b.tree.recordOf?
      rw [Array.getElem?_push]
      split
      · next hi => simp [hi, DocTree.recordOf?]
      · rfl

/-- A node with a record. The records of other nodes stay where they are. -/
theorem record?_node {b : TreeBuilder} (hs : b.tree.Stored) {kind : NodeKind}
    (modifiers : Flags Modifier) {record : Record} (hkind : kind.sort? = some record.sort)
    (i : NodeIndex) :
    (StateT.run (m := Id) (Build.add kind modifiers record) b).2.tree.record? (some i) =
      if i = b.tree.size then some record else b.tree.record? (some i) := by
  let t : DocTree := (StateT.run (m := Id) (Build.add kind modifiers record) b).2.tree
  have hpools : t.pools = b.tree.pools.push record := rfl
  change (b.tree.nodes.push ⟨kind, modifiers, Span.invalid,
    some (b.tree.pools.size record.sort)⟩)[i]?.bind t.recordOf? = _
  rw [Array.getElem?_push, show b.tree.nodes.size = b.tree.size from rfl]
  by_cases hi : i = b.tree.size
  · rw [if_pos hi, if_pos hi, Option.bind_some, DocTree.recordOf?, hkind, hpools]
    simp [Pools.get?_push]
  · rw [if_neg hi, if_neg hi, DocTree.record?, DocTree.node?, Option.bind_some]
    cases hnode : b.tree.nodes[i]? with
    | none => rfl
    | some node =>
        simp only [Option.bind_some, DocTree.recordOf?, hpools]
        cases hsort : node.kind.sort? with
        | none => rfl
        | some sort =>
            cases hdata : node.data with
            | none => rfl
            | some k =>
                have hk := hs hnode hsort hdata
                simp [Pools.get?_push, Nat.ne_of_lt hk]

theorem stored_leaf {b : TreeBuilder} (h : b.tree.Stored) (kind : NodeKind)
    (modifiers : Flags Modifier) :
    (StateT.run (m := Id) (Build.addNode kind modifiers none) b).2.tree.Stored := by
  intro i node sort k hnode hsort hk
  change (b.tree.nodes.push ⟨kind, modifiers, Span.invalid, none⟩)[i]? = some node at hnode
  rw [Array.getElem?_push] at hnode
  split at hnode
  · obtain rfl := Option.some.inj hnode
    exact absurd hk (by simp)
  · exact h hnode hsort hk

theorem stored_node {b : TreeBuilder} (h : b.tree.Stored) {kind : NodeKind}
    (modifiers : Flags Modifier) {record : Record} (hkind : kind.sort? = some record.sort) :
    (StateT.run (m := Id) (Build.add kind modifiers record) b).2.tree.Stored := by
  intro i node sort k hnode hsort hk
  change (b.tree.nodes.push ⟨kind, modifiers, Span.invalid,
    some (b.tree.pools.size record.sort)⟩)[i]? = some node at hnode
  change k < (b.tree.pools.push record).size sort
  rw [Pools.size_push]
  rw [Array.getElem?_push] at hnode
  split at hnode
  · obtain rfl := Option.some.inj hnode
    obtain rfl : record.sort = sort := Option.some.inj (hkind.symm.trans hsort)
    obtain rfl : b.tree.pools.size record.sort = k := Option.some.inj hk
    rw [if_pos rfl]
    exact Nat.lt_succ_self _
  · have hold := h hnode hsort hk
    split
    · exact Nat.lt_succ_of_lt hold
    · exact hold

/-- By induction on the steps. -/
theorem Grown.ordered_and_stored {b : TreeBuilder} (h : b.Grown) : b.tree.Ordered ∧ b.tree.Stored := by
  induction h with
  | start path =>
      refine ⟨fun i j hj => ?_, fun i node sort k hnode => ?_⟩
      · simp [DocTree.children, DocTree.record?, DocTree.node?] at hj
      · simp at hnode
  | @leaf b _ kind modifiers ih =>
      exact ⟨ih.1.of_record? (record?_leaf b kind modifiers), stored_leaf ih.2 kind modifiers⟩
  | @node b _ kind modifiers record hkind hparts ih =>
      refine ⟨fun i j hj => ?_, stored_node ih.2 modifiers hkind⟩
      rw [DocTree.children, record?_node ih.2 modifiers hkind] at hj
      split at hj
      · next hi => exact hi ▸ hparts j hj
      · exact ih.1 hj
  | unplace _ _ ih => exact ih

/-- What is built has no node below itself. -/
theorem Grown.isTree_finish {b : TreeBuilder} (h : b.Grown) (root : NodeRef) :
    (b.finish root).IsTree :=
  (h.ordered_and_stored.1.of_record? (b.record?_finish root)).isTree

end TreeBuilder

end NameBinding
