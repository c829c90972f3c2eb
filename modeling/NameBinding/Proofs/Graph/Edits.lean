import NameBinding.Graph.Edit
import NameBinding.Proofs.Graph.Steps

/-! # Graphs after edits

Main statement: whatever is done to a graph, every edge stands once at each of its ends and every
membership edge has one edge back. A removal takes an edge and what is paired with it, and nothing
else. -/

namespace NameBinding

open SymbolGraph

namespace GraphEdit

variable {P : SymbolGraph → Prop} {g : SymbolGraph}

/-- What every edit keeps, also one that fails, if the single changes keep it. -/
theorem keeps_run (edit : GraphEdit)
    (halloc : ∀ g name kind flags, P g → P (g.alloc name kind flags))
    (hadd : ∀ g (e : Edge), P g → e.source < g.size → e.target < g.size → P (g.addEdge e))
    (hremove : ∀ g e, P g → P (g.removeEdge e)) (hunlink : ∀ g id, P g → P (g.unlinkAll id))
    (hinvalidate : ∀ g id, P g → P (g.invalidate id)) : Keeps P edit.run := by
  have hlink : ∀ source target kind, Keeps P (GraphM.link source target kind) := by
    refine fun source target kind => (GraphM.contract_link source target kind).weaken
      (fun _ hg => hg) ?_ fun _ hg => hg
    rintro - _ ⟨g, hg, hs, ht, rfl⟩
    exact ⟨hadd g _ hg hs ht, True.intro⟩
  cases edit with
  | alloc name kind flags =>
      refine Keeps.bind (Q := fun _ => True) ?_ fun _ _ => Keeps.pure True.intro
      refine (GraphM.contract_alloc name kind flags).weaken (fun _ hg => hg) ?_ fun _ hg => hg
      rintro - _ ⟨g, hg, -, rfl⟩
      exact ⟨halloc g name kind flags hg, True.intro⟩
  | link e => exact (hlink _ _ _).bind fun _ _ => Keeps.pure True.intro
  | unlink e => exact Contract.modifyGet fun g hg => ⟨hremove g e hg, True.intro⟩
  | unlinkOutgoing id kind =>
      exact Contract.modifyGet fun g hg =>
        ⟨removeTargets_induction (fun g x hg => hremove g _ hg) _ hg, True.intro⟩
  | setSingle e =>
      exact (GraphM.keeps_setSingle (fun g x hg => hremove g _ hg)
        fun g hg hs ht => hadd g _ hg hs ht).bind fun _ _ => Keeps.pure True.intro
  | unlinkAll id =>
      exact (Keeps.modify fun g hg => hunlink g id hg).bind fun _ _ => Keeps.pure True.intro
  | setInstanceType cls inst =>
      refine Keeps.bind (Q := fun _ => True) ?_ fun _ _ => Keeps.pure True.intro
      refine (GraphM.contract_setInstanceType cls inst).weaken (fun _ hg => hg) ?_ fun _ hg => hg
      rintro - _ ⟨g, hg, -, hs, ht, rfl⟩
      exact ⟨hadd g _ hg hs ht, True.intro⟩
  | invalidate id =>
      exact (Keeps.modify fun g hg => hinvalidate g id hg).bind fun _ _ => Keeps.pure True.intro

theorem wellFormed_apply (h : g.WellFormed) (edit : GraphEdit) : (edit.apply g).WellFormed := by
  have hkeeps : Keeps WellFormed edit.run :=
    keeps_run edit (fun g name kind flags hg => hg.alloc name kind flags)
      (fun g e hg hs ht => hg.addEdge hs ht) (fun g e hg => hg.removeEdge e)
      (fun g id hg => hg.unlinkAll id)
      fun g id hg => hg.of_edges_eq (outgoing_invalidate g id) (incoming_invalidate g id)
  have hrun := hkeeps g h
  unfold apply
  cases hr : edit.run g <;> simp_all

end GraphEdit

namespace SymbolGraph

variable {g : SymbolGraph}

/-- The graph after some edits, whether or not they fail. -/
def afterEdits (g : SymbolGraph) (edits : List GraphEdit) : SymbolGraph :=
  edits.foldl (fun g edit => edit.apply g) g

/-- By induction on the edits. -/
theorem WellFormed.afterEdits (h : g.WellFormed) (edits : List GraphEdit) :
    (g.afterEdits edits).WellFormed := by
  induction edits generalizing g with
  | nil => exact h
  | cons edit edits ih => exact ih (GraphEdit.wellFormed_apply h edit)

/-- Edges are listed as they ought to be. -/
structure ListsEdges (g : SymbolGraph) : Prop where
  /-- An edge stands once at each end, or at neither. -/
  once : ∀ e : Edge, (g.outgoing e.source).count e = (g.incoming e.target).count e ∧
    (g.outgoing e.source).count e ≤ 1
  /-- It stands nowhere else, and its ends exist. -/
  outgoing : ∀ {id e}, e ∈ g.outgoing id → e.source = id ∧ e.source < g.size ∧ e.target < g.size
  incoming : ∀ {id e}, e ∈ g.incoming id → e.target = id ∧ e.source < g.size ∧ e.target < g.size
  /-- A membership edge comes with one edge back. -/
  paired : ∀ e : Edge, e.kind.isMembership → g.hasEdge e →
    (g.outgoing e.target).count e.backward = 1

theorem WellFormed.listsEdges (h : g.WellFormed) : g.ListsEdges where
  once e := by
    have hout := List.nodup_iff_count_le_one.mp (h.nodup_outgoing e.source) e
    have hin := List.nodup_iff_count_le_one.mp (h.nodup_incoming e.target) e
    have hmem := h.mem_iff e
    rw [← List.count_pos_iff, ← List.count_pos_iff] at hmem
    omega
  outgoing he := ⟨h.source_eq he, h.lt_size (h.mem_outgoing_iff.mp he).2⟩
  incoming he := ⟨h.target_eq he, h.lt_size (h.mem_incoming_iff.mp he).2⟩
  paired e hm he :=
    List.count_eq_one_of_mem (h.nodup_outgoing _) (hasEdge_iff.mp (h.paired e hm he))

/-- Whatever was done to a graph, an edge stands once at each of its ends or nowhere, and a
membership edge has one edge back. Removing an edge takes that edge and what falls with it, and
unlinking a symbol takes its edges, while all other edges stay in their order. -/
theorem edges_afterEdits (edits : List GraphEdit) :
    (empty.afterEdits edits).ListsEdges ∧
      (∀ e id, ((GraphEdit.unlink e).apply (empty.afterEdits edits)).outgoing id =
          ((empty.afterEdits edits).outgoing id).filter (!(empty.afterEdits edits).fallsWith e ·) ∧
        ((GraphEdit.unlink e).apply (empty.afterEdits edits)).incoming id =
          ((empty.afterEdits edits).incoming id).filter (!(empty.afterEdits edits).fallsWith e ·)) ∧
      ∀ id x, ((GraphEdit.unlinkAll id).apply (empty.afterEdits edits)).outgoing x =
          ((empty.afterEdits edits).outgoing x).filter (!·.touches id) ∧
        ((GraphEdit.unlinkAll id).apply (empty.afterEdits edits)).incoming x =
          ((empty.afterEdits edits).incoming x).filter (!·.touches id) := by
  have h : (empty.afterEdits edits).WellFormed := WellFormed.empty.afterEdits edits
  refine ⟨h.listsEdges, fun e id => ?_, fun id x => ?_⟩
  · exact ⟨outgoing_removeEdge h.toMirrored e id, incoming_removeEdge h.toMirrored e id⟩
  · exact ⟨(edges_unlinkAll h.toMirrored id).1 x, (edges_unlinkAll h.toMirrored id).2 x⟩

/-- A symbol that is its own member twice over: the edge back goes with the last membership edge. -/
example : let g := empty.afterEdits [.alloc "a" .module ∅, .link ⟨0, 0, .publicProperty⟩,
      .link ⟨0, 0, .staticProperty⟩, .unlink ⟨0, 0, .publicProperty⟩]
    g.outgoing 0 = [⟨0, 0, .containedBy⟩, ⟨0, 0, .staticProperty⟩] ∧
      ((GraphEdit.unlink ⟨0, 0, .staticProperty⟩).apply g).outgoing 0 = [] := by
  decide

end SymbolGraph

end NameBinding
