import NameBinding.Proofs.Contract
import NameBinding.Proofs.Graph.Label

/-! # Contracts of the steps on a graph

A step that fails leaves the graph as it is, or, for an edge that ought to be the only one of its
kind, without the edges that stood in its way. -/

namespace NameBinding.GraphM

open SymbolGraph

variable {P : SymbolGraph → Prop} {id source target : SymbolId} {kind : EdgeKind}

theorem contract_require (id : SymbolId) :
    Contract P (require id) (fun _ g => P g ∧ id < g.size) P := by
  unfold require
  refine Contract.get_bind fun g hg => ?_
  split
  · exact Contract.throw _ fun _ h => h ▸ hg
  · next hn =>
    refine Contract.pure _ fun s h => ?_
    subst h
    exact ⟨hg, by simpa [get?_eq_none_iff] using hn⟩

/-- An edge is added between symbols that exist. -/
theorem contract_link (source target : SymbolId) (kind : EdgeKind) :
    Contract P (link source target kind)
      (fun _ g' => ∃ g, P g ∧ source < g.size ∧ target < g.size ∧
        g' = g.addEdge ⟨source, target, kind⟩) P := by
  unfold link
  refine (contract_require target).bind fun _ => ?_
  refine Contract.bind (Q := fun _ g => (P g ∧ target < g.size) ∧ source < g.size) ?_ ?_
  · exact (contract_require source).weaken (fun _ h => h) (fun _ _ h => h) fun _ h => h.1
  · rintro -
    refine Contract.get_bind fun g hg => ?_
    refine Contract.bind (Q := fun _ g' => g' = g.addEdge ⟨source, target, kind⟩) ?_ ?_
    · exact Contract.modify fun s hs => hs ▸ rfl
    · exact fun _ => Contract.pure _ fun g' hg' => ⟨g, hg.1.1, hg.2, hg.1.2, hg'⟩

theorem contract_alloc (name : String) (symbolKind : SymbolKind) (flags : Flags SymbolFlag) :
    Contract P (alloc name symbolKind flags)
      (fun id g' => ∃ g, P g ∧ id = g.size ∧ g' = g.alloc name symbolKind flags) P :=
  Contract.modifyGet fun g hg => ⟨g, hg, rfl, rfl⟩

theorem contract_declare (id : SymbolId) (decl : DeclId) :
    Contract P (declare id decl)
      (fun _ g' => ∃ g, P g ∧ id < g.size ∧ g' = g.declare id decl) P := by
  unfold declare
  refine (contract_require id).bind fun _ => ?_
  exact Contract.modify fun g hg => ⟨g, hg.1, hg.2, rfl⟩

/-- The instance side of a class is its only one. -/
theorem contract_setInstanceType (cls inst : SymbolId) :
    Contract P (setInstanceType cls inst)
      (fun _ g' => ∃ g, P g ∧ g.targets cls .instanceType = [] ∧ cls < g.size ∧ inst < g.size ∧
        g' = g.addEdge ⟨cls, inst, .instanceType⟩) P := by
  unfold setInstanceType
  refine Contract.get_bind fun g hg => ?_
  dsimp only
  split
  · exact Contract.throw _ fun _ h => h ▸ hg
  · next hnone =>
    refine Contract.bind (Q := fun _ g' => cls < g.size ∧ inst < g.size ∧
      g' = g.addEdge ⟨cls, inst, .instanceType⟩) ?_ fun _ => Contract.pure _ fun g' h => ?_
    · refine (contract_link cls inst .instanceType).weaken (fun _ h => h) ?_ fun _ h => h ▸ hg
      rintro - g' ⟨_, rfl, hs, ht, rfl⟩
      exact ⟨hs, ht, rfl⟩
    · have hnil : g.targets cls .instanceType = [] := by
        simpa [instanceType?, firstTarget] using hnone
      exact ⟨g, hg, hnil, h⟩

/-- An edge becomes the only one of its kind, in single steps that the invariant survives. -/
theorem keeps_setSingle {source target : SymbolId} {kind : EdgeKind}
    (hdrop : ∀ g x, P g → P (g.removeEdge ⟨source, x, kind⟩))
    (hadd : ∀ g, P g → source < g.size → target < g.size →
      P (g.addEdge ⟨source, target, kind⟩)) : Keeps P (setSingle source target kind) := by
  unfold setSingle
  refine (Keeps.trivial ((contract_require source).weaken (fun _ h => h)
    (fun _ _ h => ⟨h.1, True.intro⟩) fun _ h => h)).bind fun _ _ => ?_
  refine Keeps.bind (Keeps.modify fun g hg => ?_) fun _ _ => ?_
  · exact removeTargets_induction hdrop _ hg
  · refine Keeps.bind (Q := fun _ => True) ?_ fun _ _ => Keeps.pure True.intro
    refine (contract_link source target kind).weaken (fun _ h => h) ?_ fun _ h => h
    rintro - g' ⟨g, hg, hs, ht, rfl⟩
    exact ⟨hadd g hg hs ht, True.intro⟩

/-- The other edges of the kind are removed, and the edge is added between symbols that exist. -/
theorem contract_setSingle (source target : SymbolId) (kind : EdgeKind) :
    Contract P (setSingle source target kind)
      (fun _ g' => ∃ g, P g ∧ source < g.size ∧ target < g.size ∧
        g' = (g.removeTargets source kind ((g.targets source kind).filter (· != target))).addEdge
          ⟨source, target, kind⟩) fun _ => True := by
  unfold setSingle
  refine Contract.bind (Q := fun _ g => P g ∧ source < g.size)
    ((contract_require source).weaken (fun _ h => h) (fun _ _ h => h) fun _ _ => True.intro)
    fun _ => ?_
  refine Contract.bind (Q := fun _ g' => ∃ g, P g ∧ source < g.size ∧ g' =
    g.removeTargets source kind ((g.targets source kind).filter (· != target)))
    (Contract.modify fun g hg => ⟨g, hg.1, hg.2, rfl⟩) fun _ => ?_
  refine Contract.bind ((contract_link source target kind).weaken (fun _ h => h) (fun _ _ h => h)
    fun _ _ => True.intro) fun _ => Contract.pure _ ?_
  rintro _ ⟨_, ⟨g, hg, hs, rfl⟩, -, ht, rfl⟩
  rw [size_removeTargets] at ht
  exact ⟨g, hg, hs, ht, rfl⟩

/-! ### Steps that succeed -/

section Succeeds

variable {g : SymbolGraph}

theorem require_eq_ok (h : id < g.size) : require id g = .ok () g := by
  have hget : (g.get? id).isSome := by simpa [isSome_get?] using h
  obtain ⟨s, hs⟩ := Option.isSome_iff_exists.mp hget
  simp [require, run_get_bind, hs, pure, EStateM.pure]

theorem link_eq_ok (kind : EdgeKind) (hs : source < g.size) (ht : target < g.size) :
    link source target kind g = .ok (!g.hasEdge ⟨source, target, kind⟩)
      (g.addEdge ⟨source, target, kind⟩) := by
  simp only [link, bind, EStateM.bind, require_eq_ok hs, require_eq_ok ht]
  rfl

theorem require_eq_error (h : ¬id < g.size) : require id g = .error (.unknownSymbol id) g := by
  have hget : g.get? id = none := (get?_eq_none_iff _ _).mpr (Nat.not_lt.mp h)
  simp [require, run_get_bind, hget, run_throw]

/-- Nothing is linked to a symbol that does not exist. -/
theorem link_eq_error (source : SymbolId) (kind : EdgeKind) (ht : ¬target < g.size) :
    link source target kind g = .error (.unknownSymbol target) g := by
  simp only [link, bind, EStateM.bind, require_eq_error ht]

/-- An edge becomes the only one of its kind. -/
theorem setSingle_eq_ok {kind : EdgeKind} (hs : source < g.size) (ht : target < g.size) :
    setSingle source target kind g = .ok ()
      ((g.removeTargets source kind ((g.targets source kind).filter (· != target))).addEdge
        ⟨source, target, kind⟩) := by
  have hsize := size_removeTargets g source kind ((g.targets source kind).filter (· != target))
  simp only [setSingle, bind, EStateM.bind, require_eq_ok hs]
  change EStateM.bind (link source target kind) (fun _ => pure ())
    (g.removeTargets source kind ((g.targets source kind).filter (· != target))) = _
  rw [EStateM.bind, link_eq_ok kind (hsize ▸ hs) (hsize ▸ ht)]
  rfl

/-- Where there was no edge of the kind, none is removed. -/
theorem setSingle_eq_ok_of_targets_eq_nil {kind : EdgeKind} (hs : source < g.size)
    (ht : target < g.size) (hnone : g.targets source kind = []) :
    setSingle source target kind g = .ok () (g.addEdge ⟨source, target, kind⟩) := by
  rw [setSingle_eq_ok hs ht, hnone]
  rfl

theorem declare_eq_ok (d : DeclId) (h : id < g.size) :
    declare id d g = .ok () (g.declare id d) := by
  simp only [declare, bind, EStateM.bind, require_eq_ok h]
  rfl

theorem setInstanceType_eq_ok {cls inst : SymbolId} (hnone : g.instanceType? cls = none)
    (hc : cls < g.size) (hi : inst < g.size) :
    setInstanceType cls inst g = .ok () (g.addEdge ⟨cls, inst, .instanceType⟩) := by
  simp only [setInstanceType, run_get_bind, hnone]
  rw [if_neg (by simp)]
  simp only [bind, EStateM.bind, link_eq_ok .instanceType hc hi]
  rfl

end Succeeds

end NameBinding.GraphM
