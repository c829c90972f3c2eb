import NameBinding.Proofs.Graph.Query
import NameBinding.Proofs.Resolve.Composed
import NameBinding.Proofs.Resolve.Parts

/-! # What holds a symbol is older than it

A symbol is made after the one that contains it, or that has it as a side, a signature or a parameter.
Resolving draws such edges only when it makes types, and from a type to a part that it makes after it.
Main statement: no demand puts a symbol around an older one, also when it fails. -/

namespace NameBinding

open SymbolGraph

namespace SymbolGraph

variable {g g' : SymbolGraph} {m n : Nat} {e : Edge}

/-- Symbols are older than what they are around. -/
def Descends (g : SymbolGraph) : Prop := ∀ x y, g.IsAround x y → x < y

/-- No edges around symbols are new. -/
theorem Descends.mono (h : g.Descends)
    (hedge : ∀ {e : Edge}, e.kind.isStructural → g'.hasEdge e → g.hasEdge e) : g'.Descends := by
  intro x y ha
  refine h x y (ha.of_edges fun hr harray he => hedge ?_ he)
  simp [EdgeKind.isStructural, hr, harray]

/-- The container is older. -/
theorem Descends.lt_of_container? (h : g.Descends) (hg : g.Mirrored) {x y : SymbolId}
    (hx : g.container? x = some y) : y < x := h y x (isAround_of_container? hg hx)

/-- A graph that descends and has at least the given number of symbols. -/
structure Tiered (n : Nat) (g : SymbolGraph) : Prop where
  wellFormed : g.WellFormed
  descends : g.Descends
  le_size : n ≤ g.size

namespace Tiered

theorem weaken (h : g.Tiered n) (hmn : m ≤ n) : g.Tiered m :=
  { h with le_size := Nat.le_trans hmn h.le_size }

theorem alloc (h : g.Tiered n) (name : String) (kind : SymbolKind) (flags : Flags SymbolFlag) :
    (g.alloc name kind flags).Tiered (g.size + 1) where
  wellFormed := h.wellFormed.alloc name kind flags
  descends := h.descends.mono fun _ he => by simpa [hasEdge] using he
  le_size := Nat.le_of_eq (size_alloc g name kind flags).symm

theorem addEdge (h : g.Tiered n) (hs : e.source < g.size) (ht : e.target < g.size)
    (hedge : e.kind.isStructural → e.kind.isPart ∧ e.source < e.target) :
    (g.addEdge e).Tiered n where
  wellFormed := h.wellFormed.addEdge hs ht
  descends := by
    by_cases hk : e.kind.isStructural
    · intro x y ha
      obtain ⟨hpart, hlt⟩ := hedge hk
      rcases ha.of_addEdge hpart hs ht with ha | ⟨rfl, rfl⟩
      · exact h.descends x y ha
      · exact hlt
    · have hm : ¬e.kind.isMembership := fun hm => hk (EdgeKind.isStructural_of_isMembership hm)
      refine h.descends.mono fun hstructural he => ?_
      rcases (hasEdge_addEdge_of_plain hs ht hm).mp he with he | rfl
      · exact he
      · exact absurd hstructural hk
  le_size := by
    rw [size_eq_of_label? (label?_addEdge g e)]
    exact h.le_size

theorem removeEdge (h : g.Tiered n) (e : Edge) : (g.removeEdge e).Tiered n where
  wellFormed := h.wellFormed.removeEdge e
  descends := h.descends.mono fun _ he => (h.wellFormed.hasEdge_removeEdge.mp he).1
  le_size := by
    rw [size_eq_of_label? (label?_removeEdge g e)]
    exact h.le_size

theorem setResolved (h : g.Tiered n) (id : SymbolId) : (g.setResolved id true).Tiered n where
  wellFormed := h.wellFormed.modify (by intro s; rfl) (by intro s; rfl) id
  descends := h.descends.mono fun _ he => by simpa [hasEdge] using he
  le_size := by
    rw [size_eq_of_label? (label?_setResolved g id true)]
    exact h.le_size

end Tiered

end SymbolGraph

namespace ResolveM

/-- The step keeps a graph tiered, also when it fails, and answers with `Q`. -/
abbrev Tiers {α : Type} (n : Nat) (m : ResolveM α) (Q : α → Prop := fun _ => True) : Prop :=
  Keeps (fun r => r.graph.Tiered n) m Q

theorem withstands_tiered (n : Nat) : Withstands (Tiered n) where
  addEdge h _ hk hs ht := h.addEdge hs ht fun hk' => absurd hk' hk
  removeEdge h e := h.removeEdge e
  setResolved h id := h.setResolved id

variable {n : Nat} {α : Type} {name : String} {kind : SymbolKind} {flags : Flags SymbolFlag}

/-- A step that draws no edges around symbols, or only those of steps that are known to tier. -/
theorem Composed.tiers {m : ResolveM α}
    (h : Composed (fun _ m => ∀ n, Tiers n m) m) (n : Nat) : Tiers n m :=
  h.keeps (withstands_tiered n) fun hm => hm n

theorem tiers_of_composed {m : ResolveM α} (h : Composed (fun _ _ => False) m) : Tiers n m :=
  h.keeps (withstands_tiered n) False.elim

/-- What is made is newer than all of a tier. -/
theorem contract_alloc_tiered : Contract (fun r => r.graph.Tiered n) (alloc name kind flags)
    (fun x r => n ≤ x ∧ r.graph.Tiered (x + 1)) fun r => r.graph.Tiered n := by
  refine (contract_onGraph (GraphM.contract_alloc (P := Tiered n) name kind flags)).weaken
    (fun _ hr => hr) ?_ fun _ hr => hr
  rintro _ ⟨_, _⟩ ⟨g, hg, rfl, rfl⟩
  exact ⟨hg.le_size, hg.alloc name kind flags⟩

/-- What comes after a symbol that is made is newer than it. -/
theorem tiers_alloc_bind {f : SymbolId → ResolveM α} {Q : α → Prop}
    (hf : ∀ x, n ≤ x → Tiers (x + 1) (f x) Q) : Tiers n (alloc name kind flags >>= f) Q := by
  refine contract_alloc_tiered.bind fun x => Contract.assuming fun hx => ?_
  have hle : n ≤ x + 1 := Nat.le_succ_of_le hx
  exact Contract.weaken (hf x hx) (fun _ hr => hr) (fun _ _ hr => ⟨hr.1.weaken hle, hr.2⟩)
    fun _ hr => hr.weaken hle

theorem tiers_alloc (name : String) (kind : SymbolKind) (flags : Flags SymbolFlag) :
    Tiers n (alloc name kind flags) :=
  contract_alloc_tiered.weaken (fun _ hr => hr)
    (fun _ _ hr => ⟨hr.2.weaken (Nat.le_succ_of_le hr.1), True.intro⟩) fun _ hr => hr

theorem tiers_arrayOf (element : SymbolId) : Tiers n (arrayOf element) :=
  (composed_arrayOf (fun name _ _ flags => .given fun _ => tiers_alloc name _ flags) element).tiers n

/-- A part is newer than what holds it. -/
theorem tiers_link {holder part : SymbolId} {edge : EdgeKind} (hk : edge.isPart)
    (hlt : holder < part) : Tiers n (link holder part edge) := by
  refine (contract_link (Tiered n) holder part edge).weaken (fun _ hr => hr) ?_ fun _ hr => hr
  rintro _ ⟨_, _⟩ ⟨g, hg, hs, ht, rfl⟩
  exact ⟨hg.addEdge hs ht fun _ => ⟨hk, hlt⟩, True.intro⟩

/-- The edge is no part of what holds types together. -/
theorem tiers_setSingle (source target : SymbolId) {edge : EdgeKind} (hk : ¬edge.isStructural) :
    Tiers n (setSingle source target edge) := tiers_of_composed (.setSingle source target hk)

theorem tiers_markResolved (id : SymbolId) : Tiers n (markResolved id) :=
  tiers_of_composed (.markResolved id)

/-! ### Types -/

section Types

variable {setting : Setting} {place : TypePlace} {resolve : NodeRef → ResolveM SymbolId}
  (h : ∀ r n, Tiers n (resolve r))

include h

theorem tiers_makeParameter (signature : SymbolId) (r : NodeRef) :
    Tiers (signature + 1) (makeParameter place resolve signature r) := by
  unfold makeParameter
  split
  · refine tiers_alloc_bind fun parameter hlt => ?_
    refine (tiers_link rfl hlt).bind fun _ _ => (h _ _).bind fun type _ => ?_
    exact (tiers_setSingle _ _ (by decide)).bind fun _ _ => tiers_markResolved parameter
  · exact Keeps.pure True.intro

theorem tiers_makeSignature (r : NodeRef) : Tiers n (makeSignature place resolve r) (n ≤ ·) := by
  unfold makeSignature
  refine tiers_alloc_bind fun signature hle => ?_
  refine (Keeps.forM _ fun p _ => tiers_makeParameter h signature p).bind fun _ _ => ?_
  refine (h _ _).bind fun type _ => (tiers_setSingle _ _ (by decide)).bind fun _ _ => ?_
  exact (tiers_markResolved signature).bind fun _ _ => Keeps.pure hle

/-- The signature is made after what has it. -/
theorem tiers_makeSignature_link {holder : SymbolId} (hlt : holder < n) (r : NodeRef)
    {edge : EdgeKind} (hk : edge.isPart) : Tiers n (do
      let signature ← makeSignature place resolve r
      link holder signature edge) :=
  (tiers_makeSignature h r).bind fun _ hle => tiers_link hk (Nat.lt_of_lt_of_le hlt hle)

theorem tiers_makeCallable (r : NodeRef) (kind : SymbolKind) {edge : EdgeKind} (hk : edge.isPart) :
    Tiers n (makeCallable place resolve r kind edge) := by
  unfold makeCallable
  refine tiers_alloc_bind fun callable _ => ?_
  refine (tiers_makeSignature h r).bind fun signature hlt => (tiers_link hk hlt).bind fun _ _ => ?_
  exact (tiers_markResolved callable).bind fun _ _ => Keeps.pure True.intro

theorem tiers_makeField (literal : SymbolId) (node : Node) (p : ValueParts) :
    Tiers (literal + 1) (makeField place resolve literal node p) := by
  unfold makeField
  refine tiers_alloc_bind fun field hlt => ?_
  refine (tiers_link rfl hlt).bind fun _ _ => (h _ _).bind fun type _ => ?_
  exact (tiers_setSingle _ _ (by decide)).bind fun _ _ => tiers_markResolved field

omit h in
/-- The method of a literal is there, be it found or made. -/
theorem contract_literalMethod_tiered (literal : SymbolId) (name : String) :
    Contract (fun r => r.graph.Tiered (literal + 1)) (literalMethod literal name)
      (fun method r => r.graph.Tiered (max (literal + 1) (method + 1)))
      fun r => r.graph.Tiered (literal + 1) := by
  unfold literalMethod
  refine Contract.get_bind fun r hr => ?_
  split
  · next method hfind =>
    rintro _ rfl
    have hmem := List.mem_of_find?_eq_some hfind
    have hlt := lt_size_of_mem_members hr.wellFormed.toMirrored hmem
    exact { hr with le_size := Nat.max_le.mpr ⟨hr.le_size, hlt⟩ }
  · refine Contract.bind (contract_alloc_tiered.weaken (fun _ hs => hs ▸ hr) (fun _ _ hs => hs)
      fun _ hs => hs) fun method => Contract.assuming fun hlt => ?_
    have hmade : Tiers (method + 1) (do
        link literal method .publicProperty
        markResolved method
        return method) (· = method) :=
      (tiers_link rfl hlt).bind fun _ _ => (tiers_markResolved method).bind fun _ _ => Keeps.pure rfl
    refine Contract.weaken hmade (fun _ hs => hs) ?_ fun _ hs => hs.weaken (Nat.le_succ_of_le hlt)
    rintro _ r ⟨hs, rfl⟩
    exact hs.weaken (Nat.max_le.mpr ⟨Nat.le_succ_of_le hlt, Nat.le_refl _⟩)

theorem tiers_makeMember (literal : SymbolId) (r : NodeRef) :
    Tiers (literal + 1) (makeMember place resolve literal r) := by
  have hself : literal < literal + 1 := Nat.lt_succ_self literal
  unfold makeMember
  cases place.tree.node? r with
  | none => exact Keeps.pure True.intro
  | some node =>
      dsimp only
      split
      · split
        · exact tiers_makeField h literal node _
        · exact Keeps.pure True.intro
      · refine (contract_literalMethod_tiered literal _).bind fun method => ?_
        have hlt : method < max (literal + 1) (method + 1) := Nat.le_max_right _ _
        exact Contract.weaken (tiers_makeSignature_link h hlt r rfl) (fun _ hr => hr)
          (fun _ _ hr => ⟨hr.1.weaken (Nat.le_max_left _ _), hr.2⟩)
          fun _ hr => hr.weaken (Nat.le_max_left _ _)
      · exact tiers_makeSignature_link h hself r rfl
      · exact tiers_makeSignature_link h hself r rfl
      · exact tiers_makeSignature_link h hself r rfl
      · exact Keeps.pure True.intro

theorem tiers_makeLiteral (r : NodeRef) : Tiers n (makeLiteral place resolve r) := by
  unfold makeLiteral
  refine tiers_alloc_bind fun literal _ => (tiers_markResolved literal).bind fun _ _ => ?_
  exact (Keeps.forM _ fun member _ => tiers_makeMember h literal member).bind fun _ _ =>
    Keeps.pure True.intro

theorem tiers_typeOfNode (r : NodeRef) : Tiers n (typeOfNode place resolve setting r) := by
  unfold typeOfNode
  split
  · exact tiers_of_composed (composed_namedType _ r)
  · exact tiers_of_composed (composed_namedType r r)
  · exact tiers_of_composed (composed_namedType r r)
  · exact (h _ n).bind fun element _ => tiers_arrayOf element
  · exact tiers_makeCallable h r _ rfl
  · exact tiers_makeCallable h r _ rfl
  · exact tiers_makeLiteral h r
  · exact Keeps.pure True.intro
  · exact Keeps.pure True.intro

omit h in
/-- By induction on the levels of the node. -/
theorem tiers_typeWithin (levels : Nat) (r : NodeRef) (n : Nat) :
    Tiers n (typeWithin setting place levels r) := by
  induction levels generalizing r n with
  | zero => exact Keeps.throw _
  | succ levels ih =>
      rw [typeWithin]
      exact tiers_typeOfNode ih r

end Types

end ResolveM

/-! ### Main statement -/

open ResolveM in
theorem Demand.keeps_descends (d : Demand) (setting : Setting) :
    Keeps (fun r => r.graph.WellFormed ∧ r.graph.Descends) (d.run setting) := by
  have hrun : Composed (fun _ m => ∀ n, Tiers n m) (d.run setting) :=
    d.composed_run (fun _ r => .given (tiers_typeWithin _ r)) fun x => .given fun _ => tiers_arrayOf x
  exact Contract.weaken (hrun.tiers 0) (fun _ hr => ⟨hr.1, hr.2, Nat.zero_le _⟩)
    (fun _ _ hr => ⟨⟨hr.1.wellFormed, hr.1.descends⟩, hr.2⟩)
    fun _ hr => ⟨hr.wellFormed, hr.descends⟩

end NameBinding
