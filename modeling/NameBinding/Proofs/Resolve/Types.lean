import NameBinding.Proofs.Resolve.Path
import NameBinding.Resolve.TypeNode

/-! # Types that are made keep the graph

Whatever a type node asks for is put together from new symbols alone, so no symbol that was there
becomes a part of a type. -/

theorem NameBinding.WellKnown.ofKeyword?_getD_lt (kind : NodeKind) :
    (ofKeyword? kind).getD any < count := by
  cases hk : ofKeyword? kind with
  | none => decide
  | some id =>
      have hlt : id < keywords.length := (List.findIdx?_eq_some_iff_findIdx_eq.mp hk).1
      exact Nat.lt_of_lt_of_le hlt (by decide)

namespace NameBinding.ResolveM

open SymbolGraph

variable {g₀ : SymbolGraph} {setting : Setting} {place : TypePlace}

theorem has_synthesized_single : (Flags.single SymbolFlag.synthesized).has .synthesized := by
  decide

theorem not_has_wellKnown_single : ¬(Flags.single SymbolFlag.synthesized).has .wellKnown := by
  decide

theorem keeps_make (name : String) (kind : SymbolKind) :
    Keeps (Resolution.From setting g₀) (alloc name kind (Flags.single .synthesized))
      (fun id => g₀.size ≤ id) :=
  keeps_alloc name kind has_synthesized_single not_has_wellKnown_single

theorem has_synthesized_partFlags (node : Node) : (partFlags node).has .synthesized := by
  unfold partFlags
  split <;> decide

theorem not_has_wellKnown_partFlags (node : Node) : ¬(partFlags node).has .wellKnown := by
  unfold partFlags
  split <;> decide

/-- An array type is made only for an element type that has none. -/
theorem keeps_arrayOf (element : SymbolId) :
    Keeps (Resolution.From setting g₀) (arrayOf element) := by
  unfold arrayOf
  refine contract_graph_bind fun g hg => ?_
  split
  · next hnone =>
    refine Contract.bind (Q := fun array r => array = g.size ∧
      r.graph = g.alloc (g.name element ++ "[]") .array (Flags.single .synthesized)) ?_ ?_
    · refine (contract_onGraph (GraphM.contract_alloc (P := (· = g)) _ _ _)).weaken
        (fun _ hr => hr) ?_ fun r hr => hg.from_of_eq hr
      rintro array r ⟨_, rfl, hid, hr⟩
      exact ⟨hid, hr⟩
    · refine fun array => Contract.assuming fun harray => ?_
      have hnew := hg.change (.make (g.name element ++ "[]") .array (Flags.single .synthesized)
        has_synthesized_single not_has_wellKnown_single)
      refine Contract.bind (Q := fun _ => Resolution.From setting g₀) ?_ fun _ =>
        (keeps_markResolved array).bind fun _ _ => Keeps.pure True.intro
      refine (contract_link (· = _) array element .arrayOf).weaken (fun _ hr => hr) ?_
        fun r hr => hnew.from_of_eq hr
      rintro - r ⟨_, rfl, hs, ht, hr⟩
      refine (hnew.change (.array ⟨array, element, .arrayOf⟩ rfl hs ht ?_ ?_ ?_)).from_of_eq hr
      · exact harray ▸ hg.size_le
      · rw [sources_eq, incoming_alloc, ← sources_eq]
        exact hnone
      · rw [harray, kind?_eq, label?_alloc, if_pos rfl]
        rfl
  · next array _ => exact Contract.pure array fun r hr => ⟨hg.from_of_eq hr, True.intro⟩
  · exact Contract.throw _ fun r hr => hg.from_of_eq hr

/-- The type of a name that is found nowhere. -/
theorem keeps_missing (d : Diagnostic) :
    Keeps (Resolution.From setting g₀) (do report d; return WellKnown.error : ResolveM SymbolId) :=
  (keeps_report d).bind fun _ _ => Keeps.pure True.intro

theorem keeps_namedType (name reported : NodeRef) :
    Keeps (Resolution.From setting g₀) (namedType setting place name reported) := by
  unfold namedType
  refine (keeps_findPath _ _ _ _).bind fun found _ => ?_
  cases found with
  | none => exact keeps_missing _
  | some found =>
      refine (keeps_asType found).bind fun type _ => keeps_graph.bind fun g _ => ?_
      split
      · exact Keeps.pure True.intro
      · exact keeps_missing _

section Nested

variable {resolve : NodeRef → ResolveM SymbolId}

/-- A parameter is joined to its signature, which is not a part of anything yet. -/
theorem keeps_makeParameter (h₀ : g₀.WellFormed) (h : ∀ g : SymbolGraph, g.WellFormed →
    ∀ r, Keeps (Resolution.From setting g) (resolve r)) {signature : SymbolId}
    (hs : g₀.size ≤ signature) (r : NodeRef) :
    Keeps (Resolution.Spares setting g₀ signature) (makeParameter place resolve signature r) := by
  unfold makeParameter
  split
  · next node p _ _ =>
    refine keeps_spares_part h₀ (has_synthesized_partFlags node) (not_has_wellKnown_partFlags node) hs
      rfl fun parameter => keeps_spares h₀ signature fun g hg => ?_
    exact (h g hg p.typeNode).bind fun type _ =>
      (keeps_setSingle parameter type rfl (by decide)).bind fun _ _ => keeps_markResolved parameter
  · exact Keeps.pure True.intro

/-- A signature is made that is not a part of anything yet. -/
theorem contract_makeSignature (h₀ : g₀.WellFormed) (h : ∀ g : SymbolGraph, g.WellFormed →
    ∀ r, Keeps (Resolution.From setting g) (resolve r)) (r : NodeRef) :
    Contract (Resolution.From setting g₀) (makeSignature place resolve r)
      (fun id r => g₀.size ≤ id ∧ Resolution.Spares setting g₀ id r) (Resolution.From setting g₀) := by
  unfold makeSignature
  refine Contract.bind (Q := fun id r => g₀.size ≤ id ∧ Resolution.Spares setting g₀ id r) ?_ ?_
  · refine (contract_onGraph (GraphM.contract_alloc "" .signature _)).weaken (fun _ hr => hr) ?_
      fun _ hr => hr
    rintro id r ⟨g, hg, rfl, hr⟩
    refine ⟨hg.size_le, ?_⟩
    rw [Resolution.Spares, hr]
    exact ⟨hg.change (.make _ _ _ has_synthesized_single not_has_wellKnown_single),
      lt_size_alloc g _ _ _, fun x => IsAround.not_alloc (hg.wellFormed h₀).toMirrored _ _ _⟩
  · refine fun signature => Contract.assuming fun hs => ?_
    have hpost : ∀ id r, Resolution.Spares setting g₀ signature r ∧ id = signature →
        g₀.size ≤ id ∧ Resolution.Spares setting g₀ id r := by
      rintro _ r ⟨hr, rfl⟩
      exact ⟨hs, hr⟩
    refine Contract.weaken (Keeps.bind (Keeps.forM _ fun p _ => ?_) fun _ _ => ?_) (fun _ hr => hr)
      hpost fun _ hr => hr.resolves
    · exact keeps_makeParameter h₀ h hs p
    · exact keeps_spares h₀ signature fun g hg => (h g hg _).bind fun type _ =>
        (keeps_setSingle signature type rfl (by decide)).bind fun _ _ =>
          (keeps_markResolved signature).bind fun _ _ => Keeps.pure rfl

theorem keeps_makeSignature (h₀ : g₀.WellFormed) (h : ∀ g : SymbolGraph, g.WellFormed →
    ∀ r, Keeps (Resolution.From setting g) (resolve r)) (r : NodeRef) :
    Keeps (Resolution.From setting g₀) (makeSignature place resolve r) (fun id => g₀.size ≤ id) :=
  (contract_makeSignature h₀ h r).weaken (fun _ hr => hr) (fun _ _ hr => ⟨hr.2.resolves, hr.1⟩)
    fun _ hr => hr

/-- A signature is made and hung on a part. -/
theorem keeps_makeSignature_link (h₀ : g₀.WellFormed) (h : ∀ g : SymbolGraph, g.WellFormed →
    ∀ r, Keeps (Resolution.From setting g) (resolve r)) (r : NodeRef) {owner : SymbolId}
    (ho : g₀.size ≤ owner) {kind : EdgeKind} (hk : kind.isSignature) :
    Keeps (Resolution.From setting g₀) (do
      let signature ← makeSignature place resolve r
      link owner signature kind) := by
  refine Contract.bind (contract_makeSignature h₀ h r) fun signature => Contract.assuming fun hs => ?_
  refine (contract_link (g₀.Spares setting signature) owner signature kind).weaken (fun _ hr => hr) ?_
    fun _ hr => hr.resolves
  rintro - r' ⟨g, hg, hos, hss, hr⟩
  exact ⟨(hg.resolves.change (.part ⟨owner, signature, kind⟩ (EdgeKind.isPart_of_isSignature hk) hos hss
    ho hs hg.free)).from_of_eq hr, True.intro⟩

theorem keeps_makeCallable (h₀ : g₀.WellFormed) (h : ∀ g : SymbolGraph, g.WellFormed →
    ∀ r, Keeps (Resolution.From setting g) (resolve r)) (r : NodeRef) (kind : SymbolKind)
    {signatureKind : EdgeKind} (hk : signatureKind.isSignature) :
    Keeps (Resolution.From setting g₀) (makeCallable place resolve r kind signatureKind) := by
  unfold makeCallable
  refine (keeps_make _ _).bind fun callable hc => ?_
  rw [← bind_assoc]
  exact (keeps_makeSignature_link h₀ h r hc hk).bind fun _ _ =>
    (keeps_markResolved callable).bind fun _ _ => Keeps.pure True.intro

theorem keeps_makeField (h₀ : g₀.WellFormed) (h : ∀ g : SymbolGraph, g.WellFormed →
    ∀ r, Keeps (Resolution.From setting g) (resolve r)) {literal : SymbolId}
    (hl : g₀.size ≤ literal) (node : Node) (p : ValueParts) :
    Keeps (Resolution.From setting g₀) (makeField place resolve literal node p) := by
  unfold makeField
  refine keeps_part h₀ (has_synthesized_partFlags node) (not_has_wellKnown_partFlags node) hl rfl ?_
  exact fun field _ => (h g₀ h₀ p.typeNode).bind fun type _ =>
    (keeps_setSingle field type rfl (by decide)).bind fun _ _ => keeps_markResolved field

/-- The members of a new type literal are new. -/
theorem mem_members_ge (h₀ : g₀.WellFormed) {g : SymbolGraph} (hg : g₀.Resolves setting g)
    {literal m : SymbolId} (hl : g₀.size ≤ literal) (hm : m ∈ g.members literal) :
    g₀.size ≤ m := by
  unfold members listFor at hm
  split at hm
  · obtain ⟨e, he, rfl⟩ := List.mem_map.mp hm
    obtain ⟨he, hk⟩ := List.mem_filter.mp he
    obtain rfl := (hg.wellFormed h₀).source_eq he
    exact hg.target_ge h₀ (hasEdge_iff.mpr he) hk hl
  · exact absurd hm List.not_mem_nil

theorem keeps_literalMethod (h₀ : g₀.WellFormed) {literal : SymbolId} (hl : g₀.size ≤ literal)
    (name : String) :
    Keeps (Resolution.From setting g₀) (literalMethod literal name) (fun id => g₀.size ≤ id) := by
  unfold literalMethod
  refine keeps_graph.bind fun g hg => ?_
  split
  · next method hm => exact Keeps.pure (mem_members_ge h₀ hg hl (List.mem_of_find?_eq_some hm))
  · exact keeps_part h₀ has_synthesized_single not_has_wellKnown_single hl rfl fun method hm =>
      (keeps_markResolved method).bind fun _ _ => Keeps.pure hm

theorem keeps_makeMember (h₀ : g₀.WellFormed) (h : ∀ g : SymbolGraph, g.WellFormed →
    ∀ r, Keeps (Resolution.From setting g) (resolve r)) {literal : SymbolId}
    (hl : g₀.size ≤ literal) (r : NodeRef) :
    Keeps (Resolution.From setting g₀) (makeMember place resolve literal r) := by
  unfold makeMember
  cases place.tree.node? r with
  | none => exact Keeps.pure True.intro
  | some node =>
      dsimp only
      split
      · split
        · exact keeps_makeField h₀ h hl node _
        · exact Keeps.pure True.intro
      · exact (keeps_literalMethod h₀ hl _).bind fun _ hm => keeps_makeSignature_link h₀ h r hm rfl
      · exact keeps_makeSignature_link h₀ h r hl rfl
      · exact keeps_makeSignature_link h₀ h r hl rfl
      · exact keeps_makeSignature_link h₀ h r hl rfl
      · exact Keeps.pure True.intro

theorem keeps_makeLiteral (h₀ : g₀.WellFormed) (h : ∀ g : SymbolGraph, g.WellFormed →
    ∀ r, Keeps (Resolution.From setting g) (resolve r)) (r : NodeRef) : Keeps (Resolution.From setting g₀) (makeLiteral place resolve r) := by
  unfold makeLiteral
  exact (keeps_make _ _).bind fun literal hl => (keeps_markResolved literal).bind fun _ _ =>
    (Keeps.forM _ fun member _ => keeps_makeMember h₀ h hl member).bind fun _ _ =>
      Keeps.pure True.intro

theorem keeps_typeOfNode (h₀ : g₀.WellFormed) (h : ∀ g : SymbolGraph, g.WellFormed →
    ∀ r, Keeps (Resolution.From setting g) (resolve r)) (r : NodeRef) : Keeps (Resolution.From setting g₀) (typeOfNode place resolve setting r) := by
  unfold typeOfNode
  split
  · exact keeps_namedType _ r
  · exact keeps_namedType r r
  · exact keeps_namedType r r
  · exact (h g₀ h₀ _).bind fun element _ => keeps_arrayOf element
  · exact keeps_makeCallable h₀ h r _ rfl
  · exact keeps_makeCallable h₀ h r _ rfl
  · exact keeps_makeLiteral h₀ h r
  · exact Keeps.pure True.intro
  · exact Keeps.pure True.intro

end Nested

/-- By induction on the levels of the node. -/
theorem keeps_typeWithin (h₀ : g₀.WellFormed) (levels : Nat) (r : NodeRef) :
    Keeps (Resolution.From setting g₀) (typeWithin setting place levels r) := by
  induction levels generalizing g₀ r with
  | zero => exact Keeps.throw _
  | succ levels ih =>
      rw [typeWithin]
      exact keeps_typeOfNode h₀ (fun _ hg r => ih hg r) r

theorem keeps_typeAt (h₀ : g₀.WellFormed) (r : NodeRef) :
    Keeps (Resolution.From setting g₀) (typeAt setting place r) :=
  keeps_typeWithin h₀ _ r

theorem keeps_typeReference (h₀ : g₀.WellFormed) (unit : UnitId) (r : NodeRef)
    (context : List SymbolId) (enclosing : Option DeclId) :
    Keeps (Resolution.From setting g₀) (typeReference setting unit r context enclosing) := by
  unfold typeReference
  cases setting.program.unitById? unit with
  | none => exact Keeps.throw _
  | some u => exact keeps_typeAt h₀ r

end NameBinding.ResolveM
