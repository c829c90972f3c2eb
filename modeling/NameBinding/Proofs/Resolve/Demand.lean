import NameBinding.Proofs.Resolve.Types
import NameBinding.Workspace.Request

/-! # Demands keep the graph

Main statement: whatever is demanded, and also when the demand fails, the graph changes only as
resolving may change it. -/

namespace NameBinding

open SymbolGraph

theorem SymbolGraph.mem_of_mem_pairsFrom {earlier later : List SymbolId} {p : SymbolId × SymbolId}
    (hp : p ∈ pairsFrom earlier later) : p.1 ∈ earlier ++ later ∧ p.2 ∈ later := by
  induction later generalizing earlier with
  | nil => exact absurd hp List.not_mem_nil
  | cons x rest ih =>
      rcases List.mem_append.mp hp with hp | hp
      · obtain ⟨y, hy, rfl⟩ := List.mem_map.mp hp
        exact ⟨List.mem_append_left _ hy, List.mem_cons_self⟩
      · obtain ⟨hfirst, hlast⟩ := ih hp
        rw [List.append_assoc] at hfirst
        exact ⟨hfirst, List.mem_cons_of_mem x hlast⟩

namespace ResolveM

variable {g₀ : SymbolGraph} {setting : Setting}

/-! ### Collisions -/

theorem keeps_reportCollision (earlier later : SymbolId) :
    Keeps (Resolution.From setting g₀) (reportCollision setting earlier later) := by
  unfold reportCollision
  refine keeps_graph.bind fun g _ => (keeps_firstSite later).bind fun site? _ => ?_
  cases site? with
  | none => exact Keeps.pure True.intro
  | some site =>
      refine (keeps_firstSite earlier).bind fun first? _ => ?_
      cases first? with
      | none => exact keeps_report _
      | some first => exact keeps_report _

theorem keeps_checkCollisions (container : SymbolId) :
    Keeps (Resolution.From setting g₀) (checkCollisions setting container) := by
  unfold checkCollisions
  split
  · exact keeps_graph.bind fun g _ => Keeps.forM _ fun pair _ => keeps_reportCollision pair.1 pair.2
  · exact Keeps.pure True.intro

/-! ### Bases -/

theorem keeps_baseFound (site : DeclSite) (notObject : Nat) (entry : NodeRef)
    (found : Option SymbolId) :
    Keeps (Resolution.From setting g₀) (baseFound setting site notObject entry found) := by
  cases found with
  | none => exact (keeps_report _).bind fun _ _ => Keeps.pure True.intro
  | some found =>
      refine (keeps_asType found).bind fun type _ => keeps_graph.bind fun g _ => ?_
      dsimp only
      split
      · exact Keeps.pure True.intro
      · exact (keeps_report _).bind fun _ _ => Keeps.pure True.intro

theorem keeps_heritageTarget (site : DeclSite) (notObject : Nat) (entry : NodeRef) :
    Keeps (Resolution.From setting g₀) (heritageTarget setting site notObject entry) := by
  rw [heritageTarget_eq]
  refine (keeps_findPath _ _ _ _).bind fun found _ => ?_
  cases found with
  | none =>
      exact (keeps_findPath _ _ _ _).bind fun found _ => keeps_baseFound site notObject entry found
  | some found => exact keeps_baseFound site notObject entry (some found)

section Pull

variable {pull : SymbolId → ResolveM Unit}

/-- A base is linked if it was found not to lead back to its heir. -/
theorem keeps_linkBase (h₀ : g₀.WellFormed)
    (h : ∀ id, Keeps (Resolution.From setting g₀) (pull id)) (site : DeclSite) {type : SymbolId}
    (htype : setting.IsHeir g₀ type) (entry : NodeRef) (base : SymbolId) :
    Keeps (Resolution.From setting g₀) (linkBase pull setting site type entry base) := by
  unfold linkBase
  refine (h base).bind fun _ _ => contract_graph_bind fun g hg => ?_
  dsimp only
  split
  · exact Contract.weaken (keeps_report _) (fun _ hr => hg.from_of_eq hr) (fun _ _ hr => hr)
      fun _ hr => hr
  · next hopen =>
    refine (contract_link (· = g) type base .extends).weaken (fun _ hr => hr) ?_
      fun _ hr => hg.from_of_eq hr
    rintro - r ⟨_, rfl, hs, ht, hr⟩
    refine ⟨(hg.change (.point _ rfl hs ht fun _ => ?_)).from_of_eq hr, True.intro⟩
    exact ⟨(hg.isHeir_iff h₀).mpr htype, fun hdetect hleads => hopen (by simp [hdetect, hleads])⟩

theorem keeps_extendWith (h₀ : g₀.WellFormed)
    (h : ∀ id, Keeps (Resolution.From setting g₀) (pull id)) (site : DeclSite) (notObject : Nat)
    {type : SymbolId} (htype : setting.IsHeir g₀ type) (entry : NodeRef) :
    Keeps (Resolution.From setting g₀) (extendWith pull setting site notObject type entry) := by
  unfold extendWith
  refine (keeps_heritageTarget site notObject entry).bind fun base? _ => ?_
  cases base? with
  | none => exact Keeps.pure True.intro
  | some base => exact keeps_linkBase h₀ h site htype entry base

theorem keeps_implementWith (site : DeclSite) (type : SymbolId) (entry : NodeRef) :
    Keeps (Resolution.From setting g₀) (implementWith setting site type entry) := by
  unfold implementWith
  refine (keeps_heritageTarget site _ entry).bind fun target? _ => ?_
  cases target? with
  | none => exact Keeps.pure True.intro
  | some target => exact keeps_link_resolution type target rfl (by decide)

theorem keeps_resolveClassDecl (h₀ : g₀.WellFormed)
    (h : ∀ id, Keeps (Resolution.From setting g₀) (pull id)) {inst : SymbolId}
    (hinst : setting.IsHeir g₀ inst) (decl : DeclId) :
    Keeps (Resolution.From setting g₀) (resolveClassDecl pull setting inst decl) := by
  unfold resolveClassDecl
  refine (keeps_site decl).bind fun site _ => ?_
  split
  · exact Keeps.pure True.intro
  · exact (Keeps.forM _ fun entry _ => keeps_extendWith h₀ h site _ hinst entry).bind fun _ _ =>
      Keeps.forM _ fun entry _ => keeps_implementWith site inst entry

theorem keeps_resolveClassWith (h₀ : g₀.WellFormed)
    (h : ∀ id, Keeps (Resolution.From setting g₀) (pull id)) (cls : SymbolId) :
    Keeps (Resolution.From setting g₀) (resolveClassWith pull setting cls) := by
  unfold resolveClassWith
  refine keeps_begin_then cls (keeps_graph.bind fun g hg => ?_)
  split
  · exact Keeps.throw _
  · next inst hside =>
    have he : g.hasEdge ⟨cls, inst, .instanceType⟩ :=
      (hg.wellFormed h₀).mem_targets_iff.mp (List.mem_of_head? hside)
    have hinst : setting.IsHeir g₀ inst := (hg.isHeir_iff h₀).mp (.inl ⟨cls, he⟩)
    exact (keeps_markResolved inst).bind fun _ _ => (keeps_removeOutgoing inst rfl).bind fun _ _ =>
      (keeps_removeOutgoing inst rfl).bind fun _ _ => (keeps_declarations cls).bind fun ds _ =>
        (Keeps.forM ds fun d _ => keeps_resolveClassDecl h₀ h hinst d).bind fun _ _ =>
          (keeps_checkCollisions inst).bind fun _ _ => keeps_checkCollisions cls

theorem keeps_resolveInterfaceDecl (h₀ : g₀.WellFormed)
    (h : ∀ id, Keeps (Resolution.From setting g₀) (pull id)) {interface : SymbolId} {d : DeclId}
    (hd : d ∈ g₀.declarations interface) :
    Keeps (Resolution.From setting g₀) (resolveInterfaceDecl pull setting interface d) := by
  unfold resolveInterfaceDecl
  refine (keeps_site d).bind fun site hsite => ?_
  obtain ⟨u, hu, hdecl, htree⟩ := hsite
  split
  · exact Keeps.pure True.intro
  · next i hi =>
    have hheir : setting.IsHeir g₀ interface :=
      .inr ⟨d, hd, u, site.decl, hu, hdecl, i, htree ▸ hi⟩
    exact Keeps.forM _ fun entry _ => keeps_extendWith h₀ h site _ hheir entry

theorem keeps_resolveInterfaceWith (h₀ : g₀.WellFormed)
    (h : ∀ id, Keeps (Resolution.From setting g₀) (pull id))
    (interface : SymbolId) :
    Keeps (Resolution.From setting g₀) (resolveInterfaceWith pull setting interface) := by
  unfold resolveInterfaceWith
  exact keeps_begin_then interface <| (keeps_removeOutgoing interface rfl).bind fun _ _ =>
    (keeps_declarations interface).bind fun ds hds =>
      (Keeps.forM ds fun d hd => keeps_resolveInterfaceDecl h₀ h (hds ▸ hd)).bind fun _ _ =>
        keeps_checkCollisions interface

end Pull

/-- By induction on the types that may still lie below. -/
theorem keeps_pullWithin (h₀ : g₀.WellFormed) (types : Nat) (type : SymbolId) :
    Keeps (Resolution.From setting g₀) (pullWithin setting types type) := by
  induction types generalizing type with
  | zero => exact Keeps.throw _
  | succ types ih =>
      rw [pullWithin]
      refine keeps_graph.bind fun g _ => ?_
      split
      · split
        · exact keeps_resolveClassWith h₀ ih _
        · exact Keeps.pure True.intro
      · exact keeps_resolveInterfaceWith h₀ ih type
      · exact Keeps.pure True.intro

theorem keeps_pull (h₀ : g₀.WellFormed) (type : SymbolId) :
    Keeps (Resolution.From setting g₀) (pull setting type) := by
  unfold pull
  exact keeps_graph.bind fun g _ => keeps_pullWithin h₀ _ type

theorem keeps_resolveClass (h₀ : g₀.WellFormed) (cls : SymbolId) :
    Keeps (Resolution.From setting g₀) (resolveClass setting cls) :=
  keeps_resolveClassWith h₀ (keeps_pull h₀) cls

theorem keeps_resolveInterface (h₀ : g₀.WellFormed) (interface : SymbolId) :
    Keeps (Resolution.From setting g₀) (resolveInterface setting interface) :=
  keeps_resolveInterfaceWith h₀ (keeps_pull h₀) interface

/-! ### Symbols -/

theorem keeps_resolveModule (id : SymbolId) :
    Keeps (Resolution.From setting g₀) (resolveModule setting id) :=
  keeps_begin_then id (keeps_checkCollisions id)

theorem keeps_chooseTypeNode (chosen : Option (DeclSite × NodeRef)) (ds : List DeclId) :
    Keeps (Resolution.From setting g₀) (chooseTypeNode setting chosen ds) := by
  induction ds generalizing chosen with
  | nil => exact Keeps.pure True.intro
  | cons d ds ih =>
      rw [chooseTypeNode]
      refine (keeps_site d).bind fun site _ => ?_
      split
      · exact ih chosen
      · exact Keeps.pure True.intro
      · exact ih _

theorem keeps_resolveValue (h₀ : g₀.WellFormed) (id : SymbolId) :
    Keeps (Resolution.From setting g₀) (resolveValue setting id) := by
  unfold resolveValue
  refine keeps_begin_then id ((keeps_declarations id).bind fun ds _ =>
    (keeps_chooseTypeNode none ds).bind fun chosen _ => ?_)
  split
  · exact (keeps_typeAt h₀ _).bind fun type _ => keeps_setSingle id type rfl (by decide)
  · exact keeps_setSingle id _ rfl (by decide)

theorem keeps_declaredReturn (h₀ : g₀.WellFormed) (id : SymbolId) (site : DeclSite) :
    Keeps (Resolution.From setting g₀) (declaredReturn setting id site) := by
  unfold declaredReturn
  refine keeps_graph.bind fun g _ => ?_
  split
  · exact Keeps.pure True.intro
  · exact keeps_typeAt h₀ _

theorem keeps_resolveSignature (h₀ : g₀.WellFormed) (id : SymbolId) :
    Keeps (Resolution.From setting g₀) (resolveSignature setting id) := by
  unfold resolveSignature
  refine keeps_begin_then id (keeps_graph.bind fun g _ =>
    (Keeps.forM _ fun p _ => keeps_resolveValue h₀ p).bind fun _ _ =>
      (keeps_firstSite id).bind fun site? _ => ?_)
  cases site? with
  | none => exact Keeps.pure True.intro
  | some site =>
      exact (keeps_declaredReturn h₀ id site).bind fun type _ => keeps_setSingle id type rfl (by decide)

theorem keeps_reportImplementations (seen : Bool) (ds : List DeclId) :
    Keeps (Resolution.From setting g₀) (reportImplementations setting seen ds) := by
  induction ds generalizing seen with
  | nil => exact Keeps.pure True.intro
  | cons d ds ih =>
      rw [reportImplementations]
      refine (keeps_site d).bind fun site _ => ?_
      dsimp only
      split
      · exact (keeps_report _).bind fun _ _ => ih _
      · exact ih _

theorem keeps_resolveFunction (h₀ : g₀.WellFormed) (id : SymbolId) :
    Keeps (Resolution.From setting g₀) (resolveFunction setting id) := by
  unfold resolveFunction
  exact keeps_begin_then id <| keeps_graph.bind fun g _ =>
    (Keeps.forM _ fun signature _ => keeps_resolveSignature h₀ signature).bind fun _ _ =>
      (keeps_declarations id).bind fun ds _ => keeps_reportImplementations false ds

theorem keeps_resolveSymbol (h₀ : g₀.WellFormed) (id : SymbolId) :
    Keeps (Resolution.From setting g₀) (resolveSymbol setting id) := by
  unfold resolveSymbol
  refine keeps_graph.bind fun g _ => ?_
  split
  · exact Keeps.throw _
  · exact keeps_resolveModule id
  · exact keeps_resolveModule id
  · exact keeps_resolveClass h₀ id
  · split
    · exact keeps_resolveClass h₀ _
    · exact Keeps.pure True.intro
  · exact keeps_resolveInterface h₀ id
  · exact keeps_resolveFunction h₀ id
  · exact keeps_resolveFunction h₀ id
  · exact keeps_resolveSignature h₀ id
  · exact keeps_resolveValue h₀ id
  · exact keeps_resolveValue h₀ id
  · exact keeps_resolveValue h₀ id
  · exact (keeps_resolveAlias id).bind fun _ _ => Keeps.pure True.intro
  · exact keeps_markResolved id
  · exact keeps_markResolved id
  · exact keeps_markResolved id
  · exact keeps_markResolved id

end ResolveM

namespace Demand

open ResolveM

variable {g₀ : SymbolGraph} {setting : Setting}

theorem keeps_thenItself (id : SymbolId) {step : ResolveM Unit}
    (h : Keeps (Resolution.From setting g₀) step) : Keeps (Resolution.From setting g₀) (thenItself id step) :=
  h.bind fun _ _ => Keeps.pure True.intro

/-- Every demand, also one that fails, changes the graph only as resolving may. -/
theorem keeps_run (h₀ : g₀.WellFormed) (d : Demand) :
    Keeps (Resolution.From setting g₀) (d.run setting) := by
  cases d with
  | symbol id => exact keeps_thenItself id (keeps_resolveSymbol h₀ id)
  | module id => exact keeps_thenItself id (keeps_resolveModule id)
  | classType id => exact keeps_thenItself id (keeps_resolveClass h₀ id)
  | interface id => exact keeps_thenItself id (keeps_resolveInterface h₀ id)
  | function id => exact keeps_thenItself id (keeps_resolveFunction h₀ id)
  | signature id => exact keeps_thenItself id (keeps_resolveSignature h₀ id)
  | value id => exact keeps_thenItself id (keeps_resolveValue h₀ id)
  | «alias» id => exact (keeps_resolveAlias id).map fun _ h => h
  | aliasTarget id => exact (keeps_aliasTarget id).map fun _ h => h
  | arrayOf element => exact (keeps_arrayOf element).map fun _ h => h
  | path segments context enclosing meaning =>
      exact keeps_findPath segments context enclosing meaning
  | typeNode unit node context enclosing =>
      exact (keeps_typeReference h₀ unit node context enclosing).map fun _ h => h

end Demand

end NameBinding
