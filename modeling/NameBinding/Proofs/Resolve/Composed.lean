import NameBinding.Proofs.Resolve.Rest
import NameBinding.Proofs.Resolve.Steps
import NameBinding.Workspace.Request

/-! # What resolving is composed of

Whatever is resolved, it is done in basic steps: edges are added, marks are set, edges are dropped,
problems are reported, and the graph is read in between. A property of the basic steps that one step
after another keeps is a property of all resolving.

Symbols are made, and the edges that hold synthesized types together are drawn, when types are made,
and only there. So what depends on which of them are made is shown of the types first, and the rest of
resolving follows. -/

namespace NameBinding

open SymbolGraph

namespace ResolveM

/-- Basic steps and given ones, one after another, each chosen by the answers of those before it. No
basic step makes a symbol or draws an edge that declarations could have made, and only edges to bases
are dropped without another one in their place. -/
inductive Composed (Given : (α : Type) → ResolveM α → Prop) : {α : Type} → ResolveM α → Prop
  | given {α : Type} {m : ResolveM α} (h : Given α m) : Composed Given m
  | pure {α : Type} (a : α) : Composed Given (pure a)
  | throw {α : Type} (e : BindError) : Composed Given (throw e : ResolveM α)
  | bind {α β : Type} {m : ResolveM α} {f : α → ResolveM β} (hm : Composed Given m)
      (hf : ∀ a, Composed Given (f a)) : Composed Given (m >>= f)
  | graph : Composed Given graph
  | link (source target : SymbolId) {kind : EdgeKind} (hk : ¬kind.isStructural) :
      Composed Given (link source target kind)
  | setSingle (source target : SymbolId) {kind : EdgeKind} (hk : ¬kind.isStructural) :
      Composed Given (setSingle source target kind)
  | markResolved (id : SymbolId) : Composed Given (markResolved id)
  | removeOutgoing (id : SymbolId) {kind : EdgeKind} (hk : kind = .extends ∨ kind = .implements) :
      Composed Given (removeOutgoing id kind)
  | report (d : Diagnostic) : Composed Given (report d)

namespace Composed

variable {Given : (α : Type) → ResolveM α → Prop} {α β : Type} {m : ResolveM α}

protected theorem graph_bind {f : SymbolGraph → ResolveM α} (h : ∀ g, Composed Given (f g)) :
    Composed Given (ResolveM.graph >>= f) := Composed.graph.bind h

protected theorem map (hm : Composed Given m) (f : α → β) : Composed Given (f <$> m) := by
  rw [map_eq_pure_bind]
  exact hm.bind fun a => .pure (f a)

protected theorem forM {f : α → ResolveM PUnit} (as : List α) (h : ∀ a, Composed Given (f a)) :
    Composed Given (as.forM f) := by
  induction as with
  | nil => exact .pure _
  | cons a as ih => exact (h a).bind fun _ => ih

protected theorem findSomeM? {f : α → ResolveM (Option β)} (as : List α)
    (h : ∀ a, Composed Given (f a)) : Composed Given (as.findSomeM? f) := by
  induction as with
  | nil => exact .pure _
  | cons a as ih =>
      rw [List.findSomeM?_cons]
      refine (h a).bind fun found => ?_
      cases found with
      | none => exact ih
      | some b => exact .pure _

end Composed

/-- Basic writes keep a property of graphs. -/
structure Withstands (P : SymbolGraph → Prop) : Prop where
  addEdge : ∀ {g}, P g → ∀ {e : Edge}, ¬e.kind.isStructural → e.source < g.size →
    e.target < g.size → P (g.addEdge e)
  removeEdge : ∀ {g}, P g → ∀ e : Edge, P (g.removeEdge e)
  setResolved : ∀ {g}, P g → ∀ id, P (g.setResolved id true)

/-- What basic writes and given steps keep is kept. By cases on the basic step. -/
theorem Composed.keeps {Given : (α : Type) → ResolveM α → Prop} {P : SymbolGraph → Prop}
    (hP : Withstands P) (hgiven : ∀ {α} {m : ResolveM α}, Given α m → Keeps (fun r => P r.graph) m)
    {α : Type} {m : ResolveM α} (h : Composed Given m) : Keeps (fun r => P r.graph) m := by
  induction h with
  | given h => exact hgiven h
  | pure a => exact Keeps.pure True.intro
  | throw e => exact Keeps.throw e
  | bind _ _ hm hf => exact hm.bind fun a _ => hf a
  | graph => exact Keeps.get_bind fun r _ => Keeps.pure True.intro
  | link source target hk =>
      refine (contract_link P source target _).weaken (fun _ hr => hr) ?_ fun _ hr => hr
      rintro _ ⟨_, _⟩ ⟨g, hg, hs, ht, rfl⟩
      exact ⟨hP.addEdge hg hk hs ht, True.intro⟩
  | setSingle source target hk =>
      refine (contract_onGraph (GraphM.keeps_setSingle (P := P) ?_ ?_)).weaken
        (fun _ hr => hr) (fun _ _ hr => hr) fun _ hr => hr
      · exact fun g x hg => hP.removeEdge hg _
      · exact fun g hg hs ht => hP.addEdge hg hk hs ht
  | markResolved id => exact Keeps.modify fun r hr => hP.setResolved hr id
  | @removeOutgoing id kind _ =>
      refine Keeps.modify fun r hr => ?_
      exact removeTargets_induction (P := P) (fun g x hg => hP.removeEdge hg ⟨id, x, kind⟩) _ hr
  | report d =>
      refine Keeps.modify fun r hr => ?_
      split
      · exact hr
      · exact hr

variable {Given : (α : Type) → ResolveM α → Prop} {setting : Setting} {α : Type}

/-! ### Steps -/

theorem composed_begin (id : SymbolId) : Composed Given (begin id) := by
  refine .graph_bind fun g => ?_
  cases g.get? id with
  | none => exact .throw _
  | some s =>
      dsimp only
      split
      · exact .pure _
      · exact (Composed.markResolved id).bind fun _ => .pure _

/-- Work that is done once for a symbol. -/
theorem composed_begin_else (id : SymbolId) {work rest : ResolveM α} (hwork : Composed Given work)
    (hrest : Composed Given rest) : Composed Given (do if ← begin id then work else rest) := by
  refine (composed_begin id).bind fun b => ?_
  split
  · exact hwork
  · exact hrest

theorem composed_begin_then (id : SymbolId) {work : ResolveM Unit} (hwork : Composed Given work) :
    Composed Given (do if ← begin id then work) := composed_begin_else id hwork (.pure _)

theorem composed_declarations (id : SymbolId) : Composed Given (declarations id) := by
  refine .graph_bind fun g => ?_
  cases g.get? id with
  | none => exact .throw _
  | some s => exact .pure _

theorem composed_site (d : DeclId) : Composed Given (site setting d) := by
  unfold site
  cases setting.program.unitById? d.unit with
  | none => exact .throw _
  | some u =>
      dsimp only
      cases u.decl? d with
      | none => exact .throw _
      | some decl => exact .pure _

theorem composed_firstSite (id : SymbolId) : Composed Given (firstSite setting id) := by
  refine (composed_declarations id).bind fun ds => ?_
  cases ds.head? with
  | none => exact .pure _
  | some d => exact (composed_site d).bind fun _ => .pure _

/-- What was not found is reported. -/
theorem composed_missing (d : Diagnostic) :
    Composed Given (do report d; return WellKnown.error : ResolveM SymbolId) :=
  (Composed.report d).bind fun _ => .pure _

/-! ### Names -/

section Search

variable {aliasTarget : SymbolId → ResolveM SymbolId} (h : ∀ id, Composed Given (aliasTarget id))

include h

theorem composed_walkMembers (meaning : Meaning) (current : SymbolId) (segments : List String) :
    Composed Given (walkMembers aliasTarget meaning current segments) := by
  induction segments generalizing current with
  | nil => exact .pure _
  | cons segment rest ih =>
      have hgo : ∀ holder, Composed Given (walkOn aliasTarget meaning segment rest holder) := by
        refine fun holder => .graph_bind fun g => ?_
        cases (g.publicMembers holder).find? (g.admits segment (meaning.atSegment rest)) with
        | none => exact .pure _
        | some next => exact ih next
      rw [walkMembers_cons]
      refine .graph_bind fun g => ?_
      split
      · exact (h current).bind hgo
      · exact hgo current

theorem composed_lookupAmong (candidates : List SymbolId) (segments : List String)
    (meaning : Meaning) : Composed Given (lookupAmong aliasTarget candidates segments meaning) := by
  unfold lookupAmong
  cases segments with
  | nil => exact .pure _
  | cons first rest =>
      exact .graph_bind fun g => .findSomeM? _ fun id =>
        composed_walkMembers h meaning id rest

theorem composed_lookupPath (segments : List String) (context : List SymbolId)
    (enclosing : Option DeclId) (meaning : Meaning) :
    Composed Given (lookupPath aliasTarget setting segments context enclosing meaning) := by
  unfold lookupPath
  split
  · exact .pure _
  · refine Composed.bind (.findSomeM? _ fun anchor => .graph_bind fun g =>
      composed_lookupAmong h _ segments meaning) fun found => ?_
    cases found with
    | none => exact composed_lookupAmong h _ segments meaning
    | some found => exact .pure _

end Search

/-! ### Aliases -/

theorem composed_settledTarget (id : SymbolId) : Composed Given (settledTarget id) :=
  .graph_bind fun _ => .pure _

theorem composed_settle {resolve : SymbolId → ResolveM SymbolId}
    (h : ∀ id, Composed Given (resolve id)) (id : SymbolId) : Composed Given (settle resolve id) := by
  refine .graph_bind fun g => ?_
  split
  · exact composed_settledTarget id
  · exact h id

theorem composed_requiredModule (site : DeclSite) (reference : NodeRef) :
    Composed Given (requiredModule setting site reference) := by
  refine .graph_bind fun g => ?_
  split
  · exact .pure _
  · exact composed_missing _

theorem composed_namedTarget {resolve : SymbolId → ResolveM SymbolId}
    (h : ∀ id, Composed Given (resolve id)) (id : SymbolId) (site : DeclSite) (reference : NodeRef) :
    Composed Given (namedTarget setting resolve id site reference) := by
  unfold namedTarget
  refine (composed_lookupPath (composed_settle h) _ _ _ _).bind fun found => ?_
  cases found with
  | none => exact composed_missing _
  | some found =>
      dsimp only
      split
      · exact composed_missing _
      · refine .graph_bind fun g => ?_
        split
        · exact h found
        · exact .pure _

theorem composed_declaredTarget {resolve : SymbolId → ResolveM SymbolId}
    (h : ∀ id, Composed Given (resolve id)) (id : SymbolId) :
    Composed Given (declaredTarget setting resolve id) := by
  unfold declaredTarget
  refine (composed_firstSite id).bind fun site? => ?_
  cases site? with
  | none => exact .pure _
  | some site =>
      dsimp only
      split
      · split
        · exact composed_requiredModule site _
        · exact composed_namedTarget h id site _
      · exact .pure _

/-- By induction on the aliases that may still be followed. -/
theorem composed_resolveAliasWithin (hops : Nat) (id : SymbolId) :
    Composed Given (resolveAliasWithin setting hops id) := by
  induction hops generalizing id with
  | zero =>
      rw [resolveAliasWithin]
      exact composed_begin_else id ((Composed.setSingle _ _ (by decide)).bind fun _ => .pure _)
        (composed_settledTarget id)
  | succ hops ih =>
      rw [resolveAliasWithin]
      exact composed_begin_else id ((composed_declaredTarget ih id).bind fun target =>
        (Composed.setSingle _ _ (by decide)).bind fun _ => .pure _) (composed_settledTarget id)

theorem composed_aliasTarget (id : SymbolId) : Composed Given (aliasTarget setting id) :=
  composed_settle (composed_resolveAliasWithin _) id

theorem composed_findPath (segments : List String) (context : List SymbolId)
    (enclosing : Option DeclId) (meaning : Meaning) :
    Composed Given (findPath setting segments context enclosing meaning) :=
  composed_lookupPath composed_aliasTarget segments context enclosing meaning

theorem composed_typeDenoted (denoted : SymbolId) : Composed Given (typeDenoted denoted) := by
  unfold typeDenoted
  refine .graph_bind fun g => ?_
  split
  · exact .pure _
  · split
    · exact .pure _
    · exact .throw _
  · exact .pure _
  · exact .throw _

theorem composed_asType (symbol : SymbolId) : Composed Given (asType setting symbol) := by
  rw [asType_eq]
  refine .graph_bind fun g => ?_
  split
  · exact (composed_aliasTarget symbol).bind composed_typeDenoted
  · exact composed_typeDenoted symbol

/-! ### Types -/

section Types

variable {place : TypePlace}

theorem composed_namedType (name reported : NodeRef) :
    Composed Given (namedType setting place name reported) := by
  unfold namedType
  refine (composed_findPath _ _ _ _).bind fun found => ?_
  cases found with
  | none => exact composed_missing _
  | some found =>
      refine (composed_asType found).bind fun type => .graph_bind fun g => ?_
      split
      · exact .pure _
      · exact composed_missing _

variable (halloc : ∀ (name : String) {kind : SymbolKind}, kind ≠ .classType →
    ∀ flags : Flags SymbolFlag, Composed Given (alloc name kind flags))

include halloc

theorem composed_arrayOf (element : SymbolId) : Composed Given (arrayOf element) := by
  refine .graph_bind fun g => ?_
  split
  · exact (halloc _ (by simp) _).bind fun array =>
      (Composed.link _ _ (by decide)).bind fun _ => (Composed.markResolved array).bind fun _ => .pure _
  · exact .pure _
  · exact .throw _

variable {resolve : NodeRef → ResolveM SymbolId}
  (hlink : ∀ source target kind, Composed Given (link source target kind))
  (h : ∀ r, Composed Given (resolve r))

include hlink h

theorem composed_makeParameter (signature : SymbolId) (r : NodeRef) :
    Composed Given (makeParameter place resolve signature r) := by
  unfold makeParameter
  split
  · exact (halloc _ (by simp) _).bind fun parameter => (hlink _ _ _).bind fun _ =>
      (h _).bind fun _ => (Composed.setSingle _ _ (by decide)).bind fun _ =>
        Composed.markResolved parameter
  · exact .pure _

theorem composed_makeSignature (r : NodeRef) : Composed Given (makeSignature place resolve r) := by
  unfold makeSignature
  refine (halloc _ (by simp) _).bind fun signature => ?_
  refine (Composed.forM _ fun p => composed_makeParameter halloc hlink h signature p).bind fun _ => ?_
  exact (h _).bind fun _ => (Composed.setSingle _ _ (by decide)).bind fun _ =>
    (Composed.markResolved signature).bind fun _ => .pure _

theorem composed_makeCallable (r : NodeRef) {kind : SymbolKind} (hk : kind ≠ .classType)
    (signatureKind : EdgeKind) :
    Composed Given (makeCallable place resolve r kind signatureKind) := by
  unfold makeCallable
  exact (halloc _ hk _).bind fun callable => (composed_makeSignature halloc hlink h r).bind fun _ =>
    (hlink _ _ _).bind fun _ => (Composed.markResolved callable).bind fun _ => .pure _

omit h in
theorem composed_literalMethod (literal : SymbolId) (name : String) :
    Composed Given (literalMethod literal name) := by
  refine .graph_bind fun g => ?_
  split
  · exact .pure _
  · exact (halloc _ (by simp) _).bind fun method => (hlink _ _ _).bind fun _ =>
      (Composed.markResolved method).bind fun _ => .pure _

theorem composed_makeMember (literal : SymbolId) (r : NodeRef) :
    Composed Given (makeMember place resolve literal r) := by
  have hsigned : ∀ holder kind, Composed Given (do
      let signature ← makeSignature place resolve r
      link holder signature kind) := fun holder kind =>
    (composed_makeSignature halloc hlink h r).bind fun _ => hlink _ _ _
  unfold makeMember
  cases place.tree.node? r with
  | none => exact .pure _
  | some node =>
      dsimp only
      split
      · split
        · exact (halloc _ (by simp) _).bind fun field => (hlink _ _ _).bind fun _ =>
            (h _).bind fun _ => (Composed.setSingle _ _ (by decide)).bind fun _ =>
              Composed.markResolved field
        · exact .pure _
      · exact (composed_literalMethod halloc hlink literal _).bind fun method => hsigned method _
      · exact hsigned literal _
      · exact hsigned literal _
      · exact hsigned literal _
      · exact .pure _

theorem composed_typeOfNode (r : NodeRef) :
    Composed Given (typeOfNode place resolve setting r) := by
  unfold typeOfNode
  split
  · exact composed_namedType _ r
  · exact composed_namedType r r
  · exact composed_namedType r r
  · exact (h _).bind fun element => composed_arrayOf halloc element
  · exact composed_makeCallable halloc hlink h r (by simp) _
  · exact composed_makeCallable halloc hlink h r (by simp) _
  · unfold makeLiteral
    refine (halloc _ (by simp) _).bind fun literal => (Composed.markResolved literal).bind fun _ => ?_
    exact (Composed.forM _ (composed_makeMember halloc hlink h literal)).bind fun _ => .pure _
  · exact .pure _
  · exact .pure _

omit h in
/-- By induction on the levels of the node. -/
theorem composed_typeWithin (levels : Nat) (r : NodeRef) :
    Composed Given (typeWithin setting place levels r) := by
  induction levels generalizing r with
  | zero => exact .throw _
  | succ levels ih =>
      rw [typeWithin]
      exact composed_typeOfNode halloc hlink ih r

end Types

theorem composed_typeReference (htype : ∀ place r, Composed Given (typeAt setting place r))
    (unit : UnitId) (r : NodeRef) (context : List SymbolId) (enclosing : Option DeclId) :
    Composed Given (typeReference setting unit r context enclosing) := by
  unfold typeReference
  cases setting.program.unitById? unit with
  | none => exact .throw _
  | some u => exact htype _ r

/-! ### Bases -/

theorem composed_checkCollisions (container : SymbolId) :
    Composed Given (checkCollisions setting container) := by
  unfold checkCollisions
  split
  · refine .graph_bind fun g => .forM _ fun pair => ?_
    unfold reportCollision
    refine .graph_bind fun g => (composed_firstSite _).bind fun site? => ?_
    cases site? with
    | none => exact .pure _
    | some site =>
        refine (composed_firstSite _).bind fun first? => ?_
        cases first? with
        | none => exact Composed.report _
        | some first => exact Composed.report _
  · exact .pure _

theorem composed_baseFound (site : DeclSite) (notObject : Nat) (entry : NodeRef)
    (found : Option SymbolId) : Composed Given (baseFound setting site notObject entry found) := by
  cases found with
  | none => exact (Composed.report _).bind fun _ => .pure _
  | some found =>
      refine (composed_asType found).bind fun type => .graph_bind fun g => ?_
      dsimp only
      split
      · exact .pure _
      · exact (Composed.report _).bind fun _ => .pure _

theorem composed_heritageTarget (site : DeclSite) (notObject : Nat) (entry : NodeRef) :
    Composed Given (heritageTarget setting site notObject entry) := by
  rw [heritageTarget_eq]
  refine (composed_findPath _ _ _ _).bind fun found => ?_
  cases found with
  | none => exact (composed_findPath _ _ _ _).bind (composed_baseFound site notObject entry)
  | some found => exact composed_baseFound site notObject entry (some found)

section Pull

variable {pull : SymbolId → ResolveM Unit} (h : ∀ id, Composed Given (pull id))

include h

theorem composed_extendWith (site : DeclSite) (notObject : Nat) (type : SymbolId)
    (entry : NodeRef) : Composed Given (extendWith pull setting site notObject type entry) := by
  refine (composed_heritageTarget site notObject entry).bind fun base? => ?_
  cases base? with
  | none => exact .pure _
  | some base =>
      refine (h base).bind fun _ => .graph_bind fun g => ?_
      split
      · exact Composed.report _
      · exact Composed.link _ _ (by decide)

theorem composed_resolveClassDecl (inst : SymbolId) (decl : DeclId) :
    Composed Given (resolveClassDecl pull setting inst decl) := by
  refine (composed_site decl).bind fun site => ?_
  split
  · exact .pure _
  · refine (Composed.forM _ fun entry => composed_extendWith h site _ inst entry).bind fun _ =>
      .forM _ fun entry => (composed_heritageTarget site _ entry).bind fun target? => ?_
    cases target? with
    | none => exact .pure _
    | some target => exact Composed.link _ _ (by decide)

theorem composed_resolveClassWith (cls : SymbolId) :
    Composed Given (resolveClassWith pull setting cls) := by
  refine composed_begin_then cls (.graph_bind fun g => ?_)
  split
  · exact .throw _
  · next inst _ =>
    exact (Composed.markResolved inst).bind fun _ =>
      (Composed.removeOutgoing inst (.inl rfl)).bind fun _ =>
      (Composed.removeOutgoing inst (.inr rfl)).bind fun _ => (composed_declarations cls).bind fun ds =>
        (Composed.forM ds fun d => composed_resolveClassDecl h inst d).bind fun _ =>
          (composed_checkCollisions inst).bind fun _ => composed_checkCollisions cls

theorem composed_resolveInterfaceWith (interface : SymbolId) :
    Composed Given (resolveInterfaceWith pull setting interface) := by
  refine composed_begin_then interface ((Composed.removeOutgoing interface (.inl rfl)).bind fun _ =>
    (composed_declarations interface).bind fun ds => (Composed.forM ds fun d => ?_).bind fun _ =>
      composed_checkCollisions interface)
  refine (composed_site d).bind fun site => ?_
  split
  · exact .pure _
  · exact .forM _ fun entry => composed_extendWith h site _ interface entry

end Pull

/-- By induction on the types that may still lie below. -/
theorem composed_pullWithin (types : Nat) (type : SymbolId) :
    Composed Given (pullWithin setting types type) := by
  induction types generalizing type with
  | zero => exact .throw _
  | succ types ih =>
      rw [pullWithin]
      refine .graph_bind fun g => ?_
      split
      · split
        · exact composed_resolveClassWith ih _
        · exact .pure _
      · exact composed_resolveInterfaceWith ih type
      · exact .pure _

theorem composed_pull (type : SymbolId) : Composed Given (pull setting type) :=
  .graph_bind fun _ => composed_pullWithin _ type

theorem composed_resolveClass (cls : SymbolId) : Composed Given (resolveClass setting cls) :=
  composed_resolveClassWith composed_pull cls

theorem composed_resolveInterface (interface : SymbolId) :
    Composed Given (resolveInterface setting interface) :=
  composed_resolveInterfaceWith composed_pull interface

/-! ### Symbols -/

theorem composed_resolveModule (id : SymbolId) : Composed Given (resolveModule setting id) :=
  composed_begin_then id (composed_checkCollisions id)

theorem composed_chooseTypeNode (chosen : Option (DeclSite × NodeRef)) (ds : List DeclId) :
    Composed Given (chooseTypeNode setting chosen ds) := by
  induction ds generalizing chosen with
  | nil => exact .pure _
  | cons d ds ih =>
      rw [chooseTypeNode]
      refine (composed_site d).bind fun site => ?_
      split
      · exact ih chosen
      · exact .pure _
      · exact ih _

section Given

variable (htype : ∀ place r, Composed Given (typeAt setting place r))

include htype

theorem composed_resolveValue (id : SymbolId) : Composed Given (resolveValue setting id) := by
  refine composed_begin_then id ((composed_declarations id).bind fun ds =>
    (composed_chooseTypeNode none ds).bind fun chosen => ?_)
  split
  · exact (htype _ _).bind fun type => Composed.setSingle _ _ (by decide)
  · exact Composed.setSingle _ _ (by decide)

theorem composed_resolveSignature (id : SymbolId) : Composed Given (resolveSignature setting id) := by
  refine composed_begin_then id (.graph_bind fun g =>
    (Composed.forM _ fun p => composed_resolveValue htype p).bind fun _ =>
      (composed_firstSite id).bind fun site? => ?_)
  cases site? with
  | none => exact .pure _
  | some site =>
      refine Composed.bind (.graph_bind fun g => ?_) fun type => Composed.setSingle _ _ (by decide)
      split
      · exact .pure _
      · exact htype _ _

omit htype in
theorem composed_reportImplementations (seen : Bool) (ds : List DeclId) :
    Composed Given (reportImplementations setting seen ds) := by
  induction ds generalizing seen with
  | nil => exact .pure _
  | cons d ds ih =>
      rw [reportImplementations]
      refine (composed_site d).bind fun site => ?_
      dsimp only
      split
      · exact (Composed.report _).bind fun _ => ih _
      · exact ih _

theorem composed_resolveFunction (id : SymbolId) : Composed Given (resolveFunction setting id) :=
  composed_begin_then id <| .graph_bind fun _ =>
    (Composed.forM _ fun signature => composed_resolveSignature htype signature).bind fun _ =>
      (composed_declarations id).bind fun ds => composed_reportImplementations false ds

theorem composed_resolveSymbol (id : SymbolId) : Composed Given (resolveSymbol setting id) := by
  refine .graph_bind fun g => ?_
  split
  · exact .throw _
  · exact composed_resolveModule id
  · exact composed_resolveModule id
  · exact composed_resolveClass id
  · split
    · exact composed_resolveClass _
    · exact .pure _
  · exact composed_resolveInterface id
  · exact composed_resolveFunction htype id
  · exact composed_resolveFunction htype id
  · exact composed_resolveSignature htype id
  · exact composed_resolveValue htype id
  · exact composed_resolveValue htype id
  · exact composed_resolveValue htype id
  · exact (composed_resolveAliasWithin _ id).bind fun _ => .pure _
  · exact Composed.markResolved id
  · exact Composed.markResolved id
  · exact Composed.markResolved id
  · exact Composed.markResolved id

end Given

end ResolveM

open ResolveM in
/-- Every demand, also one that fails. -/
theorem Demand.composed_run {Given : (α : Type) → ResolveM α → Prop} {setting : Setting}
    (htype : ∀ place r, Composed Given (typeAt setting place r))
    (harray : ∀ element, Composed Given (ResolveM.arrayOf element)) (d : Demand) :
    Composed Given (d.run setting) := by
  have hitself : ∀ id {step : ResolveM Unit}, Composed Given step →
      Composed Given (thenItself id step) := fun id _ hstep => hstep.bind fun _ => .pure _
  cases d with
  | symbol id => exact hitself id (composed_resolveSymbol htype id)
  | module id => exact hitself id (composed_resolveModule id)
  | classType id => exact hitself id (composed_resolveClass id)
  | interface id => exact hitself id (composed_resolveInterface id)
  | function id => exact hitself id (composed_resolveFunction htype id)
  | signature id => exact hitself id (composed_resolveSignature htype id)
  | value id => exact hitself id (composed_resolveValue htype id)
  | «alias» id => exact (composed_resolveAliasWithin _ id).map some
  | aliasTarget id => exact (composed_aliasTarget id).map some
  | arrayOf element => exact (harray element).map some
  | path segments context enclosing meaning =>
      exact composed_findPath segments context enclosing meaning
  | typeNode unit node context enclosing =>
      exact (composed_typeReference htype unit node context enclosing).map some

open ResolveM in
/-- Where all symbols and edges are given, nothing need be known of types. -/
theorem Demand.composed_run_of_writes {Given : (α : Type) → ResolveM α → Prop}
    (halloc : ∀ (name : String) {kind : SymbolKind}, kind ≠ .classType →
      ∀ flags : Flags SymbolFlag, Given SymbolId (alloc name kind flags))
    (hlink : ∀ source target kind, Given Unit (link source target kind)) (d : Demand)
    (setting : Setting) : Composed Given (d.run setting) :=
  have hmakes : ∀ (name : String) {kind : SymbolKind}, kind ≠ .classType →
      ∀ flags : Flags SymbolFlag, Composed Given (alloc name kind flags) :=
    fun name _ hk flags => .given (halloc name hk flags)
  d.composed_run (fun _ r => composed_typeWithin hmakes (fun _ _ _ => .given (hlink _ _ _)) _ r)
    (composed_arrayOf hmakes)

end NameBinding
