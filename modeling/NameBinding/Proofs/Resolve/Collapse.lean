import NameBinding.Proofs.Resolve.Knots
import NameBinding.Proofs.Resolve.Lookup
import NameBinding.Workspace.Request

/-! # Demands keep what aliases stand for

Main statement: whatever is demanded, and also when the demand fails, marked aliases stand for what
they stood for, and aliases that are marked anew stand for something. Only demands that mark a symbol
without a look at its kind can mark an alias that stands for nothing. -/

namespace NameBinding

open SymbolGraph

/-- The state comes from the graph by resolving, and what aliases stand for stays. -/
abbrev Resolution.Steady (setting : Setting) (passed : SymbolId → Prop) (g₀ : SymbolGraph)
    (r : Resolution) : Prop := Firm setting passed g₀ r.graph

/-- The edge becomes the only one of its kind if its ends exist. Otherwise the other ones are gone. -/
theorem GraphM.contract_setSingle_from (g : SymbolGraph) (x t : SymbolId) (kind : EdgeKind) :
    Contract (· = g) (setSingle x t kind)
      (fun _ g' => x < g.size ∧ t < g.size ∧ g' = g.pointOnly x t kind)
      fun g' => g' = g ∨ ¬t < g.size ∧
        g' = g.removeTargets x kind ((g.targets x kind).filter (· != t)) := by
  intro s hs
  rw [hs]
  by_cases hx : x < g.size
  · by_cases ht : t < g.size
    · rw [setSingle_eq_ok hx ht]
      exact ⟨hx, ht, rfl⟩
    · have hrun : setSingle x t kind g = .error (.unknownSymbol t)
          (g.removeTargets x kind ((g.targets x kind).filter (· != t))) := by
        simp only [setSingle, bind, EStateM.bind, require_eq_ok hx]
        change EStateM.bind (link x t kind) (fun _ => pure ())
          (g.removeTargets x kind ((g.targets x kind).filter (· != t))) = _
        rw [EStateM.bind, link_eq_error x kind (by rwa [size_removeTargets])]
      rw [hrun]
      exact .inr ⟨ht, rfl⟩
  · have hrun : setSingle x t kind g = .error (.unknownSymbol x) g := by
      simp only [setSingle, bind, EStateM.bind, require_eq_error hx]
    rw [hrun]
    exact .inl rfl

/-- An import has no annotation. -/
theorem ResolveM.valueTypeNode_of_importEquals {site : DeclSite} {i : ImportEquals}
    (hi : site.tree.record? site.decl.node = some (.importEquals i)) {node : NodeRef} {b : Bool}
    (h : valueTypeNode site = some (node, b)) : node = none := by
  have htype : site.tree.typeNode site.decl.node = none := by simp only [DocTree.typeNode, hi]
  have hfunction : site.tree.function? site.decl.node = none := by
    simp only [DocTree.function?, hi]
  have hmissing : site.tree.parameter? none = none := rfl
  obtain ⟨n, -, hn⟩ := Option.map_eq_some_iff.mp h
  split at hn <;> simp_all

namespace ResolveM

variable {setting : Setting} {passed : SymbolId → Prop} {g₀ : SymbolGraph} {x t : SymbolId}
  {α : Type}

/-! ### Steps -/

/-- A symbol can be marked if it is no alias, or is one that is passed over. -/
abbrev CanMark (passed : SymbolId → Prop) (g₀ : SymbolGraph) (x : SymbolId) : Prop :=
  g₀.kind? x = some .alias → g₀.declarations x ≠ [] → passed x

theorem canMark_of_kind {kind : SymbolKind} (hk : g₀.kind? x = some kind) (hne : kind ≠ .alias) :
    CanMark passed g₀ x := fun ha => absurd (Option.some.inj (hk.symm.trans ha)) hne

theorem not_alias_of_new (hx : g₀.size ≤ x) : g₀.kind? x ≠ some .alias := fun ha =>
  absurd (lt_size_of_kind? ha) (Nat.not_lt.mpr hx)

theorem canMark_of_new (hx : g₀.size ≤ x) : CanMark passed g₀ x := fun ha =>
  absurd ha (not_alias_of_new hx)

theorem steady_graph :
    Keeps (Resolution.Steady setting passed g₀) graph fun g => Firm setting passed g₀ g :=
  fun _ hr => ⟨hr, hr⟩

theorem steady_markResolved (hx : CanMark passed g₀ x) :
    Keeps (Resolution.Steady setting passed g₀) (markResolved x) :=
  Keeps.modify fun _ hr => hr.mark hx

theorem steady_report (d : Diagnostic) : Keeps (Resolution.Steady setting passed g₀) (report d) := by
  refine Keeps.modify fun r hr => ?_
  split
  · exact hr
  · exact hr

theorem steady_removeOutgoing (x : SymbolId) {kind : EdgeKind} (hk : kind.isResolution)
    (hne : kind ≠ .typedAs) :
    Keeps (Resolution.Steady setting passed g₀) (removeOutgoing x kind) :=
  Keeps.modify fun _ hr => hr.removeTargets hk (fun heq => absurd heq hne) _

theorem steady_alloc (name : String) {kind : SymbolKind} (hk : kind ≠ .alias)
    (flags : Flags SymbolFlag) :
    Keeps (Resolution.Steady setting passed g₀) (alloc name kind flags) fun x => g₀.size ≤ x := by
  refine (contract_onGraph (GraphM.contract_alloc (P := Firm setting passed g₀) name kind
    flags)).weaken (fun _ hr => hr) ?_ fun _ hr => hr
  rintro _ r ⟨g, hg, rfl, hr⟩
  refine ⟨?_, hg.follows.size_le⟩
  change Firm setting passed g₀ r.graph
  rw [hr]
  exact hg.alloc name hk flags

/-- An edge that types nothing. What becomes a signature or a parameter is new. -/
theorem steady_link (source : SymbolId) {target : SymbolId} {kind : EdgeKind}
    (htyped : kind ≠ .typedAs) (hsole : kind.isSole → kind ≠ .instanceType ∧ g₀.size ≤ target) :
    Keeps (Resolution.Steady setting passed g₀) (link source target kind) := by
  refine (contract_link (Firm setting passed g₀) source target kind).weaken (fun _ hr => hr) ?_
    fun _ hr => hr
  rintro - r ⟨g, hg, hs, ht, hr⟩
  refine ⟨?_, True.intro⟩
  change Firm setting passed g₀ r.graph
  rw [hr]
  exact hg.addEdge hs ht htyped hsole

/-- What is not the type of a symbol. -/
theorem steady_setSingle (x t : SymbolId) {kind : EdgeKind} (hk : kind.isResolution)
    (hne : kind ≠ .typedAs) :
    Keeps (Resolution.Steady setting passed g₀) (setSingle x t kind) := by
  intro r hr
  have hrun := contract_onGraph (GraphM.contract_setSingle_from r.graph x t kind) r rfl
  revert hrun
  unfold setSingle
  cases onGraph (GraphM.setSingle x t kind) r with
  | ok _ r' =>
      rintro ⟨hx, ht, hg⟩
      refine ⟨?_, True.intro⟩
      change Firm setting passed g₀ r'.graph
      rw [hg]
      exact hr.pointOnly hx ht hk hne
  | error _ r' =>
      intro hfail
      change Firm setting passed g₀ r'.graph
      rcases hfail with hg | ⟨-, hg⟩
      · rw [hg]
        exact hr
      · rw [hg]
        exact hr.removeTargets hk (fun heq => absurd heq hne) _

/-- The type of a symbol. If that is an alias, it must not be marked before, and its type is plain. -/
theorem steady_setType (hnew : g₀.kind? x = some .alias → ¬g₀.isResolved x)
    (hplain : g₀.kind? x = some .alias → g₀.IsPlain t) :
    Keeps (Resolution.Steady setting passed g₀) (setSingle x t .typedAs) := by
  intro r hr
  have hplain' : g₀.kind? x = some .alias → r.graph.IsPlain t := fun ha =>
    hr.follows.isPlain_iff.mpr (hplain ha)
  have hrun := contract_onGraph (GraphM.contract_setSingle_from r.graph x t .typedAs) r rfl
  revert hrun
  unfold setSingle
  cases onGraph (GraphM.setSingle x t .typedAs) r with
  | ok _ r' =>
      rintro ⟨hx, ht, hg⟩
      refine ⟨?_, True.intro⟩
      change Firm setting passed g₀ r'.graph
      rw [hg]
      exact (hr.weaken fun _ _ => .inl).close hx ht hnew hplain'
  | error _ r' =>
      intro hfail
      change Firm setting passed g₀ r'.graph
      rcases hfail with hg | ⟨ht, hg⟩
      · rw [hg]
        exact hr
      · rw [hg]
        exact hr.removeTargets rfl
          (fun _ ha => ht (hr.lt_size_of_isPlain (hplain' ha))) _

theorem steady_begin (hx : CanMark passed g₀ x) :
    Keeps (Resolution.Steady setting passed g₀) (begin x) fun b => b → ¬g₀.isResolved x := by
  unfold begin
  refine steady_graph.bind fun g hg => ?_
  cases hs : g.get? x with
  | none => exact Keeps.throw _
  | some s =>
      dsimp only
      split
      · exact Keeps.pure fun hb => absurd hb (by simp)
      · next hunmarked =>
        refine (steady_markResolved hx).bind fun _ _ => Keeps.pure fun _ hr => hunmarked ?_
        simpa [isResolved, hs] using hg.follows.isResolved hr

/-- Work that is done once for a symbol. -/
theorem steady_begin_then {work : ResolveM Unit} (hx : CanMark passed g₀ x)
    (hwork : ¬g₀.isResolved x → Keeps (Resolution.Steady setting passed g₀) work) :
    Keeps (Resolution.Steady setting passed g₀) (do if ← begin x then work) := by
  refine (steady_begin hx).bind fun b hb => ?_
  split
  · next hnew => exact hwork (hb hnew)
  · exact Keeps.pure True.intro

theorem steady_declarations (x : SymbolId) :
    Keeps (Resolution.Steady setting passed g₀) (declarations x) (· = g₀.declarations x) := by
  unfold declarations
  refine steady_graph.bind fun g hg => ?_
  cases hs : g.get? x with
  | none => exact Keeps.throw _
  | some s =>
      refine Keeps.pure ?_
      rw [← hg.declarations_eq, SymbolGraph.declarations, hs]
      rfl

theorem steady_site (d : DeclId) : Keeps (Resolution.Steady setting passed g₀) (site setting d)
    fun site => setting.site? d = some site := by
  unfold site Setting.site?
  cases setting.program.unitById? d.unit with
  | none => exact Keeps.throw _
  | some u =>
      dsimp only
      cases hd : u.decl? d with
      | none => exact Keeps.throw _
      | some decl => exact Keeps.pure (by rw [Option.bind_some, hd]; rfl)

theorem steady_firstSite (x : SymbolId) :
    Keeps (Resolution.Steady setting passed g₀) (firstSite setting x) := by
  unfold firstSite
  refine (steady_declarations x).bind fun ds _ => ?_
  cases ds.head? with
  | none => exact Keeps.pure True.intro
  | some d => exact (steady_site d).bind fun _ _ => Keeps.pure True.intro

/-! ### Names -/

/-- What succeeds from every state and resolves aliases alone. -/
theorem steady_of_returns {m : ResolveM α} {post : Resolution → α → Resolution → Prop}
    (h : ∀ r : Resolution, Resolution.Steady setting passed g₀ r → r.Returns m (post r))
    (hpost : ∀ r a r', post r a r' → r.graph.Advances setting r'.graph) :
    Keeps (Resolution.Steady setting passed g₀) m := by
  intro r hr
  obtain ⟨a, r', hrun, ha⟩ := h r hr
  rw [hrun]
  exact ⟨hr.trans ((hpost r a r' ha).toFirm.weaken fun _ _ hno => hno.elim), True.intro⟩

theorem steady_findPath (segments : List String) (context : List SymbolId)
    (enclosing : Option DeclId) (meaning : Meaning) : Keeps (Resolution.Steady setting passed g₀)
      (findPath setting segments context enclosing meaning) :=
  steady_of_returns (fun _ hr => finds_findPath hr.toSearchable segments context enclosing meaning)
    fun _ _ _ hpost => hpost.1.advances

theorem steady_resolveAlias (x : SymbolId) :
    Keeps (Resolution.Steady setting passed g₀) (resolveAlias setting x) := by
  intro r hr
  by_cases hx : x < r.graph.size
  · obtain ⟨t, r', hrun, ht⟩ := returns_resolveAlias hr.toSearchable hx
    rw [hrun]
    exact ⟨hr.trans (ht.advances.toFirm.weaken fun _ _ hno => hno.elim), True.intro⟩
  · have hrun : resolveAlias setting x r = .error (.unknownSymbol x) r := by
      unfold resolveAlias
      generalize Limits.aliasDepth = hops
      cases hops <;>
        simp only [resolveAliasWithin, bind, EStateM.bind, run_begin_of_unknown hx r.diagnostics]
    rw [hrun]
    exact hr

theorem steady_aliasTarget (x : SymbolId) :
    Keeps (Resolution.Steady setting passed g₀) (aliasTarget setting x) := by
  refine steady_graph.bind fun g _ => ?_
  split
  · exact steady_graph.bind fun _ _ => Keeps.pure True.intro
  · exact steady_resolveAlias x

theorem steady_typeDenoted (x : SymbolId) :
    Keeps (Resolution.Steady setting passed g₀) (typeDenoted x) := by
  refine steady_graph.bind fun g _ => ?_
  split
  · exact Keeps.pure True.intro
  · split
    · exact Keeps.pure True.intro
    · exact Keeps.throw _
  · exact Keeps.pure True.intro
  · exact Keeps.throw _

theorem steady_asType (x : SymbolId) :
    Keeps (Resolution.Steady setting passed g₀) (asType setting x) := by
  rw [asType_eq]
  refine steady_graph.bind fun g _ => ?_
  split
  · exact (steady_aliasTarget x).bind fun t _ => steady_typeDenoted t
  · exact steady_typeDenoted x

/-! ### Types -/

theorem steady_missing (d : Diagnostic) : Keeps (Resolution.Steady setting passed g₀)
    (do report d; return WellKnown.error : ResolveM SymbolId) :=
  (steady_report d).bind fun _ _ => Keeps.pure True.intro

theorem steady_arrayOf (element : SymbolId) :
    Keeps (Resolution.Steady setting passed g₀) (arrayOf element) := by
  refine steady_graph.bind fun g _ => ?_
  split
  · exact (steady_alloc _ (by simp) _).bind fun array harray =>
      (steady_link array (by simp) (by simp [EdgeKind.isSole, EdgeKind.isSignature])).bind fun _ _ =>
        (steady_markResolved (canMark_of_new harray)).bind fun _ _ => Keeps.pure True.intro
  · exact Keeps.pure True.intro
  · exact Keeps.throw _

section Types

variable {place : TypePlace}

theorem steady_namedType (name reported : NodeRef) :
    Keeps (Resolution.Steady setting passed g₀) (namedType setting place name reported) := by
  unfold namedType
  refine (steady_findPath _ _ _ _).bind fun found _ => ?_
  cases found with
  | none => exact steady_missing _
  | some found =>
      refine (steady_asType found).bind fun type _ => steady_graph.bind fun g _ => ?_
      split
      · exact Keeps.pure True.intro
      · exact steady_missing _

/-- The type of a new symbol. -/
theorem steady_setType_new (hx : g₀.size ≤ x) (t : SymbolId) :
    Keeps (Resolution.Steady setting passed g₀) (setSingle x t .typedAs) :=
  steady_setType (fun ha => absurd ha (not_alias_of_new hx))
    fun ha => absurd ha (not_alias_of_new hx)

variable {resolve : NodeRef → ResolveM SymbolId}
  (h : ∀ r, Keeps (Resolution.Steady setting passed g₀) (resolve r))

include h

theorem steady_makeParameter (signature : SymbolId) (r : NodeRef) :
    Keeps (Resolution.Steady setting passed g₀) (makeParameter place resolve signature r) := by
  unfold makeParameter
  split
  · exact (steady_alloc _ (by simp) _).bind fun parameter hnew =>
      (steady_link signature (by simp) fun _ => ⟨by simp, hnew⟩).bind fun _ _ => (h _).bind fun type _ =>
        (steady_setType_new hnew type).bind fun _ _ => steady_markResolved (canMark_of_new hnew)
  · exact Keeps.pure True.intro

theorem steady_makeSignature (r : NodeRef) :
    Keeps (Resolution.Steady setting passed g₀) (makeSignature place resolve r) (g₀.size ≤ ·) := by
  unfold makeSignature
  refine (steady_alloc _ (by simp) _).bind fun signature hnew =>
    (Keeps.forM _ fun p _ => steady_makeParameter h signature p).bind fun _ _ =>
      (h _).bind fun type _ => ?_
  exact (steady_setSingle signature type rfl (by simp)).bind fun _ _ =>
    (steady_markResolved (canMark_of_new hnew)).bind fun _ _ => Keeps.pure hnew

/-- A signature is made and linked to its holder. -/
theorem steady_makeSignature_link (r : NodeRef) (holder : SymbolId) {kind : EdgeKind}
    (hk : kind.isSignature) : Keeps (Resolution.Steady setting passed g₀) (do
      let signature ← makeSignature place resolve r
      link holder signature kind) := by
  refine (steady_makeSignature h r).bind fun signature hnew => steady_link holder ?_ fun _ => ⟨?_, hnew⟩
  · rintro rfl
    simp [EdgeKind.isSignature] at hk
  · rintro rfl
    simp [EdgeKind.isSignature] at hk

theorem steady_makeCallable (r : NodeRef) {kind : SymbolKind} (hk : kind ≠ .alias)
    {signatureKind : EdgeKind} (hs : signatureKind.isSignature) :
    Keeps (Resolution.Steady setting passed g₀)
      (makeCallable place resolve r kind signatureKind) := by
  have hsplit : makeCallable place resolve r kind signatureKind = (do
      let callable ← alloc "" kind (Flags.single .synthesized)
      (do let signature ← makeSignature place resolve r
          link callable signature signatureKind)
      markResolved callable
      return callable) := by
    simp only [makeCallable, bind_assoc]
  rw [hsplit]
  exact (steady_alloc _ hk _).bind fun callable hnew =>
    (steady_makeSignature_link h r callable hs).bind fun _ _ =>
      (steady_markResolved (canMark_of_new hnew)).bind fun _ _ => Keeps.pure True.intro

omit h in
theorem steady_literalMethod (literal : SymbolId) (name : String) :
    Keeps (Resolution.Steady setting passed g₀) (literalMethod literal name) := by
  refine steady_graph.bind fun g _ => ?_
  split
  · exact Keeps.pure True.intro
  · exact (steady_alloc _ (by simp) _).bind fun method hnew =>
      (steady_link literal (by simp) (by simp [EdgeKind.isSole, EdgeKind.isSignature])).bind fun _ _ =>
        (steady_markResolved (canMark_of_new hnew)).bind fun _ _ => Keeps.pure True.intro

theorem steady_makeField (literal : SymbolId) (node : Node) (p : ValueParts) :
    Keeps (Resolution.Steady setting passed g₀) (makeField place resolve literal node p) :=
  (steady_alloc _ (by simp) _).bind fun field hnew =>
    (steady_link literal (by simp) (by simp [EdgeKind.isSole, EdgeKind.isSignature])).bind fun _ _ => (h _).bind fun type _ =>
      (steady_setType_new hnew type).bind fun _ _ => steady_markResolved (canMark_of_new hnew)

theorem steady_makeMember (literal : SymbolId) (r : NodeRef) :
    Keeps (Resolution.Steady setting passed g₀) (makeMember place resolve literal r) := by
  unfold makeMember
  cases place.tree.node? r with
  | none => exact Keeps.pure True.intro
  | some node =>
      dsimp only
      split
      · split
        · exact steady_makeField h literal node _
        · exact Keeps.pure True.intro
      · exact (steady_literalMethod literal _).bind fun method _ =>
          steady_makeSignature_link h r method rfl
      · exact steady_makeSignature_link h r literal rfl
      · exact steady_makeSignature_link h r literal rfl
      · exact steady_makeSignature_link h r literal rfl
      · exact Keeps.pure True.intro

theorem steady_typeOfNode (r : NodeRef) :
    Keeps (Resolution.Steady setting passed g₀) (typeOfNode place resolve setting r) := by
  unfold typeOfNode
  split
  · exact steady_namedType _ r
  · exact steady_namedType r r
  · exact steady_namedType r r
  · exact (h _).bind fun element _ => steady_arrayOf element
  · exact steady_makeCallable h r (by simp) rfl
  · exact steady_makeCallable h r (by simp) rfl
  · unfold makeLiteral
    exact (steady_alloc _ (by simp) _).bind fun literal hnew =>
      (steady_markResolved (canMark_of_new hnew)).bind fun _ _ =>
        (Keeps.forM _ fun member _ => steady_makeMember h literal member).bind fun _ _ =>
          Keeps.pure True.intro
  · exact Keeps.pure True.intro
  · exact Keeps.pure True.intro

omit h in
/-- By induction on the levels of the node. -/
theorem steady_typeWithin (levels : Nat) (r : NodeRef) :
    Keeps (Resolution.Steady setting passed g₀) (typeWithin setting place levels r) := by
  induction levels generalizing r with
  | zero => exact Keeps.throw _
  | succ levels ih =>
      rw [typeWithin]
      exact steady_typeOfNode ih r

omit h in
theorem steady_typeAt (r : NodeRef) :
    Keeps (Resolution.Steady setting passed g₀) (typeAt setting place r) := steady_typeWithin _ r

end Types

theorem steady_typeReference (unit : UnitId) (r : NodeRef) (context : List SymbolId)
    (enclosing : Option DeclId) : Keeps (Resolution.Steady setting passed g₀)
      (typeReference setting unit r context enclosing) := by
  unfold typeReference
  cases setting.program.unitById? unit with
  | none => exact Keeps.throw _
  | some u => exact steady_typeAt r

/-! ### Bases -/

theorem steady_checkCollisions (container : SymbolId) :
    Keeps (Resolution.Steady setting passed g₀) (checkCollisions setting container) := by
  unfold checkCollisions
  split
  · refine steady_graph.bind fun g _ => Keeps.forM _ fun pair _ => ?_
    unfold reportCollision
    refine steady_graph.bind fun g _ => (steady_firstSite _).bind fun site? _ => ?_
    cases site? with
    | none => exact Keeps.pure True.intro
    | some site =>
        refine (steady_firstSite _).bind fun first? _ => ?_
        cases first? with
        | none => exact steady_report _
        | some first => exact steady_report _
  · exact Keeps.pure True.intro

theorem steady_baseFound (site : DeclSite) (notObject : Nat) (entry : NodeRef)
    (found : Option SymbolId) :
    Keeps (Resolution.Steady setting passed g₀) (baseFound setting site notObject entry found) := by
  cases found with
  | none => exact (steady_report _).bind fun _ _ => Keeps.pure True.intro
  | some found =>
      refine (steady_asType found).bind fun type _ => steady_graph.bind fun g _ => ?_
      dsimp only
      split
      · exact Keeps.pure True.intro
      · exact (steady_report _).bind fun _ _ => Keeps.pure True.intro

theorem steady_heritageTarget (site : DeclSite) (notObject : Nat) (entry : NodeRef) :
    Keeps (Resolution.Steady setting passed g₀) (heritageTarget setting site notObject entry) := by
  rw [heritageTarget_eq]
  refine (steady_findPath _ _ _ _).bind fun found _ => ?_
  cases found with
  | none =>
      exact (steady_findPath _ _ _ _).bind fun found _ => steady_baseFound site notObject entry found
  | some found => exact steady_baseFound site notObject entry (some found)

section Pull

variable (ho : Outset setting g₀) {pull : SymbolId → ResolveM Unit}
  (h : ∀ x, Keeps (Resolution.Steady setting passed g₀) (pull x))

include h

theorem steady_extendWith (site : DeclSite) (notObject : Nat) (type : SymbolId) (entry : NodeRef) :
    Keeps (Resolution.Steady setting passed g₀)
      (extendWith pull setting site notObject type entry) := by
  refine (steady_heritageTarget site notObject entry).bind fun base? _ => ?_
  cases base? with
  | none => exact Keeps.pure True.intro
  | some base =>
      refine (h base).bind fun _ _ => steady_graph.bind fun g _ => ?_
      split
      · exact steady_report _
      · exact steady_link type (by simp) (by simp [EdgeKind.isSole, EdgeKind.isSignature])

theorem steady_resolveClassDecl (inst : SymbolId) (d : DeclId) :
    Keeps (Resolution.Steady setting passed g₀) (resolveClassDecl pull setting inst d) := by
  refine (steady_site d).bind fun site _ => ?_
  split
  · exact Keeps.pure True.intro
  · refine (Keeps.forM _ fun entry _ => steady_extendWith h site _ inst entry).bind fun _ _ =>
      Keeps.forM _ fun entry _ => (steady_heritageTarget site _ entry).bind fun target? _ => ?_
    cases target? with
    | none => exact Keeps.pure True.intro
    | some target => exact steady_link inst (by simp) (by simp [EdgeKind.isSole, EdgeKind.isSignature])

theorem steady_resolveInterfaceWith {interface : SymbolId} (hi : CanMark passed g₀ interface) :
    Keeps (Resolution.Steady setting passed g₀)
      (resolveInterfaceWith pull setting interface) := by
  refine steady_begin_then hi fun _ => (steady_removeOutgoing interface rfl (by simp)).bind fun _ _ =>
    (steady_declarations interface).bind fun ds _ => (Keeps.forM ds fun d _ => ?_).bind fun _ _ =>
      steady_checkCollisions interface
  refine (steady_site d).bind fun site _ => ?_
  split
  · exact Keeps.pure True.intro
  · exact Keeps.forM _ fun entry _ => steady_extendWith h site _ interface entry

include ho

/-- The instance side that is marked along with a class is no alias. -/
theorem steady_resolveClassWith {cls : SymbolId} (hcls : CanMark passed g₀ cls) :
    Keeps (Resolution.Steady setting passed g₀) (resolveClassWith pull setting cls) := by
  refine steady_begin_then hcls fun _ => steady_graph.bind fun g hg => ?_
  split
  · exact Keeps.throw _
  · next inst hside =>
    have hkind := (ho.sides (hg.side (hasEdge_of_instanceType? hg.toMirrored hside))).2
    exact (steady_markResolved (canMark_of_kind hkind (by simp))).bind fun _ _ =>
      (steady_removeOutgoing inst rfl (by simp)).bind fun _ _ =>
        (steady_removeOutgoing inst rfl (by simp)).bind fun _ _ =>
          (steady_declarations cls).bind fun ds _ =>
            (Keeps.forM ds fun d _ => steady_resolveClassDecl h inst d).bind fun _ _ =>
              (steady_checkCollisions inst).bind fun _ _ => steady_checkCollisions cls

end Pull

section Outset

variable (ho : Outset setting g₀)

/-- A symbol of another kind can be marked. -/
theorem canMark_of_kind?_eq {g : SymbolGraph} (hg : Firm setting passed g₀ g)
    (hx : g.kind? x ≠ some .alias) : CanMark passed g₀ x := fun ha =>
  absurd (hg.isAlias_iff.mpr ha) hx

include ho

/-- By induction on the types that may still lie below. -/
theorem steady_pullWithin (types : Nat) (type : SymbolId) :
    Keeps (Resolution.Steady setting passed g₀) (pullWithin setting types type) := by
  induction types generalizing type with
  | zero => exact Keeps.throw _
  | succ types ih =>
      rw [pullWithin]
      refine steady_graph.bind fun g hg => ?_
      split
      · split
        · next cls hcls =>
          have hkind := (ho.sides (hg.side (hasEdge_of_classOfInstance? hg.toMirrored hcls))).1
          exact steady_resolveClassWith ho ih (canMark_of_kind hkind (by simp))
        · exact Keeps.pure True.intro
      · next hk => exact steady_resolveInterfaceWith ih (canMark_of_kind?_eq hg (by simp [hk]))
      · exact Keeps.pure True.intro

theorem steady_pull (type : SymbolId) :
    Keeps (Resolution.Steady setting passed g₀) (pull setting type) :=
  steady_graph.bind fun _ _ => steady_pullWithin ho _ type

theorem steady_resolveClass {cls : SymbolId} (hcls : CanMark passed g₀ cls) :
    Keeps (Resolution.Steady setting passed g₀) (resolveClass setting cls) :=
  steady_resolveClassWith ho (steady_pull ho) hcls

theorem steady_resolveInterface {interface : SymbolId} (hi : CanMark passed g₀ interface) :
    Keeps (Resolution.Steady setting passed g₀) (resolveInterface setting interface) :=
  steady_resolveInterfaceWith (steady_pull ho) hi

end Outset

/-! ### Symbols -/

theorem steady_resolveModule (hx : CanMark passed g₀ x) :
    Keeps (Resolution.Steady setting passed g₀) (resolveModule setting x) :=
  steady_begin_then hx fun _ => steady_checkCollisions x

/-- The chosen declaration has no annotation. -/
def Untyped (chosen : Option (DeclSite × NodeRef)) : Prop :=
  ∀ site node, chosen = some (site, node) → node = none

/-- Among imports no annotation is chosen. -/
theorem steady_chooseTypeNode {Q : Prop} {chosen : Option (DeclSite × NodeRef)} {ds : List DeclId}
    (hds : Q → ∀ d ∈ ds, ∀ site, setting.site? d = some site →
      ∃ i, site.tree.record? site.decl.node = some (.importEquals i))
    (hchosen : Q → Untyped chosen) : Keeps (Resolution.Steady setting passed g₀)
      (chooseTypeNode setting chosen ds) fun chosen => Q → Untyped chosen := by
  induction ds generalizing chosen with
  | nil => exact Keeps.pure hchosen
  | cons d ds ih =>
      have hrest : Q → ∀ d ∈ ds, ∀ site, setting.site? d = some site →
          ∃ i, site.tree.record? site.decl.node = some (.importEquals i) := fun hq d hd =>
        hds hq d (List.mem_cons_of_mem _ hd)
      rw [chooseTypeNode]
      refine (steady_site d).bind fun site hsite => ?_
      have hbare : ∀ {node b}, valueTypeNode site = some (node, b) → Q → node = none := by
        intro node b hnode hq
        obtain ⟨i, hi⟩ := hds hq d List.mem_cons_self site hsite
        exact valueTypeNode_of_importEquals hi hnode
      split
      · exact ih hrest hchosen
      · next hnode =>
        refine Keeps.pure fun hq => ?_
        rintro _ _ ⟨⟩
        exact hbare hnode hq
      · next hnode =>
        refine ih hrest fun hq s n hs => ?_
        cases hc : chosen with
        | some pair =>
            rw [hc, Option.some_or] at hs
            exact hchosen hq s n (hc.trans hs)
        | none =>
            rw [hc, Option.none_or] at hs
            obtain ⟨-, rfl⟩ := Prod.mk.inj (Option.some.inj hs)
            exact hbare hnode hq

section Symbols

variable (hs : Searchable setting g₀) (ho : Outset setting g₀)

section Values

include hs

/-- An alias has no annotation and would be given any type. -/
theorem steady_resolveValue (hx : CanMark passed g₀ x) :
    Keeps (Resolution.Steady setting passed g₀) (resolveValue setting x) := by
  refine steady_begin_then hx fun hnew => (steady_declarations x).bind fun ds hds =>
    (steady_chooseTypeNode (Q := g₀.kind? x = some .alias) (fun ha d hd site hsite => ?_)
      fun _ _ _ hno => absurd hno (by simp)).bind fun chosen hchosen => ?_
  · rw [hds] at hd
    exact hs.imports ha hd hsite
  · split
    · exact (steady_typeAt _).bind fun type _ => steady_setType (fun _ => hnew) fun ha =>
        absurd (hchosen ha _ _ rfl) (by simp)
    · exact steady_setType (fun _ => hnew) fun _ => .inl (by decide)

end Values

include hs ho

theorem steady_resolveSignature (hx : CanMark passed g₀ x) :
    Keeps (Resolution.Steady setting passed g₀) (resolveSignature setting x) := by
  refine steady_begin_then hx fun _ => steady_graph.bind fun g hg =>
    (Keeps.forM _ fun p hp => steady_resolveValue hs ?_).bind fun _ _ =>
      (steady_firstSite x).bind fun site? _ => ?_
  · rcases hg.sole (hasEdge_of_mem_parameters hg.toMirrored hp) rfl with he | ⟨-, hnew⟩
    · exact fun ha hdecl => absurd ((ho.parameters he hdecl).symm.trans ha) (by simp)
    · exact canMark_of_new hnew
  · cases site? with
    | none => exact Keeps.pure True.intro
    | some site =>
        refine Keeps.bind (Q := fun _ => True) (steady_graph.bind fun g _ => ?_)
          fun type _ => steady_setSingle x type rfl (by simp)
        split
        · exact Keeps.pure True.intro
        · exact steady_typeAt _

omit hs ho in
theorem steady_reportImplementations (seen : Bool) (ds : List DeclId) :
    Keeps (Resolution.Steady setting passed g₀) (reportImplementations setting seen ds) := by
  induction ds generalizing seen with
  | nil => exact Keeps.pure True.intro
  | cons d ds ih =>
      rw [reportImplementations]
      refine (steady_site d).bind fun site _ => ?_
      dsimp only
      split
      · exact (steady_report _).bind fun _ _ => ih _
      · exact ih _

theorem steady_resolveFunction (hx : CanMark passed g₀ x) :
    Keeps (Resolution.Steady setting passed g₀) (resolveFunction setting x) := by
  refine steady_begin_then hx fun _ => steady_graph.bind fun g hg =>
    (Keeps.forM _ fun signature hsignature => steady_resolveSignature hs ho ?_).bind fun _ _ =>
      (steady_declarations x).bind fun ds _ => steady_reportImplementations false ds
  rcases hg.sole (hasEdge_of_mem_callSignatures hg.toMirrored hsignature) rfl with he | ⟨-, hnew⟩
  · exact fun ha hdecl => absurd ((ho.signatures he hdecl).symm.trans ha) (by simp)
  · exact canMark_of_new hnew

/-- What is resolved in the way of its kind is an alias only if it is resolved as an alias. -/
theorem steady_resolveSymbol (x : SymbolId) :
    Keeps (Resolution.Steady setting passed g₀) (resolveSymbol setting x) := by
  refine steady_graph.bind fun g hg => ?_
  have hmark : ∀ {kind : SymbolKind}, g.kind? x = some kind → kind ≠ .alias → CanMark passed g₀ x :=
    fun hk hne => canMark_of_kind?_eq hg fun ha => hne (Option.some.inj (hk.symm.trans ha))
  split
  · exact Keeps.throw _
  · next hk => exact steady_resolveModule (hmark hk (by simp))
  · next hk => exact steady_resolveModule (hmark hk (by simp))
  · next hk => exact steady_resolveClass ho (hmark hk (by simp))
  · split
    · next cls hcls =>
      have hkind := (ho.sides (hg.side (hasEdge_of_classOfInstance? hg.toMirrored hcls))).1
      exact steady_resolveClass ho (canMark_of_kind hkind (by simp))
    · exact Keeps.pure True.intro
  · next hk => exact steady_resolveInterface ho (hmark hk (by simp))
  · next hk => exact steady_resolveFunction hs ho (hmark hk (by simp))
  · next hk => exact steady_resolveFunction hs ho (hmark hk (by simp))
  · next hk => exact steady_resolveSignature hs ho (hmark hk (by simp))
  · next hk => exact steady_resolveValue hs (hmark hk (by simp))
  · next hk => exact steady_resolveValue hs (hmark hk (by simp))
  · next hk => exact steady_resolveValue hs (hmark hk (by simp))
  · exact (steady_resolveAlias x).bind fun _ _ => Keeps.pure True.intro
  · next hk => exact steady_markResolved (hmark hk (by simp))
  · next hk => exact steady_markResolved (hmark hk (by simp))
  · next hk => exact steady_markResolved (hmark hk (by simp))
  · next hk => exact steady_markResolved (hmark hk (by simp))

end Symbols

end ResolveM

namespace Demand

open ResolveM

variable {setting : Setting} {g₀ : SymbolGraph}

/-- The symbol that a demand marks without a look at its kind. -/
def Passes : Demand → SymbolId → Prop
  | .module id, x | .classType id, x | .interface id, x | .function id, x | .signature id, x
  | .value id, x => x = id
  | _, _ => False

/-- Every demand, also one that fails, keeps what aliases stand for. -/
theorem steady_run (hs : Searchable setting g₀) (ho : Outset setting g₀) (d : Demand) :
    Keeps (Resolution.Steady setting d.Passes g₀) (d.run setting) := by
  have hitself : ∀ id {step : ResolveM Unit}, Keeps (Resolution.Steady setting d.Passes g₀) step →
      Keeps (Resolution.Steady setting d.Passes g₀) (thenItself id step) :=
    fun id _ hstep => hstep.bind fun _ _ => Keeps.pure True.intro
  cases d with
  | symbol id => exact hitself id (steady_resolveSymbol hs ho id)
  | module id => exact hitself id (steady_resolveModule fun _ _ => rfl)
  | classType id => exact hitself id (steady_resolveClass ho fun _ _ => rfl)
  | interface id => exact hitself id (steady_resolveInterface ho fun _ _ => rfl)
  | function id => exact hitself id (steady_resolveFunction hs ho fun _ _ => rfl)
  | signature id => exact hitself id (steady_resolveSignature hs ho fun _ _ => rfl)
  | value id => exact hitself id (steady_resolveValue hs fun _ _ => rfl)
  | «alias» id => exact (steady_resolveAlias id).map fun _ _ => True.intro
  | aliasTarget id => exact (steady_aliasTarget id).map fun _ _ => True.intro
  | arrayOf element => exact (steady_arrayOf element).map fun _ _ => True.intro
  | path segments context enclosing meaning =>
      exact steady_findPath segments context enclosing meaning
  | typeNode unit node context enclosing =>
      exact (steady_typeReference unit node context enclosing).map fun _ _ => True.intro

end Demand

end NameBinding
