import NameBinding.Proofs.Graph.Query
import NameBinding.Proofs.Resolve.Demand

/-! # Where resolving stays

Resolving points only from and to symbols that are declared, built in, global, or have edges already,
unless it is asked for another symbol itself. Then it points from that symbol, or makes an array type
over it, and nothing else points at it. The reports name the documents of the program. -/

namespace NameBinding

open SymbolGraph

/-- The ends of the edge are among some symbols, or are others that were asked about. Those others are
pointed at as element types only, and have no element types themselves. -/
structure Edge.Confined (P A : SymbolId → Prop) (e : Edge) : Prop where
  source : P e.source ∨ A e.source
  target : P e.target ∨ A e.target
  pointed : e.kind ≠ .arrayOf → P e.target
  array : e.kind = .arrayOf → P e.source

/-- All that has edges or declarations is among some symbols, up to what was asked about, and so is all
that will be made. -/
structure SymbolGraph.Confined (P A : SymbolId → Prop) (g : SymbolGraph) : Prop
    extends g.WellFormed where
  edge : ∀ {e : Edge}, g.hasEdge e → e.Confined P A
  declared : ∀ {x}, g.declarations x ≠ [] → P x
  fresh : ∀ {x}, g.size ≤ x → P x

/-- Problems that resolving meets can be reported in the file. -/
def ReportsIn (F : String → Nat → Prop) (file : String) : Prop :=
  ∀ code, code ≠ Message.nestedTooDeeply → F file code

/-- The graph is confined to some symbols, and the log to some files and codes. -/
structure Resolution.Confined (P A : SymbolId → Prop) (F : String → Nat → Prop) (r : Resolution) :
    Prop where
  graph : r.graph.Confined P A
  report : ∀ d ∈ r.diagnostics, F d.file d.code

/-- What resolving starts from is among the symbols, and what it can report among the files and
codes. -/
structure Setting.Confines (setting : Setting) (P : SymbolId → Prop) (F : String → Nat → Prop) :
    Prop where
  wellKnown : ∀ {x}, x < WellKnown.count → P x
  global : ∀ {name x}, x ∈ setting.program.globalSymbols name → P x
  report : ∀ {u : CompilationUnit}, u ∈ setting.program.units → ReportsIn F u.path

variable {P A : SymbolId → Prop} {F : String → Nat → Prop} {setting : Setting}

namespace SymbolGraph.Confined

variable {g : SymbolGraph} {x y : SymbolId} {kind : EdgeKind}

theorem setResolved (h : g.Confined P A) (x : SymbolId) (b : Bool) :
    (g.setResolved x b).Confined P A where
  toWellFormed := h.toWellFormed.modify (by intro s; rfl) (by intro s; rfl) x
  edge he := h.edge (by rwa [hasEdge_setResolved] at he)
  declared hx := h.declared (by rwa [declarations_setResolved] at hx)
  fresh hx := h.fresh (by simpa using hx)

theorem alloc (h : g.Confined P A) (name : String) (symbolKind : SymbolKind)
    (flags : Flags SymbolFlag) : (g.alloc name symbolKind flags).Confined P A where
  toWellFormed := h.toWellFormed.alloc name symbolKind flags
  edge he := h.edge (by simpa [SymbolGraph.hasEdge] using he)
  declared hx := h.declared (by rwa [declarations_alloc] at hx)
  fresh hx := h.fresh (by rw [size_alloc] at hx; exact Nat.le_of_succ_le hx)

theorem addEdge (h : g.Confined P A) {e : Edge} (hs : e.source < g.size) (ht : e.target < g.size)
    (he : e.Confined P A) (hholder : e.kind.isMembership → P e.source) :
    (g.addEdge e).Confined P A where
  toWellFormed := h.toWellFormed.addEdge hs ht
  edge hedge := by
    rcases (hasEdge_addEdge hs ht).mp hedge with hedge | rfl | ⟨hm, rfl⟩
    · exact h.edge hedge
    · exact he
    · refine ⟨he.target, he.source, fun _ => hholder hm, fun harray => ?_⟩
      exact absurd harray (by simp [Edge.backward])
  declared hx := h.declared (by rwa [declarations_congr (label?_addEdge g e _)] at hx)
  fresh hx := h.fresh (by simpa using hx)

theorem removeEdge (h : g.Confined P A) (e : Edge) : (g.removeEdge e).Confined P A where
  toWellFormed := h.toWellFormed.removeEdge e
  edge he := h.edge (h.hasEdge_removeEdge.mp he).1
  declared hx := h.declared (by rwa [declarations_congr (label?_removeEdge g e _)] at hx)
  fresh hx := h.fresh (by simpa using hx)

theorem of_mem_targets (h : g.Confined P A) (hk : kind ≠ .arrayOf) (hy : y ∈ g.targets x kind) :
    P y :=
  (h.edge (h.mem_targets_iff.mp hy)).pointed hk

theorem of_mem_arrayTypes (h : g.Confined P A) (hy : y ∈ g.arrayTypes x) : P y :=
  (h.edge (h.mem_sources_iff.mp hy)).array rfl

theorem of_instanceType? (h : g.Confined P A) (hy : g.instanceType? x = some y) : P y :=
  h.of_mem_targets (by decide) (List.mem_of_head? hy)

/-- What is found by its name is declared. -/
theorem of_admits (h : g.Confined P A) {name : String} {meaning : Meaning}
    (hx : g.admits name meaning x) : P x := by
  unfold admits at hx
  split at hx
  · next s hs =>
    refine h.declared fun hnil => ?_
    simp [SymbolGraph.declarations, hs] at hnil
    simp [Symbol.isDeclared, hnil] at hx
  · exact absurd hx (by simp)

end SymbolGraph.Confined

namespace ResolveM

/-! ### Steps -/

theorem confined_graph : Keeps (Resolution.Confined P A F) graph fun g => g.Confined P A := by
  intro r hr
  exact ⟨hr, hr.graph⟩

/-- A step on the graph leaves the log alone. -/
theorem confined_onGraph {α : Type} {step : GraphM α} {Q : α → Prop}
    (h : Keeps (SymbolGraph.Confined P A) step Q) :
    Keeps (Resolution.Confined P A F) (onGraph step) Q := by
  intro r hr
  have hstep := h r.graph hr.graph
  unfold onGraph
  cases hs : step r.graph with
  | ok a g =>
      rw [hs] at hstep
      exact ⟨⟨hstep.1, hr.report⟩, hstep.2⟩
  | error e g =>
      rw [hs] at hstep
      exact ⟨hstep, hr.report⟩

theorem confined_alloc (name : String) (kind : SymbolKind) (flags : Flags SymbolFlag) :
    Keeps (Resolution.Confined P A F) (alloc name kind flags) P := by
  refine confined_onGraph ((GraphM.contract_alloc name kind flags).weaken (fun _ hg => hg) ?_
    fun _ hg => hg)
  rintro _ _ ⟨g, hg, rfl, rfl⟩
  exact ⟨hg.alloc name kind flags, hg.fresh (Nat.le_refl _)⟩

theorem confined_link {source target : SymbolId} (hs : P source) (ht : P target)
    (kind : EdgeKind) : Keeps (Resolution.Confined P A F) (link source target kind) := by
  refine Keeps.bind (Q := fun _ => True) (confined_onGraph ?_) fun _ _ => Keeps.pure True.intro
  refine (GraphM.contract_link source target kind).weaken (fun _ hg => hg) ?_ fun _ hg => hg
  rintro _ _ ⟨g, hg, hsource, htarget, rfl⟩
  exact ⟨hg.addEdge hsource htarget ⟨.inl hs, .inl ht, fun _ => ht, fun _ => hs⟩ fun _ => hs,
    True.intro⟩

/-- A symbol that was asked about gets a type. -/
theorem confined_setSingle {source target : SymbolId} (hs : P source ∨ A source) (ht : P target)
    {kind : EdgeKind} (hk : kind.isResolution) :
    Keeps (Resolution.Confined P A F) (setSingle source target kind) := by
  refine confined_onGraph (GraphM.keeps_setSingle (fun _ _ hg => hg.removeEdge _)
    fun _ hg hsource htarget => hg.addEdge hsource htarget ⟨hs, .inl ht, fun _ => ht, ?_⟩ ?_)
  · rintro rfl
    simp [EdgeKind.isResolution] at hk
  · exact fun hm => absurd hm (EdgeKind.not_isMembership_of_isResolution hk)

/-- A symbol that was asked about gets an array type. -/
theorem confined_linkArray {array element : SymbolId} (ha : P array) (he : P element ∨ A element) :
    Keeps (Resolution.Confined P A F) (link array element .arrayOf) := by
  refine Keeps.bind (Q := fun _ => True) (confined_onGraph ?_) fun _ _ => Keeps.pure True.intro
  refine (GraphM.contract_link array element .arrayOf).weaken (fun _ hg => hg) ?_ fun _ hg => hg
  rintro _ _ ⟨g, hg, hsource, htarget, rfl⟩
  refine ⟨hg.addEdge hsource htarget ⟨.inl ha, he, fun hk => absurd rfl hk, fun _ => ha⟩ fun _ => ha,
    True.intro⟩

theorem confined_markResolved (id : SymbolId) :
    Keeps (Resolution.Confined P A F) (markResolved id) :=
  Keeps.modify fun _ hr => ⟨hr.graph.setResolved id true, hr.report⟩

theorem confined_removeOutgoing (id : SymbolId) (kind : EdgeKind) :
    Keeps (Resolution.Confined P A F) (removeOutgoing id kind) :=
  Keeps.modify fun _ hr =>
    ⟨removeTargets_induction (fun _ _ hg => hg.removeEdge _) _ hr.graph, hr.report⟩

theorem confined_report {d : Diagnostic} (hd : F d.file d.code) :
    Keeps (Resolution.Confined P A F) (report d) := by
  refine Keeps.modify fun r hr => ?_
  split
  · exact hr
  · refine ⟨hr.graph, fun d' hd' => ?_⟩
    rcases List.mem_append.mp hd' with hd' | hd'
    · exact hr.report d' hd'
    · exact List.mem_singleton.mp hd' ▸ hd

theorem confined_report_ofCode {file : String} (hfile : ReportsIn F file) {code : Nat}
    (hcode : code ≠ Message.nestedTooDeeply) (span : Span) (args : List String) :
    Keeps (Resolution.Confined P A F) (report (.ofCode file span code args)) :=
  confined_report (hfile code hcode)

theorem confined_begin (id : SymbolId) : Keeps (Resolution.Confined P A F) (begin id) := by
  unfold begin
  refine confined_graph.bind fun g _ => ?_
  cases g.get? id with
  | none => exact Keeps.throw _
  | some s =>
      dsimp only
      split
      · exact Keeps.pure True.intro
      · exact (confined_markResolved id).bind fun _ _ => Keeps.pure True.intro

/-- Work that is done once for a symbol. -/
theorem confined_begin_else {α : Type} {Q : α → Prop} {work rest : ResolveM α} (id : SymbolId)
    (hwork : Keeps (Resolution.Confined P A F) work Q)
    (hrest : Keeps (Resolution.Confined P A F) rest Q) :
    Keeps (Resolution.Confined P A F) (do if ← begin id then work else rest) Q := by
  refine (confined_begin id).bind fun b _ => ?_
  split
  · exact hwork
  · exact hrest

theorem confined_begin_then {work : ResolveM Unit} (id : SymbolId)
    (hwork : Keeps (Resolution.Confined P A F) work) :
    Keeps (Resolution.Confined P A F) (do if ← begin id then work) :=
  confined_begin_else id hwork (Keeps.pure True.intro)

theorem confined_declarations (id : SymbolId) :
    Keeps (Resolution.Confined P A F) (declarations id) fun ds => ds ≠ [] → P id := by
  unfold declarations
  refine confined_graph.bind fun g hg => ?_
  cases hs : g.get? id with
  | none => exact Keeps.throw _
  | some s =>
      refine Keeps.pure fun hne => hg.declared ?_
      simpa [SymbolGraph.declarations, hs] using hne

variable (hc : setting.Confines P F)

include hc

/-- Problems can be reported where a declaration stands. -/
theorem confined_site (d : DeclId) : Keeps (Resolution.Confined P A F) (site setting d) fun site =>
    ReportsIn F site.file := by
  unfold site
  cases hu : setting.program.unitById? d.unit with
  | none => exact Keeps.throw _
  | some u =>
      dsimp only
      cases u.decl? d with
      | none => exact Keeps.throw _
      | some decl => exact Keeps.pure (hc.report (List.mem_of_find?_eq_some hu))

theorem confined_firstSite (id : SymbolId) :
    Keeps (Resolution.Confined P A F) (firstSite setting id) fun site? =>
      ∀ site ∈ site?, P id ∧ ReportsIn F site.file := by
  unfold firstSite
  refine (confined_declarations id).bind fun ds hds => ?_
  cases hd : ds.head? with
  | none => exact Keeps.pure fun site hsite => absurd hsite (by simp)
  | some decl =>
      refine (confined_site hc decl).bind fun site hsite => Keeps.pure ?_
      rintro _ ⟨⟩
      exact ⟨hds (List.ne_nil_of_mem (List.mem_of_head? hd)), hsite⟩

omit hc in
/-- What was not found is reported, and the error symbol stands in for it. -/
theorem confined_missing (herror : P WellKnown.error) {file : String} (hfile : ReportsIn F file)
    {code : Nat} (hcode : code ≠ Message.nestedTooDeeply) (span : Span) (args : List String) :
    Keeps (Resolution.Confined P A F)
      (do report (.ofCode file span code args); return WellKnown.error : ResolveM SymbolId) P :=
  (confined_report_ofCode hfile hcode span args).bind fun _ _ => Keeps.pure herror

theorem error_mem : P WellKnown.error := hc.wellKnown (by decide)

/-! ### Names -/

section Search

omit hc

variable {aliasTarget : SymbolId → ResolveM SymbolId}

theorem confined_walkMembers (h : ∀ id, P id → Keeps (Resolution.Confined P A F) (aliasTarget id) P)
    (meaning : Meaning) {current : SymbolId} (hcurrent : P current) (segments : List String) :
    Keeps (Resolution.Confined P A F) (walkMembers aliasTarget meaning current segments)
      fun found => ∀ x ∈ found, P x := by
  induction segments generalizing current with
  | nil => exact Keeps.pure (by rintro _ ⟨⟩; exact hcurrent)
  | cons segment rest ih =>
      have hgo : ∀ holder, Keeps (Resolution.Confined P A F)
          (walkOn aliasTarget meaning segment rest holder) fun found => ∀ x ∈ found, P x := by
        refine fun holder => confined_graph.bind fun g hg => ?_
        cases hfind : (g.publicMembers holder).find? (g.admits segment (meaning.atSegment rest)) with
        | none => exact Keeps.pure (by simp)
        | some next => exact ih (hg.of_admits (List.find?_some hfind))
      rw [walkMembers_cons]
      refine confined_graph.bind fun g _ => ?_
      split
      · exact (h current hcurrent).bind fun holder _ => hgo holder
      · exact hgo current

theorem confined_lookupAmong (h : ∀ id, P id → Keeps (Resolution.Confined P A F) (aliasTarget id) P)
    (candidates : List SymbolId) (segments : List String) (meaning : Meaning) :
    Keeps (Resolution.Confined P A F) (lookupAmong aliasTarget candidates segments meaning)
      fun found => ∀ x ∈ found, P x := by
  unfold lookupAmong
  cases segments with
  | nil => exact Keeps.pure (by simp)
  | cons first rest =>
      refine confined_graph.bind fun g hg => Keeps.findSomeM? (by simp) _ fun x hx => ?_
      exact confined_walkMembers h meaning (hg.of_admits (List.mem_filter.mp hx).2) rest

theorem confined_lookupPath (h : ∀ id, P id → Keeps (Resolution.Confined P A F) (aliasTarget id) P)
    (segments : List String) (context : List SymbolId) (enclosing : Option DeclId)
    (meaning : Meaning) : Keeps (Resolution.Confined P A F)
      (lookupPath aliasTarget setting segments context enclosing meaning)
      fun found => ∀ x ∈ found, P x := by
  unfold lookupPath
  split
  · exact Keeps.pure (by simp)
  · refine Keeps.bind (Q := fun found => ∀ x ∈ found, P x)
      (Keeps.findSomeM? (by simp) _ fun anchor _ => ?_) fun found hfound => ?_
    · unfold lookupFrom
      exact confined_graph.bind fun g _ => confined_lookupAmong h _ segments meaning
    · cases found with
      | none => exact confined_lookupAmong h _ segments meaning
      | some found => exact Keeps.pure hfound

end Search

/-! ### Aliases -/

theorem confined_settledTarget (id : SymbolId) :
    Keeps (Resolution.Confined P A F) (settledTarget id) P := by
  unfold settledTarget
  refine confined_graph.bind fun g hg => Keeps.pure ?_
  cases ht : g.firstTarget id .typedAs with
  | none => exact error_mem hc
  | some target => exact hg.of_mem_targets (by decide) (List.mem_of_head? ht)

theorem confined_settle {resolve : SymbolId → ResolveM SymbolId}
    (h : ∀ id, P id → Keeps (Resolution.Confined P A F) (resolve id) P) {id : SymbolId} (hid : P id) :
    Keeps (Resolution.Confined P A F) (settle resolve id) P := by
  unfold settle
  refine confined_graph.bind fun g _ => ?_
  split
  · exact confined_settledTarget hc id
  · exact h id hid

theorem confined_namedTarget {resolve : SymbolId → ResolveM SymbolId}
    (h : ∀ id, P id → Keeps (Resolution.Confined P A F) (resolve id) P) (id : SymbolId)
    {site : DeclSite} (hsite : ReportsIn F site.file)
    (reference : NodeRef) :
    Keeps (Resolution.Confined P A F) (namedTarget setting resolve id site reference) P := by
  unfold namedTarget
  have hmissing : Keeps (Resolution.Confined P A F) (do
      report (.ofCode site.file (site.tree.span reference)
        (if (site.tree.entityName reference).length > 1 then Message.cannotFindNamespace
          else Message.cannotFindName) [Dotted.join (site.tree.entityName reference)])
      return WellKnown.error : ResolveM SymbolId) P := by
    refine confined_missing (error_mem hc) hsite ?_ _ _
    split <;> decide
  refine (confined_lookupPath (fun id hid => confined_settle hc h hid) _ _ _ _).bind ?_
  intro found hfound
  cases found with
  | none => exact hmissing
  | some found =>
      dsimp only
      split
      · exact hmissing
      · refine confined_graph.bind fun g _ => ?_
        split
        · exact h found (hfound found rfl)
        · exact Keeps.pure (hfound found rfl)

theorem confined_declaredTarget {resolve : SymbolId → ResolveM SymbolId}
    (h : ∀ id, P id → Keeps (Resolution.Confined P A F) (resolve id) P) (id : SymbolId) :
    Keeps (Resolution.Confined P A F) (declaredTarget setting resolve id) P := by
  unfold declaredTarget
  refine (confined_firstSite hc id).bind fun site? hsite => ?_
  cases site? with
  | none => exact Keeps.pure (error_mem hc)
  | some site =>
      have hfile := (hsite site rfl).2
      dsimp only
      split
      · split
        · unfold requiredModule
          refine confined_graph.bind fun g _ => ?_
          split
          · next found hfound => exact Keeps.pure (hc.global (List.mem_of_find?_eq_some hfound))
          · exact confined_missing (error_mem hc) hfile (by decide) _ _
        · exact confined_namedTarget hc h id hfile _
      · exact Keeps.pure (error_mem hc)

/-- By induction on the aliases that may still be followed. -/
theorem confined_resolveAliasWithin (hops : Nat) {id : SymbolId} (hid : P id ∨ A id) :
    Keeps (Resolution.Confined P A F) (resolveAliasWithin setting hops id) P := by
  induction hops generalizing id with
  | zero =>
      rw [resolveAliasWithin]
      refine confined_begin_else id ?_ (confined_settledTarget hc id)
      exact (confined_setSingle hid (error_mem hc) rfl).bind fun _ _ => Keeps.pure (error_mem hc)
  | succ hops ih =>
      rw [resolveAliasWithin]
      refine confined_begin_else id ?_ (confined_settledTarget hc id)
      exact (confined_declaredTarget hc (fun _ h => ih (.inl h)) id).bind fun target ht =>
        (confined_setSingle hid ht rfl).bind fun _ _ => Keeps.pure ht

theorem confined_aliasTarget {id : SymbolId} (hid : P id) :
    Keeps (Resolution.Confined P A F) (aliasTarget setting id) P :=
  confined_settle hc (fun _ h => confined_resolveAliasWithin hc _ (.inl h)) hid

theorem confined_findPath (segments : List String) (context : List SymbolId)
    (enclosing : Option DeclId) (meaning : Meaning) : Keeps (Resolution.Confined P A F)
      (findPath setting segments context enclosing meaning) fun found => ∀ x ∈ found, P x :=
  confined_lookupPath (fun _ h => confined_aliasTarget hc h) segments context enclosing meaning

theorem confined_typeDenoted {denoted : SymbolId} (hdenoted : P denoted) :
    Keeps (Resolution.Confined P A F) (typeDenoted denoted) P := by
  unfold typeDenoted
  refine confined_graph.bind fun g hg => ?_
  split
  · exact Keeps.pure (error_mem hc)
  · split
    · next inst hinst => exact Keeps.pure (hg.of_instanceType? hinst)
    · exact Keeps.throw _
  · exact Keeps.pure hdenoted
  · exact Keeps.throw _

theorem confined_asType {symbol : SymbolId} (hsymbol : P symbol) :
    Keeps (Resolution.Confined P A F) (asType setting symbol) P := by
  rw [asType_eq]
  refine confined_graph.bind fun g _ => ?_
  split
  · exact (confined_aliasTarget hc hsymbol).bind fun denoted h => confined_typeDenoted hc h
  · exact confined_typeDenoted hc hsymbol

/-! ### Types -/

section Types

variable {place : TypePlace}
  (hplace : ReportsIn F place.file)

omit hc in
theorem confined_arrayOf {element : SymbolId} (helement : P element ∨ A element) :
    Keeps (Resolution.Confined P A F) (arrayOf element) P := by
  unfold arrayOf
  refine confined_graph.bind fun g hg => ?_
  split
  · exact (confined_alloc _ _ _).bind fun array ha => (confined_linkArray ha helement).bind fun _ _ =>
      (confined_markResolved array).bind fun _ _ => Keeps.pure ha
  · next array harray =>
    exact Keeps.pure (hg.of_mem_arrayTypes (harray ▸ List.mem_singleton_self array))
  · exact Keeps.throw _

include hplace in
theorem confined_namedType (name reported : NodeRef) :
    Keeps (Resolution.Confined P A F) (namedType setting place name reported) P := by
  unfold namedType
  have hmissing : Keeps (Resolution.Confined P A F) (do
      report (.ofCode place.file (place.tree.span reported) Message.cannotFindName
        [Dotted.join (place.tree.entityName name)])
      return WellKnown.error : ResolveM SymbolId) P :=
    confined_missing (error_mem hc) hplace (by decide) _ _
  refine (confined_findPath hc _ _ _ _).bind fun found hfound => ?_
  cases found with
  | none => exact hmissing
  | some found =>
      refine (confined_asType hc (hfound found rfl)).bind fun type htype =>
        confined_graph.bind fun g _ => ?_
      split
      · exact Keeps.pure htype
      · exact hmissing

section Nested

omit hc

variable {resolve : NodeRef → ResolveM SymbolId}
  (h : ∀ r, Keeps (Resolution.Confined P A F) (resolve r) P)

include h

theorem confined_makeParameter {signature : SymbolId} (hs : P signature) (r : NodeRef) :
    Keeps (Resolution.Confined P A F) (makeParameter place resolve signature r) := by
  unfold makeParameter
  split
  · exact (confined_alloc _ _ _).bind fun parameter hp => (confined_link hs hp _).bind fun _ _ =>
      (h _).bind fun type ht => (confined_setSingle (.inl hp) ht rfl).bind fun _ _ =>
        confined_markResolved parameter
  · exact Keeps.pure True.intro

theorem confined_makeSignature (r : NodeRef) :
    Keeps (Resolution.Confined P A F) (makeSignature place resolve r) P := by
  unfold makeSignature
  refine (confined_alloc _ _ _).bind fun signature hs => ?_
  refine (Keeps.forM _ fun p _ => confined_makeParameter h hs p).bind fun _ _ => ?_
  exact (h _).bind fun type ht => (confined_setSingle (.inl hs) ht rfl).bind fun _ _ =>
    (confined_markResolved signature).bind fun _ _ => Keeps.pure hs

theorem confined_makeCallable (r : NodeRef) (kind : SymbolKind) (signatureKind : EdgeKind) :
    Keeps (Resolution.Confined P A F) (makeCallable place resolve r kind signatureKind) P := by
  unfold makeCallable
  refine (confined_alloc _ _ _).bind fun callable hcallable => ?_
  exact (confined_makeSignature h r).bind fun signature hs =>
    (confined_link hcallable hs _).bind fun _ _ =>
      (confined_markResolved callable).bind fun _ _ => Keeps.pure hcallable

omit h in
theorem confined_literalMethod {literal : SymbolId} (hl : P literal) (name : String) :
    Keeps (Resolution.Confined P A F) (literalMethod literal name) P := by
  unfold literalMethod
  refine confined_graph.bind fun g hg => ?_
  split
  · next method hm =>
    obtain ⟨e, he, rfl⟩ := List.mem_map.mp (mem_of_mem_listFor (List.mem_of_find?_eq_some hm))
    obtain ⟨houtgoing, hm⟩ := List.mem_filter.mp he
    refine Keeps.pure ((hg.edge (hg.mem_outgoing_iff.mp houtgoing).2).pointed fun hk => ?_)
    simp [hk, EdgeKind.isMembership] at hm
  · exact (confined_alloc _ _ _).bind fun method hm => (confined_link hl hm _).bind fun _ _ =>
      (confined_markResolved method).bind fun _ _ => Keeps.pure hm

theorem confined_makeMember {literal : SymbolId} (hl : P literal) (r : NodeRef) :
    Keeps (Resolution.Confined P A F) (makeMember place resolve literal r) := by
  have hsigned : ∀ {holder : SymbolId} (_ : P holder) (kind : EdgeKind),
      Keeps (Resolution.Confined P A F) (do
        let signature ← makeSignature place resolve r
        link holder signature kind) := fun hholder kind =>
    (confined_makeSignature h r).bind fun signature hs => confined_link hholder hs kind
  unfold makeMember
  cases place.tree.node? r with
  | none => exact Keeps.pure True.intro
  | some node =>
      dsimp only
      split
      · split
        · unfold makeField
          exact (confined_alloc _ _ _).bind fun field hf => (confined_link hl hf _).bind fun _ _ =>
            (h _).bind fun type ht => (confined_setSingle (.inl hf) ht rfl).bind fun _ _ =>
              confined_markResolved field
        · exact Keeps.pure True.intro
      · exact (confined_literalMethod hl _).bind fun method hm => hsigned hm _
      · exact hsigned hl _
      · exact hsigned hl _
      · exact hsigned hl _
      · exact Keeps.pure True.intro

theorem confined_makeLiteral (r : NodeRef) :
    Keeps (Resolution.Confined P A F) (makeLiteral place resolve r) P := by
  unfold makeLiteral
  exact (confined_alloc _ _ _).bind fun literal hl => (confined_markResolved literal).bind fun _ _ =>
    (Keeps.forM _ fun member _ => confined_makeMember h hl member).bind fun _ _ => Keeps.pure hl

end Nested

include hplace

theorem confined_typeOfNode {resolve : NodeRef → ResolveM SymbolId}
    (h : ∀ r, Keeps (Resolution.Confined P A F) (resolve r) P) (r : NodeRef) :
    Keeps (Resolution.Confined P A F) (typeOfNode place resolve setting r) P := by
  unfold typeOfNode
  split
  · exact confined_namedType hc hplace _ r
  · exact confined_namedType hc hplace r r
  · exact confined_namedType hc hplace r r
  · exact (h _).bind fun element he => confined_arrayOf (.inl he)
  · exact confined_makeCallable h r _ _
  · exact confined_makeCallable h r _ _
  · exact confined_makeLiteral h r
  · exact Keeps.pure (hc.wellKnown (WellKnown.ofKeyword?_getD_lt _))
  · exact Keeps.pure (hc.wellKnown (by decide))

/-- By induction on the levels of the node. -/
theorem confined_typeWithin (levels : Nat) (r : NodeRef) :
    Keeps (Resolution.Confined P A F) (typeWithin setting place levels r) P := by
  induction levels generalizing r with
  | zero => exact Keeps.throw _
  | succ levels ih =>
      rw [typeWithin]
      exact confined_typeOfNode hc hplace ih r

theorem confined_typeAt (r : NodeRef) :
    Keeps (Resolution.Confined P A F) (typeAt setting place r) P :=
  confined_typeWithin hc hplace _ r

end Types

/-! ### Bases -/

theorem confined_checkCollisions (container : SymbolId) :
    Keeps (Resolution.Confined P A F) (checkCollisions setting container) := by
  unfold checkCollisions
  split
  · refine confined_graph.bind fun g _ => Keeps.forM _ fun pair _ => ?_
    unfold reportCollision
    refine confined_graph.bind fun g _ => (confined_firstSite hc _).bind fun site? hsite => ?_
    cases site? with
    | none => exact Keeps.pure True.intro
    | some site =>
        have hd : F site.file Message.duplicateIdentifier := (hsite site rfl).2 _ (by decide)
        refine (confined_firstSite hc _).bind fun first? _ => ?_
        cases first? with
        | none => exact confined_report hd
        | some first => exact confined_report hd
  · exact Keeps.pure True.intro

theorem confined_baseFound {site : DeclSite} (hsite : ReportsIn F site.file) {notObject : Nat}
    (hcode : notObject ≠ Message.nestedTooDeeply) (entry : NodeRef) {found : Option SymbolId}
    (hfound : ∀ x ∈ found, P x) :
    Keeps (Resolution.Confined P A F) (baseFound setting site notObject entry found)
      fun found => ∀ x ∈ found, P x := by
  cases found with
  | none =>
      refine (confined_report_ofCode hsite (by decide) _ _).bind fun _ _ => Keeps.pure ?_
      rintro _ ⟨⟩
      exact error_mem hc
  | some found =>
      refine (confined_asType hc (hfound found rfl)).bind fun type htype =>
        confined_graph.bind fun g _ => ?_
      dsimp only
      split
      · refine Keeps.pure ?_
        rintro _ ⟨⟩
        exact htype
      · exact (confined_report_ofCode hsite hcode _ _).bind fun _ _ => Keeps.pure (by simp)

theorem confined_heritageTarget {site : DeclSite}
    (hsite : ReportsIn F site.file) {notObject : Nat}
    (hcode : notObject ≠ Message.nestedTooDeeply) (entry : NodeRef) :
    Keeps (Resolution.Confined P A F) (heritageTarget setting site notObject entry)
      fun found => ∀ x ∈ found, P x := by
  rw [heritageTarget_eq]
  refine (confined_findPath hc _ _ _ _).bind fun found hfound => ?_
  cases found with
  | none =>
      exact (confined_findPath hc _ _ _ _).bind fun _ h => confined_baseFound hc hsite hcode entry h
  | some found => exact confined_baseFound hc hsite hcode entry hfound

section Pull

variable {pull : SymbolId → ResolveM Unit} (h : ∀ id, Keeps (Resolution.Confined P A F) (pull id))

include h

theorem confined_extendWith {site : DeclSite}
    (hsite : ReportsIn F site.file) {notObject : Nat}
    (hcode : notObject ≠ Message.nestedTooDeeply) {type : SymbolId} (htype : P type)
    (entry : NodeRef) :
    Keeps (Resolution.Confined P A F) (extendWith pull setting site notObject type entry) := by
  unfold extendWith
  refine (confined_heritageTarget hc hsite hcode entry).bind fun base? hbase => ?_
  cases base? with
  | none => exact Keeps.pure True.intro
  | some base =>
      unfold linkBase
      refine (h base).bind fun _ _ => confined_graph.bind fun g _ => ?_
      split
      · exact confined_report_ofCode hsite (by decide) _ _
      · exact confined_link htype (hbase base rfl) _

theorem confined_resolveClassDecl {inst : SymbolId} (hinst : P inst) (decl : DeclId) :
    Keeps (Resolution.Confined P A F) (resolveClassDecl pull setting inst decl) := by
  unfold resolveClassDecl
  refine (confined_site hc decl).bind fun site hsite => ?_
  split
  · exact Keeps.pure True.intro
  · refine (Keeps.forM _ fun entry _ => confined_extendWith hc h hsite (by decide) hinst entry).bind
      fun _ _ => Keeps.forM _ fun entry _ => ?_
    unfold implementWith
    refine (confined_heritageTarget hc hsite (by decide) entry).bind fun target? htarget => ?_
    cases target? with
    | none => exact Keeps.pure True.intro
    | some target => exact confined_link hinst (htarget target rfl) _

theorem confined_resolveClassWith (cls : SymbolId) :
    Keeps (Resolution.Confined P A F) (resolveClassWith pull setting cls) := by
  unfold resolveClassWith
  refine confined_begin_then cls (confined_graph.bind fun g hg => ?_)
  split
  · exact Keeps.throw _
  · next inst hside =>
    have hinst := hg.of_instanceType? hside
    exact (confined_markResolved inst).bind fun _ _ => (confined_removeOutgoing inst _).bind fun _ _ =>
      (confined_removeOutgoing inst _).bind fun _ _ => (confined_declarations cls).bind fun ds _ =>
        (Keeps.forM ds fun d _ => confined_resolveClassDecl hc h hinst d).bind fun _ _ =>
          (confined_checkCollisions hc inst).bind fun _ _ => confined_checkCollisions hc cls

theorem confined_resolveInterfaceDecl {interface : SymbolId} (hinterface : P interface)
    (decl : DeclId) :
    Keeps (Resolution.Confined P A F) (resolveInterfaceDecl pull setting interface decl) := by
  unfold resolveInterfaceDecl
  refine (confined_site hc decl).bind fun site hsite => ?_
  split
  · exact Keeps.pure True.intro
  · exact Keeps.forM _ fun entry _ => confined_extendWith hc h hsite (by decide) hinterface entry

theorem confined_resolveInterfaceWith (interface : SymbolId) :
    Keeps (Resolution.Confined P A F) (resolveInterfaceWith pull setting interface) := by
  unfold resolveInterfaceWith
  exact confined_begin_then interface <| (confined_removeOutgoing interface _).bind fun _ _ =>
    (confined_declarations interface).bind fun ds hds =>
      (Keeps.forM ds fun d hd =>
        confined_resolveInterfaceDecl hc h (hds (List.ne_nil_of_mem hd)) d).bind fun _ _ =>
        confined_checkCollisions hc interface

end Pull

/-- By induction on the types that may still lie below. -/
theorem confined_pullWithin (types : Nat) (type : SymbolId) :
    Keeps (Resolution.Confined P A F) (pullWithin setting types type) := by
  induction types generalizing type with
  | zero => exact Keeps.throw _
  | succ types ih =>
      rw [pullWithin]
      refine confined_graph.bind fun g _ => ?_
      split
      · split
        · exact confined_resolveClassWith hc ih _
        · exact Keeps.pure True.intro
      · exact confined_resolveInterfaceWith hc ih type
      · exact Keeps.pure True.intro

theorem confined_pull (type : SymbolId) : Keeps (Resolution.Confined P A F) (pull setting type) := by
  unfold pull
  exact confined_graph.bind fun g _ => confined_pullWithin hc _ type

theorem confined_resolveClass (cls : SymbolId) :
    Keeps (Resolution.Confined P A F) (resolveClass setting cls) :=
  confined_resolveClassWith hc (confined_pull hc) cls

theorem confined_resolveInterface (interface : SymbolId) :
    Keeps (Resolution.Confined P A F) (resolveInterface setting interface) :=
  confined_resolveInterfaceWith hc (confined_pull hc) interface

/-! ### Symbols -/

theorem confined_resolveModule (id : SymbolId) :
    Keeps (Resolution.Confined P A F) (resolveModule setting id) :=
  confined_begin_then id (confined_checkCollisions hc id)

theorem confined_chooseTypeNode {chosen : Option (DeclSite × NodeRef)}
    (hchosen : ∀ c ∈ chosen, ReportsIn F c.1.file)
    (ds : List DeclId) :
    Keeps (Resolution.Confined P A F) (chooseTypeNode setting chosen ds) fun chosen =>
      ∀ c ∈ chosen, ReportsIn F c.1.file := by
  induction ds generalizing chosen with
  | nil => exact Keeps.pure hchosen
  | cons d ds ih =>
      rw [chooseTypeNode]
      refine (confined_site hc d).bind fun site hsite => ?_
      split
      · exact ih hchosen
      · refine Keeps.pure ?_
        rintro _ ⟨⟩
        exact hsite
      · refine ih ?_
        cases chosen with
        | none =>
            rintro _ ⟨⟩
            exact hsite
        | some c => exact hchosen

theorem confined_resolveValue {id : SymbolId} (hid : P id ∨ A id) :
    Keeps (Resolution.Confined P A F) (resolveValue setting id) := by
  unfold resolveValue
  refine confined_begin_then id ((confined_declarations id).bind fun ds _ =>
    (confined_chooseTypeNode hc (by simp) ds).bind fun chosen hchosen => ?_)
  split
  · exact (confined_typeAt hc (hchosen _ rfl) _).bind fun type ht => confined_setSingle hid ht rfl
  · exact confined_setSingle hid (hc.wellKnown (by decide)) rfl

theorem confined_declaredReturn (id : SymbolId) {site : DeclSite}
    (hsite : ReportsIn F site.file) :
    Keeps (Resolution.Confined P A F) (declaredReturn setting id site) P := by
  unfold declaredReturn
  refine confined_graph.bind fun g hg => ?_
  split
  · refine Keeps.pure ?_
    cases hside : (g.container? id).bind g.instanceType? with
    | none => exact hc.wellKnown (by decide)
    | some inst =>
        obtain ⟨cls, -, hinst⟩ := Option.bind_eq_some_iff.mp hside
        exact hg.of_instanceType? hinst
  · exact confined_typeAt hc hsite _

theorem confined_resolveSignature (id : SymbolId) :
    Keeps (Resolution.Confined P A F) (resolveSignature setting id) := by
  unfold resolveSignature
  refine confined_begin_then id (confined_graph.bind fun g hg => Keeps.bind (Q := fun _ => True)
    (Keeps.forM _ fun p hp => ?_) fun _ _ => (confined_firstSite hc id).bind fun site? hsite => ?_)
  · exact confined_resolveValue hc (.inl (hg.of_mem_targets (by decide) (mem_of_mem_listFor hp)))
  · cases site? with
    | none => exact Keeps.pure True.intro
    | some site =>
        obtain ⟨hid, hfile⟩ := hsite site rfl
        exact (confined_declaredReturn hc id hfile).bind fun type ht =>
          confined_setSingle (.inl hid) ht rfl

theorem confined_reportImplementations (seen : Bool) (ds : List DeclId) :
    Keeps (Resolution.Confined P A F) (reportImplementations setting seen ds) := by
  induction ds generalizing seen with
  | nil => exact Keeps.pure True.intro
  | cons d ds ih =>
      rw [reportImplementations]
      refine (confined_site hc d).bind fun site hsite => ?_
      dsimp only
      split
      · exact (confined_report_ofCode hsite (by decide) _ _).bind fun _ _ => ih _
      · exact ih _

theorem confined_resolveFunction (id : SymbolId) :
    Keeps (Resolution.Confined P A F) (resolveFunction setting id) := by
  unfold resolveFunction
  exact confined_begin_then id <| confined_graph.bind fun g _ =>
    (Keeps.forM _ fun signature _ => confined_resolveSignature hc signature).bind fun _ _ =>
      (confined_declarations id).bind fun ds _ => confined_reportImplementations hc false ds

/-! ### Demands -/

omit hc in
/-- What is marked is not resolved again. -/
theorem begin_else_of_isResolved {α : Type} {id : SymbolId} {r : Resolution}
    (h : r.graph.isResolved id) (work rest : ResolveM α) :
    (do if ← begin id then work else rest) r = rest r := by
  cases hs : r.graph.get? id with
  | none => simp [isResolved, hs] at h
  | some s =>
      have hr : s.resolved := by simpa [isResolved, hs] using h
      have hbegin : begin id r = .ok false r := by
        simp only [begin, graph, bind_assoc, run_get_bind, pure_bind, hs, hr, if_true]
        rfl
      simp only [run_bind_of_ok hbegin, Bool.false_eq_true, if_false]

omit hc in
/-- Only a symbol that is not marked has to be among the given ones. -/
theorem confined_once {α : Type} {Q : α → Prop} {g : SymbolGraph} {id : SymbolId}
    {work rest : ResolveM α}
    (hopen : ¬g.isResolved id → Keeps (Resolution.Confined P A F)
      (do if ← begin id then work else rest) Q)
    (hrest : Keeps (Resolution.Confined P A F) rest Q) :
    Contract (fun r => r.graph = g ∧ r.Confined P A F) (do if ← begin id then work else rest)
      (fun a r => r.Confined P A F ∧ Q a) (Resolution.Confined P A F) := by
  by_cases hmarked : g.isResolved id
  · rintro r ⟨rfl, hr⟩
    rw [begin_else_of_isResolved hmarked]
    exact hrest r hr
  · exact Contract.weaken (hopen hmarked) (fun _ hr => hr.2) (fun _ _ h => h) fun _ h => h

theorem confined_value_once {g : SymbolGraph} {id : SymbolId} (hid : ¬g.isResolved id → P id ∨ A id) :
    Contract (fun r => r.graph = g ∧ r.Confined P A F) (resolveValue setting id)
      (fun _ => Resolution.Confined P A F) (Resolution.Confined P A F) :=
  (confined_once (fun hopen => confined_resolveValue hc (hid hopen)) (Keeps.pure True.intro)).weaken
    (fun _ hr => hr) (fun _ _ h => h.1) fun _ h => h

theorem confined_alias_once {g : SymbolGraph} {id : SymbolId} (hid : ¬g.isResolved id → P id ∨ A id) :
    Contract (fun r => r.graph = g ∧ r.Confined P A F) (resolveAlias setting id)
      (fun a r => r.Confined P A F ∧ P a) (Resolution.Confined P A F) := by
  have hopen := fun hopen => confined_resolveAliasWithin hc Limits.aliasDepth (hid hopen)
  unfold resolveAlias
  cases hdepth : Limits.aliasDepth with
  | zero => exact absurd hdepth (by decide)
  | succ hops =>
      rw [hdepth, resolveAliasWithin] at hopen
      rw [resolveAliasWithin]
      exact confined_once hopen (confined_settledTarget hc id)

omit hc in
/-- The graph that is read is the one at hand. -/
theorem confined_graph_bind {α : Type} {g : SymbolGraph} {f : SymbolGraph → ResolveM α}
    {post : α → Resolution → Prop} {fail : Resolution → Prop}
    (h : Contract (fun r => r.graph = g ∧ r.Confined P A F) (f g) post fail) :
    Contract (fun r => r.graph = g ∧ r.Confined P A F) (graph >>= f) post fail := by
  rintro r ⟨rfl, hr⟩
  exact h r ⟨rfl, hr⟩

theorem confined_aliasTarget_once {g : SymbolGraph} {id : SymbolId}
    (hid : ¬g.isResolved id → P id ∨ A id) :
    Contract (fun r => r.graph = g ∧ r.Confined P A F) (aliasTarget setting id)
      (fun a r => r.Confined P A F ∧ P a) (Resolution.Confined P A F) := by
  unfold aliasTarget settle
  refine confined_graph_bind ?_
  split
  · exact Contract.weaken (confined_settledTarget hc id) (fun _ hr => hr.2) (fun _ _ h => h)
      fun _ h => h
  · exact confined_alias_once hc hid

theorem confined_typeReference (unit : UnitId) (r : NodeRef) (context : List SymbolId)
    (enclosing : Option DeclId) :
    Keeps (Resolution.Confined P A F) (typeReference setting unit r context enclosing) P := by
  unfold typeReference
  cases hu : setting.program.unitById? unit with
  | none => exact Keeps.throw _
  | some u => exact confined_typeAt hc (hc.report (List.mem_of_find?_eq_some hu)) r

end ResolveM

namespace Demand

open ResolveM

/-- The symbol that a demand is to type, or to make an array type over, if that is still to do. -/
def subject? (g : SymbolGraph) : Demand → Option SymbolId
  | .symbol id => match g.kind? id with
    | some .variable | some .field | some .parameter | some .alias =>
      if g.isResolved id then none else some id
    | _ => none
  | .value id | .alias id | .aliasTarget id => if g.isResolved id then none else some id
  | .arrayOf element => some element
  | _ => none

variable {g : SymbolGraph} {id x : SymbolId}

theorem subject_eq_some (h : x ∈ (if g.isResolved id then none else some id)) :
    id = x ∧ ¬g.isResolved x := by
  split at h
  · exact absurd h (by simp)
  · next hopen =>
    obtain rfl : id = x := Option.some.inj h
    exact ⟨rfl, hopen⟩

/-- Only values and aliases are typed. -/
theorem subject?_symbol_eq_some (h : x ∈ (Demand.symbol id).subject? g) :
    id = x ∧ ¬g.isResolved x ∧ ((g.kind? x = some .variable ∨ g.kind? x = some .field ∨
      g.kind? x = some .parameter) ∨ g.kind? x = some .alias) := by
  rw [subject?] at h
  split at h
  case h_5 => exact absurd h (by simp)
  all_goals
    next hk =>
      obtain ⟨rfl, hopen⟩ := subject_eq_some h
      simp [hopen, hk]

theorem mem_of_subject {P : SymbolId → Prop} {id : SymbolId}
    (h : ∀ x ∈ (if g.isResolved id then none else some id), P x) (hid : ¬g.isResolved id) : P id :=
  h id (by simp [hid])

theorem confined_thenItself {pre : Resolution → Prop} (id : SymbolId) {step : ResolveM Unit}
    (h : Contract pre step (fun _ => Resolution.Confined P A F) (Resolution.Confined P A F)) :
    Contract pre (thenItself id step) (fun _ => Resolution.Confined P A F)
      (Resolution.Confined P A F) :=
  Contract.bind h fun _ => Contract.pure _ fun _ hr => hr

theorem confined_some {pre : Resolution → Prop} {m : ResolveM SymbolId}
    (h : Contract pre m (fun a r => r.Confined P A F ∧ P a) (Resolution.Confined P A F)) :
    Contract pre (some <$> m) (fun _ => Resolution.Confined P A F) (Resolution.Confined P A F) := by
  rw [map_eq_pure_bind]
  exact Contract.bind h fun _ => Contract.pure _ fun _ hr => hr.1

/-- What stays confined in any case does so from a given graph. -/
theorem confined_of_keeps {α : Type} {Q : α → Prop} {m : ResolveM α}
    (h : Keeps (Resolution.Confined P A F) m Q) :
    Contract (fun r => r.graph = g ∧ r.Confined P A F) m (fun _ => Resolution.Confined P A F)
      (Resolution.Confined P A F) :=
  Contract.weaken h (fun _ hr => hr.2) (fun _ _ hr => hr.1) fun _ hr => hr

theorem confined_resolveSymbol (hc : setting.Confines P F) {id : SymbolId}
    (hid : ∀ x ∈ (Demand.symbol id).subject? g, P x ∨ A x) :
    Contract (fun r => r.graph = g ∧ r.Confined P A F) (resolveSymbol setting id)
      (fun _ => Resolution.Confined P A F) (Resolution.Confined P A F) := by
  have hvalue : ∀ {kind}, g.kind? id = some kind →
      kind = .variable ∨ kind = .field ∨ kind = .parameter ∨ kind = .alias →
      ¬g.isResolved id → P id ∨ A id := by
    intro kind hk hkind
    rw [subject?, hk] at hid
    rcases hkind with rfl | rfl | rfl | rfl <;> exact mem_of_subject hid
  unfold resolveSymbol
  refine confined_graph_bind ?_
  split
  · exact confined_of_keeps (Keeps.throw _ (Q := fun _ => True))
  · exact confined_of_keeps (confined_resolveModule hc id)
  · exact confined_of_keeps (confined_resolveModule hc id)
  · exact confined_of_keeps (confined_resolveClass hc id)
  · split
    · exact confined_of_keeps (confined_resolveClass hc _)
    · exact confined_of_keeps (Keeps.pure (Q := fun _ => True) True.intro)
  · exact confined_of_keeps (confined_resolveInterface hc id)
  · exact confined_of_keeps (confined_resolveFunction hc id)
  · exact confined_of_keeps (confined_resolveFunction hc id)
  · exact confined_of_keeps (confined_resolveSignature hc id)
  · next hk => exact confined_value_once hc (hvalue hk (.inl rfl))
  · next hk => exact confined_value_once hc (hvalue hk (.inr (.inl rfl)))
  · next hk => exact confined_value_once hc (hvalue hk (.inr (.inr (.inl rfl))))
  · next hk =>
    exact Contract.bind (confined_alias_once hc (hvalue hk (.inr (.inr (.inr rfl))))) fun _ =>
      Contract.pure _ fun _ h => h.1
  · exact confined_of_keeps (confined_markResolved id)
  · exact confined_of_keeps (confined_markResolved id)
  · exact confined_of_keeps (confined_markResolved id)
  · exact confined_of_keeps (confined_markResolved id)

/-- A demand, also one that fails, stays among the given symbols but for the symbol that it is to type or
to make an array type over. -/
theorem confined_run (hc : setting.Confines P F) (d : Demand)
    (hd : ∀ x ∈ d.subject? g, P x ∨ A x) :
    Contract (fun r => r.graph = g ∧ r.Confined P A F) (d.run setting)
      (fun _ => Resolution.Confined P A F) (Resolution.Confined P A F) := by
  cases d with
  | symbol id => exact confined_thenItself id (confined_resolveSymbol hc hd)
  | module id => exact confined_thenItself id (confined_of_keeps (confined_resolveModule hc id))
  | classType id => exact confined_thenItself id (confined_of_keeps (confined_resolveClass hc id))
  | interface id => exact confined_thenItself id (confined_of_keeps (confined_resolveInterface hc id))
  | function id => exact confined_thenItself id (confined_of_keeps (confined_resolveFunction hc id))
  | signature id => exact confined_thenItself id (confined_of_keeps (confined_resolveSignature hc id))
  | value id => exact confined_thenItself id (confined_value_once hc (mem_of_subject hd))
  | «alias» id =>
      exact confined_some (confined_alias_once hc (mem_of_subject hd))
  | aliasTarget id => exact confined_some (confined_aliasTarget_once hc (mem_of_subject hd))
  | arrayOf element =>
      exact confined_some (Contract.weaken (confined_arrayOf (hd element rfl)) (fun _ hr => hr.2)
        (fun _ _ h => h) fun _ h => h)
  | path segments context enclosing meaning =>
      exact confined_of_keeps (confined_findPath hc segments context enclosing meaning)
  | typeNode unit node context enclosing =>
      exact confined_some (Contract.weaken (confined_typeReference hc unit node context enclosing)
        (fun _ hr => hr.2) (fun _ _ h => h) fun _ h => h)

end Demand

end NameBinding
