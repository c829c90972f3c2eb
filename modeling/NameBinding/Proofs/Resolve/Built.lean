import NameBinding.Proofs.Graph.Lined
import NameBinding.Proofs.Resolve.Composed
import NameBinding.Proofs.Resolve.Parts

/-! # What types are built over

An array type is built over its element type, a signature over its parameters and what it returns, a
parameter or a property over its type, and a method over its signatures. While a type is made, some of
its parts are still open: they are there, and what they are built over is not. Main statement: a demand
that is met closes them all, so that of what it made only type literals point at nothing. -/

namespace NameBinding

open SymbolGraph

/-- What a symbol can be built over. A container and the bases are no such thing. -/
def EdgeKind.supports : EdgeKind → Bool
  | .containedBy | .extends | .implements => false
  | _ => true

namespace SymbolGraph

variable {g g' : SymbolGraph} {must : SymbolId → Prop} {opened opened' : List SymbolId} {e : Edge}
  {x y : SymbolId}

/-- The symbol is built over another one. -/
def IsBuilt (g : SymbolGraph) (x : SymbolId) : Prop :=
  ∃ e : Edge, g.hasEdge e ∧ e.source = x ∧ e.kind.supports

theorem IsBuilt.mono (h : g.IsBuilt x)
    (hedge : ∀ {e : Edge}, e.source = x → e.kind.supports → g.hasEdge e → g'.hasEdge e) :
    g'.IsBuilt x := by
  obtain ⟨e, he, hx, hk⟩ := h
  exact ⟨e, hedge hx hk he, hx, hk⟩

/-- What must be built over something is, but for type literals and for what is open. -/
structure Builds (must : SymbolId → Prop) (opened : List SymbolId) (g : SymbolGraph) : Prop
    extends g.WellFormed where
  built : ∀ {x}, x < g.size → must x → g.kind? x ≠ some .typeLiteral → x ∉ opened → g.IsBuilt x

namespace Builds

theorem mono (h : g.Builds must opened) (hsub : opened ⊆ opened') : g.Builds must opened' where
  toWellFormed := h.toWellFormed
  built hx hm hk hopen := h.built hx hm hk fun hmem => hopen (hsub hmem)

/-- The same symbols, of which those that are not open are built over as much as before. -/
theorem of_edges (h : g.Builds must opened) (hg : g'.WellFormed)
    (hlabel : ∀ x, g'.label? x = g.label? x)
    (hbuilt : ∀ {x}, x ∉ opened → g.IsBuilt x → g'.IsBuilt x) : g'.Builds must opened where
  toWellFormed := hg
  built {x} hx hm hk hopen := by
    rw [kind?_congr (hlabel x)] at hk
    exact hbuilt hopen (h.built ((lt_size_congr (hlabel x)).mp hx) hm hk hopen)

theorem setResolved (h : g.Builds must opened) (id : SymbolId) :
    (g.setResolved id true).Builds must opened :=
  h.of_edges (h.toWellFormed.modify (by intro s; rfl) (by intro s; rfl) id)
    (label?_setResolved g id true) fun _ hx => hx.mono fun _ _ he => by rwa [hasEdge_setResolved]

/-- A new symbol is open. -/
theorem alloc (h : g.Builds must opened) (name : String) (kind : SymbolKind)
    (flags : Flags SymbolFlag) : (g.alloc name kind flags).Builds must (g.size :: opened) where
  toWellFormed := h.toWellFormed.alloc name kind flags
  built {x} hx hm hk hopen := by
    rw [List.mem_cons, not_or] at hopen
    have hlt : x < g.size := by
      rw [size_alloc] at hx
      exact Nat.lt_of_le_of_ne (Nat.le_of_lt_succ hx) hopen.1
    rw [kind?_alloc, if_neg hopen.1] at hk
    exact (h.built hlt hm hk hopen.2).mono fun _ _ he => by simpa [hasEdge] using he

/-- A type literal is never open. -/
theorem alloc_literal (h : g.Builds must opened) (name : String) (flags : Flags SymbolFlag) :
    (g.alloc name .typeLiteral flags).Builds must opened where
  toWellFormed := h.toWellFormed.alloc name .typeLiteral flags
  built {x} hx hm hk hopen := by
    refine (h.alloc name .typeLiteral flags).built hx hm hk fun hmem => ?_
    rcases List.mem_cons.mp hmem with rfl | hmem
    · exact hk ((kind?_alloc g name .typeLiteral flags g.size).trans (if_pos rfl))
    · exact hopen hmem

/-- A new edge can close its source. -/
theorem addEdge (h : g.Builds must opened') (hs : e.source < g.size) (ht : e.target < g.size)
    (hclosed : ∀ x ∈ opened', x ∈ opened ∨ x = e.source ∧ e.kind.supports) :
    (g.addEdge e).Builds must opened where
  toWellFormed := h.toWellFormed.addEdge hs ht
  built {x} hx hm hk hopen := by
    rw [size_addEdge] at hx
    rw [kind?_congr (label?_addEdge g e x)] at hk
    by_cases hmem : x ∈ opened'
    · obtain ⟨rfl, hsupports⟩ := (hclosed x hmem).resolve_left hopen
      exact ⟨e, (hasEdge_addEdge hs ht).mpr (.inr (.inl rfl)), rfl, hsupports⟩
    · exact (h.built hx hm hk hmem).mono fun _ _ he => (hasEdge_addEdge hs ht).mpr (.inl he)

/-- An edge goes over which nothing is built, or an open symbol only. -/
theorem removeEdge (h : g.Builds must opened) (hk : ¬e.kind.isStructural)
    (hrest : e.source ∈ opened ∨ ¬e.kind.supports) : (g.removeEdge e).Builds must opened := by
  have hmember : ¬e.kind.isMembership := fun hm => hk (EdgeKind.isStructural_of_isMembership hm)
  have hcontainer : e.kind ≠ .containedBy := by
    rintro hc
    simp [hc, EdgeKind.isStructural, EdgeKind.isResolution] at hk
  refine h.of_edges (h.toWellFormed.removeEdge e) (label?_removeEdge g e) fun {x} hopen hx => ?_
  refine hx.mono fun {f} hsource hsupports he =>
    h.toWellFormed.hasEdge_removeEdge.mpr ⟨he, fun hfalls => ?_⟩
  obtain ⟨-, rfl⟩ := (fallsWith_iff_of_plain hmember hcontainer).mp hfalls
  exact hrest.elim (fun hmem => hopen (hsource ▸ hmem)) fun hno => hno hsupports

theorem removeTargets (h : g.Builds must opened) {id : SymbolId} {kind : EdgeKind}
    (hk : ¬kind.isStructural) (hrest : id ∈ opened ∨ ¬kind.supports) (ends : List SymbolId) :
    (g.removeTargets id kind ends).Builds must opened :=
  removeTargets_induction (P := Builds must opened) (fun _ _ hg => hg.removeEdge hk hrest) ends h

end Builds

end SymbolGraph

/-- What has to be built over something is, in the graph of the resolution. -/
def Resolution.Builds (must : SymbolId → Prop) (opened : List SymbolId) (r : Resolution) : Prop :=
  r.graph.Builds must opened

namespace ResolveM

variable {α β : Type} {must : SymbolId → Prop} {opened : List SymbolId}

/-- If the step succeeds, it leaves open only what was open before. -/
def Closes (m : ResolveM α) : Prop :=
  ∀ must opened, Contract (Resolution.Builds must opened) m
    (fun _ => Resolution.Builds must opened) fun _ => True

/-! ### Steps -/

theorem contract_alloc_builds (name : String) (kind : SymbolKind) (flags : Flags SymbolFlag) :
    Contract (Resolution.Builds must opened) (alloc name kind flags)
      (fun x => Resolution.Builds must (x :: opened)) fun _ => True := by
  refine (contract_onGraph (GraphM.contract_alloc (P := Builds must opened) name kind flags)).weaken
    (fun _ hr => hr) ?_ fun _ _ => True.intro
  rintro _ ⟨_, _⟩ ⟨g, hg, rfl, rfl⟩
  exact hg.alloc name kind flags

theorem closes_alloc_literal (name : String) (flags : Flags SymbolFlag) :
    Closes (alloc name .typeLiteral flags) := by
  intro must opened
  refine (contract_onGraph (GraphM.contract_alloc (P := Builds must opened) name _ flags)).weaken
    (fun _ hr => hr) ?_ fun _ _ => True.intro
  rintro _ ⟨_, _⟩ ⟨g, hg, -, rfl⟩
  exact hg.alloc_literal name flags

/-- An edge closes its source. -/
theorem contract_link_builds (source target : SymbolId) {kind : EdgeKind} (hk : kind.supports) :
    Contract (Resolution.Builds must (source :: opened)) (link source target kind)
      (fun _ => Resolution.Builds must opened) fun _ => True := by
  refine (contract_link (Builds must (source :: opened)) source target kind).weaken
    (fun _ hr => hr) ?_ fun _ _ => True.intro
  rintro _ ⟨_, _⟩ ⟨g, hg, hs, ht, rfl⟩
  exact hg.addEdge hs ht fun x hx => (List.mem_cons.mp hx).symm.imp_right fun hx => ⟨hx, hk⟩

/-- A type closes its symbol. -/
theorem contract_setSingle_builds (source target : SymbolId) {kind : EdgeKind}
    (hstructural : ¬kind.isStructural) (hk : kind.supports) :
    Contract (Resolution.Builds must (source :: opened)) (setSingle source target kind)
      (fun _ => Resolution.Builds must opened) fun _ => True := by
  refine (contract_onGraph (GraphM.contract_setSingle (P := Builds must (source :: opened))
    source target kind)).weaken (fun _ hr => hr) ?_ fun _ _ => True.intro
  rintro _ ⟨_, _⟩ ⟨g, hg, hs, ht, rfl⟩
  have hdropped := hg.removeTargets hstructural (.inl List.mem_cons_self)
    ((g.targets source kind).filter (· != target))
  refine hdropped.addEdge ?_ ?_ fun x hx => (List.mem_cons.mp hx).symm.imp_right fun hx => ⟨hx, hk⟩
  · rwa [size_removeTargets]
  · rwa [size_removeTargets]

theorem closes_link (source target : SymbolId) (kind : EdgeKind) :
    Closes (link source target kind) := by
  intro must opened
  refine (contract_link (Builds must opened) source target kind).weaken
    (fun _ hr => hr) ?_ fun _ _ => True.intro
  rintro _ ⟨_, _⟩ ⟨g, hg, hs, ht, rfl⟩
  exact hg.addEdge hs ht fun x hx => .inl hx

theorem closes_setSingle (source target : SymbolId) {kind : EdgeKind} (hk : ¬kind.isStructural) :
    Closes (setSingle source target kind) := by
  intro must opened
  by_cases hsupports : kind.supports
  · exact (contract_setSingle_builds source target hk hsupports).weaken
      (fun _ hr => hr.mono (List.subset_cons_self source opened)) (fun _ _ hr => hr) fun _ hr => hr
  · refine (contract_onGraph (GraphM.keeps_setSingle (P := Builds must opened) ?_ ?_)).weaken
      (fun _ hr => hr) (fun _ _ hr => hr.1) fun _ _ => True.intro
    · exact fun _ _ hg => hg.removeEdge hk (.inr hsupports)
    · exact fun _ hg hs ht => hg.addEdge hs ht fun _ hx => .inl hx

/-- One case for each basic step. -/
theorem Composed.closes {m : ResolveM α} (h : Composed (fun _ m => Closes m) m) : Closes m := by
  induction h with
  | given h => exact h
  | pure a => exact fun _ _ => Contract.pure a fun _ hr => hr
  | throw e => exact fun _ _ => Contract.throw e fun _ _ => True.intro
  | bind _ _ hm hf => exact fun must opened => (hm must opened).bind fun a => hf a must opened
  | graph => exact fun _ _ => Contract.get_bind fun r hr => Contract.pure _ fun _ heq => heq ▸ hr
  | link source target _ => exact closes_link source target _
  | setSingle source target hk => exact closes_setSingle source target hk
  | markResolved id => exact fun _ _ => Contract.modify fun r hr => hr.setResolved id
  | @removeOutgoing id kind hk =>
      have hplain : ¬kind.isStructural ∧ ¬kind.supports := by
        rcases hk with rfl | rfl <;> decide
      exact fun must opened => Contract.modify fun r hr =>
        Builds.removeTargets hr hplain.1 (.inr hplain.2) _
  | report d =>
      refine fun must opened => Contract.modify fun r hr => ?_
      split
      · exact hr
      · exact hr

theorem closes_markResolved (id : SymbolId) : Closes (markResolved id) :=
  (Composed.markResolved id).closes

theorem closes_pure (a : α) : Closes (pure a) := (Composed.pure a).closes

protected theorem Closes.forM {f : β → ResolveM PUnit} (bs : List β) (h : ∀ b, Closes (f b)) :
    Closes (bs.forM f) := (Composed.forM bs fun b => .given (h b)).closes

/-! ### Types -/

/-- What the graph is when it is read does not matter. -/
theorem contract_graph_builds {f : SymbolGraph → ResolveM α} {post : α → Resolution → Prop}
    (h : ∀ g, Contract (Resolution.Builds must opened) (f g) post fun _ => True) :
    Contract (Resolution.Builds must opened) (graph >>= f) post fun _ => True :=
  fun r hr => h r.graph r hr

theorem closes_arrayOf (element : SymbolId) : Closes (arrayOf element) := by
  intro must opened
  unfold arrayOf
  refine contract_graph_builds fun g => ?_
  split
  · refine (contract_alloc_builds _ _ _).bind fun array => ?_
    refine (contract_link_builds array element rfl).bind fun _ => ?_
    exact (closes_markResolved array must opened).bind fun _ => closes_pure array must opened
  · exact closes_pure _ must opened
  · exact (Composed.throw _).closes must opened

section Types

variable {setting : Setting} {place : TypePlace} {resolve : NodeRef → ResolveM SymbolId}
  (h : ∀ r, Closes (resolve r))

include h

/-- A part that was made gets its type. -/
theorem contract_typed_builds (part : SymbolId) (typeNode : NodeRef) {kind : EdgeKind}
    (hstructural : ¬kind.isStructural) (hk : kind.supports) {rest : ResolveM α}
    (hrest : Closes rest) :
    Contract (Resolution.Builds must (part :: opened)) (do
        let type ← resolve typeNode
        setSingle part type kind
        rest)
      (fun _ => Resolution.Builds must opened) fun _ => True := by
  refine (h typeNode must (part :: opened)).bind fun type => ?_
  exact (contract_setSingle_builds part type hstructural hk).bind fun _ => hrest must opened

theorem closes_makeParameter (signature : SymbolId) (r : NodeRef) :
    Closes (makeParameter place resolve signature r) := by
  intro must opened
  unfold makeParameter
  split
  · refine (contract_alloc_builds _ _ _).bind fun parameter => ?_
    refine (closes_link signature parameter _ must (parameter :: opened)).bind fun _ => ?_
    exact contract_typed_builds h parameter _ (by decide) rfl (closes_markResolved parameter)
  · exact closes_pure _ must opened

theorem closes_makeSignature (r : NodeRef) : Closes (makeSignature place resolve r) := by
  intro must opened
  unfold makeSignature
  refine (contract_alloc_builds _ _ _).bind fun signature => ?_
  refine (Closes.forM _ (closes_makeParameter h signature) must (signature :: opened)).bind fun _ => ?_
  exact contract_typed_builds h signature _ (by decide) rfl
    ((Composed.markResolved signature).bind fun _ => .pure signature).closes

theorem closes_makeCallable (r : NodeRef) (kind : SymbolKind) {edge : EdgeKind}
    (hk : edge.supports) : Closes (makeCallable place resolve r kind edge) := by
  intro must opened
  unfold makeCallable
  refine (contract_alloc_builds _ _ _).bind fun callable => ?_
  refine (closes_makeSignature h r must (callable :: opened)).bind fun signature => ?_
  refine (contract_link_builds callable signature hk).bind fun _ => ?_
  exact (closes_markResolved callable must opened).bind fun _ => closes_pure callable must opened

theorem closes_makeField (literal : SymbolId) (node : Node) (p : ValueParts) :
    Closes (makeField place resolve literal node p) := by
  intro must opened
  unfold makeField
  refine (contract_alloc_builds _ _ _).bind fun field => ?_
  refine (closes_link literal field _ must (field :: opened)).bind fun _ => ?_
  exact contract_typed_builds h field _ (by decide) rfl (closes_markResolved field)

omit h in
/-- A method that is made is open until it has a signature. -/
theorem contract_literalMethod_builds (literal : SymbolId) (name : String) :
    Contract (Resolution.Builds must opened) (literalMethod literal name)
      (fun method => Resolution.Builds must (method :: opened)) fun _ => True := by
  unfold literalMethod
  refine contract_graph_builds fun g => ?_
  split
  · next method _ => exact Contract.pure method fun _ hr => hr.mono (List.subset_cons_self _ _)
  · refine (contract_alloc_builds _ _ _).bind fun method => ?_
    refine (closes_link literal method _ must (method :: opened)).bind fun _ => ?_
    exact (closes_markResolved method must (method :: opened)).bind fun _ =>
      Contract.pure method fun _ hr => hr

theorem closes_makeMember (literal : SymbolId) (r : NodeRef) :
    Closes (makeMember place resolve literal r) := by
  have hsigned : ∀ kind, Closes (do
      let signature ← makeSignature place resolve r
      link literal signature kind) := fun kind => Composed.closes <|
    (Composed.given (closes_makeSignature h r)).bind fun _ => .given (closes_link _ _ _)
  unfold makeMember
  cases place.tree.node? r with
  | none => exact closes_pure _
  | some node =>
      dsimp only
      split
      · split
        · exact closes_makeField h literal node _
        · exact closes_pure _
      · intro must opened
        refine (contract_literalMethod_builds literal _).bind fun method => ?_
        exact (closes_makeSignature h r must (method :: opened)).bind fun signature =>
          contract_link_builds method signature rfl
      · exact hsigned _
      · exact hsigned _
      · exact hsigned _
      · exact closes_pure _

theorem closes_makeLiteral (r : NodeRef) : Closes (makeLiteral place resolve r) := by
  intro must opened
  unfold makeLiteral
  refine (closes_alloc_literal _ _ must opened).bind fun literal => ?_
  refine (closes_markResolved literal must opened).bind fun _ => ?_
  exact (Closes.forM _ (closes_makeMember h literal) must opened).bind fun _ =>
    closes_pure literal must opened

theorem closes_typeOfNode (r : NodeRef) : Closes (typeOfNode place resolve setting r) := by
  unfold typeOfNode
  split
  · exact (composed_namedType _ r).closes
  · exact (composed_namedType r r).closes
  · exact (composed_namedType r r).closes
  · exact Composed.closes (.bind (.given (h _)) fun element => .given (closes_arrayOf element))
  · exact closes_makeCallable h r _ rfl
  · exact closes_makeCallable h r _ rfl
  · exact closes_makeLiteral h r
  · exact closes_pure _
  · exact closes_pure _

omit h in
/-- By induction on the levels of the node. -/
theorem closes_typeWithin (levels : Nat) (r : NodeRef) :
    Closes (typeWithin setting place levels r) := by
  induction levels generalizing r with
  | zero => exact (Composed.throw _).closes
  | succ levels ih =>
      rw [typeWithin]
      exact closes_typeOfNode ih r

end Types

end ResolveM

/-! ### Main statement -/

open ResolveM in
theorem Demand.closes (d : Demand) (setting : Setting) : Closes (d.run setting) :=
  (d.composed_run (fun _ r => .given (closes_typeWithin _ r)) fun x =>
    .given (closes_arrayOf x)).closes

end NameBinding
