import NameBinding.Proofs.Resolve.Failure
import NameBinding.Proofs.Tree.Built
import NameBinding.Proofs.Workspace.Invalidation

/-! # Resolving succeeds in every workspace

Main statement: over documents that are trees, and whatever was requested before, every declared
symbol can be resolved and every node of a unit denotes a type. -/

namespace NameBinding

open SymbolGraph ResolveM

namespace Request

variable {request : Request}

/-- The document that a request sets. -/
def tree? : Request → Option DocTree
  | .setUnit _ tree _ => some tree
  | _ => none

/-- The request sets no document in which a node is below itself. -/
def SetsTree (request : Request) : Prop := ∀ tree ∈ request.tree?, tree.IsTree

theorem setsTree_of_grown {b : TreeBuilder} (h : b.Grown) (path : String) (root : NodeRef) :
    (setUnit path (b.finish root) root).SetsTree := by
  rintro _ ⟨⟩
  exact h.isTree_finish root

/-- The documents stay trees. -/
theorem SetsTree.documents (h : request.SetsTree) {docs : List (String × DocTree × NodeRef)}
    (hdocs : ∀ doc ∈ docs, doc.2.1.IsTree) : ∀ doc ∈ request.documents docs, doc.2.1.IsTree := by
  intro doc hdoc
  cases request with
  | setUnit path tree root =>
      rcases List.mem_append.mp hdoc with hdoc | hdoc
      · exact hdocs doc (List.mem_of_mem_filter hdoc)
      · obtain rfl := List.mem_singleton.mp hdoc
        exact h tree rfl
  | removeUnit path => exact hdocs doc (List.mem_of_mem_filter hdoc)
  | reset => exact absurd hdoc List.not_mem_nil
  | takeDiagnostics => exact hdocs doc hdoc
  | demand d => exact hdocs doc hdoc

end Request

namespace Workspace

variable {c c' : Chart} {w w' : Workspace}

/-- Every declared symbol can be resolved, and every node of a unit denotes a type, whatever the
context and the place. -/
structure ResolvesAll (w : Workspace) : Prop where
  symbol : ∀ id, w.graph.declarations id ≠ [] →
    ∃ w', (Request.demand (.symbol id)).run w = .ok (.symbol (some id)) w'
  typeNode : ∀ u ∈ w.program.units, ∀ node context enclosing, ∃ type w',
    (Request.demand (.typeNode u.id node context enclosing)).run w = .ok (.symbol (some type)) w' ∧
      w'.graph.DenotesType type

/-! ### Requests -/

/-- Edits keep the edges to types between symbols that stay. -/
theorem Leads.targeted {documents : List (String × DocTree × NodeRef)}
    (h : Leads c w documents c' w') (ht : w.graph.Targeted) : w'.graph.Targeted := by
  intro e he hk
  obtain ⟨hold, hsame⟩ := h.kept he (.inl (by simp [hk, EdgeKind.isStructural, EdgeKind.isResolution]))
  obtain ⟨hkind, -, hdeclared⟩ := hsame e.target (.inr rfl)
  refine ⟨(h.surveyed.charted.wellFormed.lt_size he).2, fun hclass => hdeclared ?_⟩
  exact (ht hold hk).2 (hkind ▸ hclass)

theorem Reachable.answerable_of_targeted (h : w.Reachable) (ht : w.graph.Targeted) :
    Answerable w.setting w.graph := by
  obtain ⟨c, hc⟩ := h.exists_surveyed
  exact ⟨h.sound, fun hx => (hc.initial hx).1, h.composed.array, ht⟩

/-- A demand leaves everything answerable, also if it fails. -/
theorem answerable_apply_demand (h : Answerable w.setting w.graph) (d : Demand) :
    Answerable ((Request.demand d).apply w).setting ((Request.demand d).apply w).graph := by
  have hrun : Contract (· = ⟨w.graph, w.diagnostics⟩) (d.run w.setting)
      (fun _ r => Answerable w.setting r.graph) fun r => Answerable w.setting r.graph :=
    Contract.weaken (d.contract_run_answerable h) (fun _ hr => hr ▸ rfl) (fun _ _ hr => hr) fun _ hr => hr
  refine Request.apply_of_contract (P := fun w' => Answerable w'.setting w'.graph) ?_
  refine Contract.bind (Q := fun _ w' => Answerable w'.setting w'.graph) ?_
    fun _ => Contract.pure _ fun _ h => h
  refine (WorkspaceM.contract_ofResolve_from hrun).weaken (fun _ hw => hw) ?_ ?_
  · rintro _ _ ⟨r, hr, rfl⟩
    exact hr
  · rintro _ ⟨r, hr, rfl⟩
    exact hr

/-- Every request leaves everything answerable. -/
theorem Reachable.answerable_apply (h : w.Reachable) (ha : Answerable w.setting w.graph)
    (request : Request) : Answerable (request.apply w).setting (request.apply w).graph := by
  cases hedit : request.isEdit with
  | true =>
      obtain ⟨c, hc⟩ := h.exists_surveyed
      obtain ⟨c', hl⟩ := hc.apply_edit h.sound hedit
      exact (h.apply request).answerable_of_targeted (hl.targeted ha.targeted)
  | false =>
      cases request with
      | demand d => exact answerable_apply_demand ha d
      | _ => exact absurd hedit (by simp [Request.isEdit])

/-- By induction on the requests. -/
theorem Reachable.answerable (h : w.Reachable) : Answerable w.setting w.graph := by
  obtain ⟨options, requests, rfl⟩ := h
  induction requests using List.reverseRecOn with
  | nil =>
      refine (reachable_ofOptions options).answerable_of_targeted ?_
      exact fun he => absurd he (not_hasEdge_ofOptions options _)
  | append_singleton requests request ih =>
      have hreach : Reachable ((ofOptions options).after requests) := ⟨options, requests, rfl⟩
      rw [after_append]
      exact hreach.answerable_apply ih request

/-- By induction on the requests. -/
theorem hasTrees_after (options : Options) {requests : List Request}
    (h : ∀ request ∈ requests, request.SetsTree) :
    ((ofOptions options).after requests).program.HasTrees := by
  suffices hdocs : ∀ doc ∈ ((ofOptions options).after requests).program.documents,
      doc.2.1.IsTree from fun u hu => hdocs _ (List.mem_map_of_mem hu)
  induction requests using List.reverseRecOn with
  | nil => exact fun doc hdoc => absurd hdoc List.not_mem_nil
  | append_singleton requests request ih =>
      have hreach : Reachable ((ofOptions options).after requests) := ⟨options, requests, rfl⟩
      have hdocs := (documents_apply hreach request).1
      rw [after_append]
      change ∀ doc ∈ (request.apply _).program.documents, _
      rw [hdocs]
      exact (h request (List.mem_append_right _ (List.mem_singleton_self _))).documents
        (ih fun r hr => h r (List.mem_append_left _ hr))

/-! ### Demands -/

/-- A demand does in a workspace what it does when resolving. -/
theorem run_demand (w : Workspace) (d : Demand) : (Request.demand d).run w =
    match d.run w.setting ⟨w.graph, w.diagnostics⟩ with
    | .ok answer r =>
      .ok (.symbol answer) { w with graph := r.graph, diagnostics := r.diagnostics }
    | .error e r => .error e { w with graph := r.graph, diagnostics := r.diagnostics } := by
  simp only [Request.run, WorkspaceM.ofResolve, bind, EStateM.bind]
  cases d.run w.setting ⟨w.graph, w.diagnostics⟩ <;> rfl

/-- A demand that succeeds is answered with what resolving gives, or would go on without end. -/
theorem run_demand_of_succeeds {d : Demand} {Q : Option SymbolId → SymbolGraph → Prop}
    (h : Succeeds w.setting w.graph (d.run w.setting) Q) :
    match (Request.demand d).run w with
    | .ok answer w' => ∃ id, answer = .symbol id ∧ Q id w'.graph
    | .error e _ => e.isEndless ∧ ¬w.program.HasTrees := by
  have hr := h ⟨w.graph, w.diagnostics⟩ rfl
  rw [run_demand]
  split at hr
  · next heq =>
    rw [heq]
    exact ⟨_, rfl, hr.2.2⟩
  · next heq =>
    rw [heq]
    exact hr.2

/-- Over trees, a demand that succeeds is answered. -/
theorem exists_run_demand {d : Demand} {Q : Option SymbolId → SymbolGraph → Prop}
    (htrees : w.program.HasTrees) (h : Succeeds w.setting w.graph (d.run w.setting) Q) :
    ∃ answer w', (Request.demand d).run w = .ok (.symbol answer) w' ∧ Q answer w'.graph := by
  have hrun := run_demand_of_succeeds h
  split at hrun
  · next hr =>
    obtain ⟨answer, rfl, hanswer⟩ := hrun
    exact ⟨answer, _, hr, hanswer⟩
  · exact absurd htrees hrun.2

/-- Mistakes in the documents are reported, and no demand for a declared symbol or for the type of a
node fails: names that are not declared, bases that are no types, bases and aliases that go round in
a circle, and annotations, nodes and places that are missing all have an answer. The answer for a
node is never a class, a module or an alias. -/
theorem resolvesAll_after (options : Options) (requests : List Request)
    (h : ∀ request ∈ requests, request.SetsTree) :
    ((ofOptions options).after requests).ResolvesAll := by
  have htrees := hasTrees_after options h
  have ha := Reachable.answerable ⟨options, requests, rfl⟩
  generalize (ofOptions options).after requests = w at htrees ha ⊢
  constructor
  · intro id hid
    have hstep : Succeeds w.setting w.graph ((Demand.symbol id).run w.setting)
        fun answer _ => answer = some id :=
      (succeeds_resolveSymbol ha (.of_declared hid)).bind fun _ _ ha' _ _ => .pure ha' rfl
    obtain ⟨_, w', hr, rfl⟩ := exists_run_demand htrees hstep
    exact ⟨w', hr⟩
  · intro u hu node context enclosing
    have hunit := ha.sound.program.unitById?_eq_some_iff.mpr ⟨hu, rfl⟩
    have hstep : Succeeds w.setting w.graph
        ((Demand.typeNode u.id node context enclosing).run w.setting)
        fun answer g => ∃ type, answer = some type ∧ g.DenotesType type := by
      rw [Demand.run, map_eq_pure_bind]
      exact (succeeds_typeReference ha hunit node context enclosing).bind
        fun type _ ha' _ htype => .pure ha' ⟨type, rfl, htype⟩
    obtain ⟨_, w', hr, type, rfl, htype⟩ := exists_run_demand htrees hstep
    exact ⟨type, w', hr, htype⟩

/-- Bases and aliases that go round in a circle, and names that nothing declares. -/
def circles : List Request :=
  [.setStatements "one.ts" do
      let a ← Build.classDecl "A" ∅ [← Build.typeReference "B"] [] []
      let b ← Build.classDecl "B" ∅ [← Build.typeReference "A"] [← Build.typeReference "X"] []
      let x ← Build.importEquals "X" ∅ "Y"
      let y ← Build.importEquals "Y" ∅ "X"
      let v ← Build.singleVariable "v" ∅ (← Build.arrayType (← Build.typeReference "N")) none
      return [a, b, x, y, v],
    .demand (.symbol 12)]

/-- Everything is resolved nonetheless, also the alias that comes back to itself. -/
theorem resolvesAll_after_circles : (∀ request ∈ circles, request.SetsTree) ∧
    ((ofOptions {}).after circles).graph.kind? 12 = some .alias ∧
    ((ofOptions {}).after circles).graph.declarations 12 ≠ [] ∧
    ((ofOptions {}).after circles).ResolvesAll := by
  have hordered : ∀ request ∈ circles, ∀ tree ∈ request.tree?, tree.Ordered := by decide +kernel
  have htrees : ∀ request ∈ circles, request.SetsTree := fun request hr tree ht =>
    (hordered request hr tree ht).isTree
  exact ⟨htrees, by decide +kernel, by decide +kernel, resolvesAll_after {} circles htrees⟩

end Workspace

end NameBinding
