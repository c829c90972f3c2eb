import NameBinding.Proofs.Place.Stages
import NameBinding.Proofs.Resolve.Explained
import NameBinding.Proofs.Workspace.Ends
import NameBinding.Proofs.Workspace.Log
import NameBinding.Proofs.Workspace.Recalls

/-! # Error types and reports

A symbol that counts as resolved and stands for the error symbol should come with a report of a name
that was not found. Main statement: in a run of edits and of demands for symbols it does, unless a
demand meets an alias behind too many others, or a document goes and takes the last report with it. -/

namespace NameBinding

open SymbolGraph

/-- The path of a document that the request takes away without a new one in its place. -/
def Request.drops? (w : Workspace) : Request → Option String
  | .removeUnit path => some path
  | .setUnit path tree root =>
    if (Request.setUnit path tree root).succeeds w then none else some path
  | _ => none

/-- All reports on names that were not found go with a document, and not all error symbols do. -/
def Request.Strips (request : Request) (w : Workspace) : Prop :=
  ∃ path ∈ request.drops? w, (∃ d ∈ w.diagnostics, Workspace.isLookupMiss d) ∧
    (∀ d ∈ w.diagnostics, Workspace.isLookupMiss d → d.file = path) ∧
      ∃ x, (request.apply w).graph.Erroneous x

/-- A demand leaves an alias at the error symbol that comes up behind too many others, while no name is
reported as not found. -/
def Request.Ties (request : Request) (w : Workspace) : Prop :=
  (∃ d, request = .demand d) ∧ (∀ r ∈ (request.apply w).diagnostics, ¬Workspace.isLookupMiss r) ∧
    ∃ a, (request.apply w).graph.Erroneous a ∧ w.setting.Knotted w.graph a

namespace Workspace

variable {c : Chart} {w : Workspace} {x : SymbolId} {path : String} {tree : DocTree} {root : NodeRef}

/-- If symbols of the program text are resolved to the error symbol, some name is reported as not
found. -/
def Explained (w : Workspace) : Prop :=
  ∀ x, w.graph.Erroneous x → ∃ d ∈ w.diagnostics, isLookupMiss d

/-! ### Where demands begin -/

theorem IsCollected.readsImports {limit : Nat} {u : CompilationUnit} (h : IsCollected limit u) :
    u.ReadsImports :=
  (CompilationUnit.sound_collect limit u.id u.path u.tree u.root).imports.of_text h.symm

/-- Aliases are declared by imports. -/
theorem Surveyed.importEquals_of_declares (h : Surveyed c w) {a : SymbolId} {d : DeclId}
    {site : DeclSite} (ha : w.graph.kind? a = some .alias) (hd : d ∈ w.graph.declarations a)
    (hsite : w.setting.site? d = some site) :
    ∃ i, site.tree.record? site.decl.node = some (.importEquals i) := by
  obtain ⟨u, hu, hfound⟩ := Option.bind_eq_some_iff.mp hsite
  obtain ⟨decl, hdecl, rfl⟩ := Option.map_eq_some_iff.mp hfound
  obtain ⟨q, hq⟩ := h.exists_place (List.ne_nil_of_mem hd)
  obtain ⟨v, hv, hid, hplace⟩ := h.contributes.mp ((h.charted.declarations hq d).mp hd)
  have hunit : u ∈ w.program.units := List.mem_of_find?_eq_some hu
  have hsame : u.id = d.unit := by simpa using List.find?_some hu
  obtain rfl := h.charted.program.eq_of_id hv hunit (hid.trans hsame.symm)
  have hn := h.charted.program.numbered v hunit
  obtain rfl := hn.id_eq hdecl
  rw [h.charted.kind? hq] at ha
  have hkind := CompilationUnit.kind_of_alias hn hdecl hplace ha
  exact (h.collected v hunit).readsImports _ _ (CompilationUnit.decl?_eq_some hdecl).2 hkind

theorem Surveyed.importEquals_of_alias (h : Surveyed c w) {a : SymbolId} {site : DeclSite}
    (ha : w.graph.kind? a = some .alias) (hsite : w.setting.firstSite? w.graph a = some site) :
    ∃ i, site.tree.record? site.decl.node = some (.importEquals i) := by
  obtain ⟨d, hhead, hfirst⟩ := Option.bind_eq_some_iff.mp hsite
  exact h.importEquals_of_declares ha (List.mem_of_head? hhead) hfirst

/-- Whatever was requested, resolving can begin. -/
theorem Reachable.outset (h : w.Reachable) : Outset w.setting w.graph := by
  obtain ⟨c, hc⟩ := h.exists_surveyed
  have hparts : ∀ {kind : EdgeKind} {x y}, kind.isSole → w.graph.hasEdge ⟨x, y, kind⟩ →
      w.graph.declarations y ≠ [] → c.Joins ⟨x, y, kind⟩ := by
    intro kind x y hk he hdecl
    rcases hc.anchored he (EdgeKind.isStructural_of_isSole hk) with hj | ⟨-, hsyn⟩
    · exact hj
    · obtain ⟨d, hd⟩ := List.exists_mem_of_ne_nil _ hdecl
      exact absurd (isSynthesized_iff.mp hsyn).1 (h.sound.graph.declarable hd).1
  exact {
    error := h.answerable.kind?_error
    undeclared := by
      rw [declarations_congr (hc.initial (x := WellKnown.error) (by decide)).1]
      rfl
    sides := fun he => ⟨(h.sound.graph.isSide he).1, (h.sound.graph.isSide he).2.1⟩
    arrays := fun he hk => h.answerable.arrayKind he hk
    signatures := fun he hdecl => hc.kind?_signature (hparts rfl he hdecl)
    parameters := fun he hdecl => hc.kind?_parameter (hparts rfl he hdecl)
    imports := hc.importEquals_of_alias }

/-! ### Edits -/

theorem exists_afterBinding_of_succeeds (h : (Request.setUnit path tree root).succeeds w) :
    ∃ w₁ unit, (Request.setUnit path tree root).apply w = afterBinding w₁ unit := by
  unfold Request.succeeds at h
  unfold Request.apply
  rw [run_setUnit] at h ⊢
  cases hb : w.bindingOf path tree root with
  | error e b =>
      rw [hb] at h
      exact absurd h (by simp)
  | ok _ b => exact ⟨_, _, rfl⟩

/-- When a document came, what stood for the error symbol is to be resolved again. -/
theorem Reachable.not_erroneous_setUnit (h : w.Reachable)
    (hset : (Request.setUnit path tree root).succeeds w) (x : SymbolId) :
    ¬((Request.setUnit path tree root).apply w).graph.Erroneous x := by
  have hs := (h.apply (.setUnit path tree root)).sound
  obtain ⟨w₁, unit, happly⟩ := exists_afterBinding_of_succeeds hset
  rw [happly] at hs ⊢
  rintro ⟨hdecl, hr, hend⟩
  obtain ⟨kind, hk, he⟩ := hend.exists_edge
  obtain ⟨d, hd⟩ := List.exists_mem_of_ne_nil _ hdecl
  have hin := hs.graph.mem_incoming_iff.mpr (And.intro rfl he)
  rw [afterBinding, incoming_invalidateAll] at hin
  have hthrough : x ∈ w₁.graph.resolvedThrough WellKnown.error :=
    List.mem_map.mpr ⟨_, List.mem_filter.mpr ⟨hin, by simp [hk]⟩, rfl⟩
  have haffected : x ∈ w₁.graph.allResolvedThrough
      (w₁.graph.sharingNames unit ++ [WellKnown.error]) := by
    refine List.mem_eraseDups.mpr (List.mem_flatMap.mpr ⟨_, ?_, hthrough⟩)
    refine Walk.mem_reach_iff.mpr ⟨_, ?_, .here _ _⟩
    exact List.mem_append_right _ (List.mem_singleton_self _)
  refine (hs.graph.declarable hd).2 ?_
  rw [afterBinding, has_congr (label?_invalidateAll _ _ x)]
  refine (isResolved_invalidateAll.mp hr).2 x haffected ?_
  exact Walk.mem_reach_iff.mpr ⟨x, List.mem_singleton_self x, .here _ _⟩

/-- Without a new document, the reports go that are about the old one, and no name is looked up. -/
theorem retracts_iff_of_drops? {request : Request} (hpath : request.drops? w = some path)
    (d : Diagnostic) : (request.Retracts w d ↔ d.file = path) ∧
      (d ∈ request.reports w → ¬isLookupMiss d) := by
  cases request with
  | removeUnit p =>
      obtain rfl := Option.some.inj hpath
      exact ⟨Iff.rfl, fun hd => absurd (reports_removeUnit w p ▸ hd) List.not_mem_nil⟩
  | setUnit p t n =>
      rw [Request.drops?] at hpath
      split at hpath
      · exact absurd hpath (by simp)
      · next hfails =>
        obtain rfl := Option.some.inj hpath
        refine ⟨or_iff_left fun ⟨hretries, _⟩ => ?_, fun hd hmiss => ?_⟩
        · exact hfails (Bool.and_eq_true_iff.mp hretries).1
        · rw [not_isLookupMiss_of_mem_depthReports (mem_reports_setUnit.mp hd)] at hmiss
          exact absurd hmiss (by simp)
  | _ => exact absurd hpath (by simp [Request.drops?])

/-- An edit leaves error symbols explained unless it takes all that explains them. -/
theorem Reachable.explained_edit (h : w.Reachable) (hex : w.Explained) {request : Request}
    (hkind : request.editsOrResolves) (hedit : request.isEdit) (hkeeps : ¬request.Strips w) :
    (request.apply w).Explained := by
  intro x hx
  by_contra hno
  obtain ⟨d, hd, hmiss⟩ := hex x ((h.recalls_apply hedit).erroneous hx)
  have hdrops : ∃ path, request.drops? w = some path := by
    cases request with
    | removeUnit path => exact ⟨path, rfl⟩
    | setUnit path tree root =>
        refine ⟨path, if_neg fun hset => ?_⟩
        exact h.not_erroneous_setUnit hset x hx
    | demand d => exact absurd hedit (by simp [Request.isEdit])
    | _ => exact absurd hkind (by simp [Request.editsOrResolves])
  obtain ⟨path, hpath⟩ := hdrops
  refine hkeeps ⟨path, hpath, ⟨d, hd, hmiss⟩, fun r hr hrmiss => ?_, x, hx⟩
  by_contra hfile
  refine hno ⟨r, (mem_diagnostics_apply_iff h.namesPresent request r).mpr (.inr ⟨hr, ?_⟩), hrmiss⟩
  exact fun hgone => hfile ((retracts_iff_of_drops? hpath r).1.mp hgone)

theorem Reachable.not_explained_of_strips (h : w.Reachable) {request : Request}
    (hstrips : request.Strips w) : ¬(request.apply w).Explained := by
  obtain ⟨path, hpath, -, hfiles, x, hx⟩ := hstrips
  intro hex
  obtain ⟨d, hd, hmiss⟩ := hex x hx
  obtain ⟨hretracts, hreports⟩ := retracts_iff_of_drops? hpath d
  rcases (mem_diagnostics_apply_iff h.namesPresent request d).mp hd with hnew | ⟨hold, hstays⟩
  · exact hreports hnew hmiss
  · exact hstays (hretracts.mpr (hfiles d hold hmiss))

theorem Reachable.orderly_edit (h : w.Reachable) (ho : w.graph.Orderly) {request : Request}
    (hedit : request.isEdit) : (request.apply w).graph.Orderly :=
  (h.recalls_apply hedit).orderly ho

/-! ### Demands -/

/-- A demand for a symbol that fails leaves no error symbol behind. -/
theorem Reachable.honest_demand (h : w.Reachable) (htrees : w.program.HasTrees)
    (ho : w.graph.Orderly) (hex : w.Explained) (x : SymbolId) :
    Resolution.Honest w.setting w.graph []
      ⟨((Request.demand (.symbol x)).apply w).graph,
        ((Request.demand (.symbol x)).apply w).diagnostics⟩ := by
  have haccounted : (∃ d ∈ w.diagnostics, isLookupMiss d) ∨ ∀ x, ¬w.graph.Erroneous x :=
    or_iff_not_imp_right.mpr fun hsome => by
      obtain ⟨y, hy⟩ := not_forall_not.mp hsome
      exact hex y hy
  have hbegin : Resolution.Honest w.setting w.graph [] ⟨w.graph, w.diagnostics⟩ :=
    .begin ho h.sound.graph.toWellFormed haccounted
  cases herror : (Request.demand (.symbol x)).error? w with
  | some e =>
      obtain ⟨g', hf⟩ := h.exists_failure herror (h.not_isEndless htrees herror)
      rw [(h.error?_of_failure hf).2]
      obtain ⟨-, ⟨-, rfl⟩ | ⟨id, hid, -, -, rfl⟩ | ⟨element, hd, -⟩⟩ := Demand.failure?_cases hf
      · exact hbegin
      · rcases hid with ⟨-, hk⟩ | hd
        · exact hbegin.mark_inert fun _ => ⟨_, hk, rfl⟩
        · exact absurd hd (by simp)
      · exact absurd hd (by simp)
  | none =>
      have hrun : Resolution.Yields ⟨w.graph, w.diagnostics⟩
          ((Demand.symbol x).run w.setting) fun _ r => r.Honest w.setting w.graph [] :=
        (ResolveM.yields_resolveSymbol h.outset hbegin x).bind fun _ _ hr => .pure hr
      unfold Request.error? at herror
      unfold Request.apply
      rw [run_demand] at herror ⊢
      cases hr : (Demand.symbol x).run w.setting ⟨w.graph, w.diagnostics⟩ with
      | ok _ r => exact hrun.ok hr
      | error e r =>
          rw [hr] at herror
          exact absurd herror (by simp)

theorem Reachable.explained_demand (h : w.Reachable) (htrees : w.program.HasTrees)
    (ho : w.graph.Orderly) (hex : w.Explained) (hties : ¬(Request.demand (.symbol x)).Ties w) :
    ((Request.demand (.symbol x)).apply w).Explained := by
  have hhonest := h.honest_demand htrees ho hex x
  intro y hy
  rcases hhonest.explains List.not_mem_nil hy with hmiss | ⟨a, -, ha, hknot⟩
  · exact hmiss
  · by_contra hno
    exact hties ⟨⟨_, rfl⟩, fun r hr hmiss => hno ⟨r, hr, hmiss⟩, a, ha, hknot⟩

/-! ### Runs -/

theorem orderly_ofOptions (options : Options) : (ofOptions options).graph.Orderly where
  fits he := absurd he (not_hasEdge_ofOptions options _)
  straight he := absurd he (not_hasEdge_ofOptions options _)
  settled _ _ hr := absurd hr (not_isResolved_ofOptions options _)

/-- In all states of a run error symbols are explained exactly when no request of the run takes the
last explanation away and no demand leaves an alias behind too many others without one, by induction
on the states. -/
theorem explained_along_run_iff (options : Options) {requests : List Request}
    (hkind : ∀ request ∈ requests, request.editsOrResolves)
    (htrees : ∀ request ∈ requests, request.SetsTree) :
    (∀ first, first <+: requests → ((ofOptions options).after first).Explained) ↔
      ∀ first request, first ++ [request] <+: requests →
        ¬request.Strips ((ofOptions options).after first) ∧
          ¬request.Ties ((ofOptions options).after first) := by
  have hreach : ∀ first, Reachable ((ofOptions options).after first) :=
    fun first => ⟨options, first, rfl⟩
  constructor
  · intro hall first request hrun
    have hafter := hall (first ++ [request]) hrun
    rw [after_append] at hafter
    refine ⟨fun hstrips => (hreach first).not_explained_of_strips hstrips hafter, ?_⟩
    rintro ⟨-, hno, a, ha, -⟩
    obtain ⟨d, hd, hmiss⟩ := hafter a ha
    exact hno d hd hmiss
  · intro hall first hrun
    suffices hboth : ((ofOptions options).after first).graph.Orderly ∧
        ((ofOptions options).after first).Explained from hboth.2
    induction first using List.reverseRecOn with
    | nil =>
        refine ⟨orderly_ofOptions options, fun x hx => ?_⟩
        exact absurd hx.2.1 (not_isResolved_ofOptions options x)
    | append_singleton first request ih =>
        have hfirst : first <+: requests := (List.prefix_append first [request]).trans hrun
        obtain ⟨ho, hex⟩ := ih hfirst
        obtain ⟨hstrips, hties⟩ := hall first request hrun
        have hmem : request ∈ requests :=
          hrun.subset (List.mem_append_right first (List.mem_singleton_self request))
        rw [after_append]
        cases hedit : request.isEdit with
        | true =>
            exact ⟨(hreach first).orderly_edit ho hedit,
              (hreach first).explained_edit hex (hkind request hmem) hedit hstrips⟩
        | false =>
            have hdemand := hkind request hmem
            match request with
            | .demand (.symbol x) =>
              have hdocuments := hasTrees_after options fun r hr => htrees r (hfirst.subset hr)
              exact ⟨((hreach first).honest_demand hdocuments ho hex x).orderly,
                (hreach first).explained_demand hdocuments ho hex hties⟩

/-- Two aliases of each other. -/
def aliasCircle : List Request :=
  [.setStatements "a.ts" do return [← Build.importEquals "A" ∅ "B", ← Build.importEquals "B" ∅ "A"],
    .demand (.symbol 8)]

theorem not_explained_aliasCircle : ¬((ofOptions {}).after aliasCircle).Explained := by
  intro h
  have hexplained := h 8 (by decide +kernel)
  revert hexplained
  decide +kernel

/-- No name is missing in the circle, and no document goes, so it is the demand that leaves an alias
behind too many others. -/
theorem explained_along_run_iff_aliasCircle :
    (∀ request ∈ aliasCircle, request.editsOrResolves) ∧
      (∀ request ∈ aliasCircle, request.SetsTree) ∧
        ∃ first request, first ++ [request] <+: aliasCircle ∧
          (request.Strips ((ofOptions {}).after first) ∨ request.Ties ((ofOptions {}).after first)) := by
  have hkind : ∀ request ∈ aliasCircle, request.editsOrResolves := by decide +kernel
  have hordered : ∀ request ∈ aliasCircle, ∀ tree ∈ request.tree?, tree.Ordered := by
    decide +kernel
  have htrees : ∀ request ∈ aliasCircle, request.SetsTree := fun request hr tree ht =>
    (hordered request hr tree ht).isTree
  refine ⟨hkind, htrees, by_contra fun hno => not_explained_aliasCircle ?_⟩
  refine (explained_along_run_iff {} hkind htrees).mpr (fun first request hrun => ?_) _
    (List.prefix_refl _)
  exact not_or.mp fun hhushed => hno ⟨first, request, hrun, hhushed⟩

/-- Both aliases stand for the error symbol, and nothing is reported. -/
theorem not_explained_after : ¬∀ (options : Options) (requests : List Request),
    (∀ request ∈ requests, request.editsOrResolves) →
      ((ofOptions options).after requests).Explained := fun h =>
  not_explained_aliasCircle (h {} aliasCircle (by decide +kernel))

end Workspace

end NameBinding
