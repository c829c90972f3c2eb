import NameBinding.Proofs.Resolve.Confined
import NameBinding.Proofs.Resolve.Log
import NameBinding.Proofs.Workspace.Adding
import NameBinding.Proofs.Workspace.Order

/-! # What stays in the log

Every request adds its reports to the log, and takes out what it retracts. Both can be read off the
workspace without the log.

Main statement: a report is in the log after a run exactly if a request of the run made it and no
later one retracted it. Compared with a fresh workspace over the same documents, the log is right
about what lies too deep, and can be wrong about everything else. -/

namespace NameBinding

/-! ### Documents that are too deep -/

/-- What collecting a document reports. -/
def CompilationUnit.depthReports (limit : Nat) (document : String × DocTree × NodeRef) :
    List Diagnostic :=
  ((CompilationUnit.ofTree 0 document.1 document.2.1 document.2.2).collect limit).diagnostics

/-- Two units of one document while their declarations are collected. Both have the same reports. -/
structure Collection.SameReports (file : String) (t : DocTree) (c c' : Collection) : Prop where
  path : c.unit.path = file ∧ c'.unit.path = file
  tree : c.unit.tree = t ∧ c'.unit.tree = t
  root : c.unit.root = c'.unit.root
  truncated : c.truncated = c'.truncated
  diagnostics : c.unit.diagnostics = c'.unit.diagnostics
  deep : ∀ d ∈ c.unit.diagnostics, d.file = file ∧ d.code = Message.nestedTooDeeply
  once : c.unit.diagnostics.length ≤ if c.truncated then 1 else 0

namespace CompilationUnit

@[simp] theorem diagnostics_addDecl (u : CompilationUnit) (d : Decl) :
    (u.addDecl d).diagnostics = u.diagnostics := by
  unfold addDecl modifyDecl
  dsimp only
  split
  · split <;> rfl
  · rfl

end CompilationUnit

theorem Collect.closed_sameReports (file : String) (t : DocTree) :
    Closed t (Collection.SameReports file t) fun _ _ => True where
  tree hc := hc.tree
  path hc := hc.path.1.trans hc.path.2.symm
  root hc := hc.root
  next _ := True.intro
  declare {scopes scopes'} node name kind flags _ _ := by
    intro c c' hc
    refine ⟨⟨?_, ?_, ?_, hc.truncated, ?_, ?_, ?_⟩, True.intro⟩
    · exact ⟨(CompilationUnit.path_addDecl _ _).trans hc.path.1,
        (CompilationUnit.path_addDecl _ _).trans hc.path.2⟩
    · exact ⟨(CompilationUnit.tree_addDecl _ _).trans hc.tree.1,
        (CompilationUnit.tree_addDecl _ _).trans hc.tree.2⟩
    · exact (CompilationUnit.root_addDecl _ _).trans
        (hc.root.trans (CompilationUnit.root_addDecl _ _).symm)
    · exact (CompilationUnit.diagnostics_addDecl _ _).trans
        (hc.diagnostics.trans (CompilationUnit.diagnostics_addDecl _ _).symm)
    · intro d hd
      exact hc.deep d ((CompilationUnit.diagnostics_addDecl _ _) ▸ hd)
    · exact (congrArg List.length (CompilationUnit.diagnostics_addDecl _ _)).trans_le hc.once
  leaveOut limit node := by
    intro c c' hc
    refine ⟨?_, True.intro⟩
    change Collection.SameReports file t (if c.truncated then c else _)
      (if c'.truncated then c' else _)
    rw [← hc.truncated]
    split
    · exact hc
    · next hopen =>
      have hnone : c.unit.diagnostics.length = 0 := Nat.le_zero.mp (by simpa [hopen] using hc.once)
      refine ⟨hc.path, hc.tree, hc.root, rfl, ?_, ?_, by simp [hnone]⟩
      · dsimp only
        rw [hc.diagnostics, hc.path.1, hc.path.2, hc.tree.1, hc.tree.2]
      · intro d hd
        rcases List.mem_append.mp hd with hd | hd
        · exact hc.deep d hd
        · obtain rfl := List.mem_singleton.mp hd
          exact ⟨hc.path.1, rfl⟩

namespace CompilationUnit

theorem sameReports_collect (limit : Nat) (id id' : UnitId) (path : String) (tree : DocTree)
    (root : NodeRef) : Collection.SameReports path tree
      ((Collect.visitRoot limit).run { unit := ofTree id path tree root }).2
      ((Collect.visitRoot limit).run { unit := ofTree id' path tree root }).2 :=
  ((Collect.closed_sameReports path tree).visitRoot limit { unit := ofTree id path tree root }
    { unit := ofTree id' path tree root }
    ⟨⟨rfl, rfl⟩, ⟨rfl, rfl⟩, rfl, rfl, rfl, fun _ hd => absurd hd List.not_mem_nil,
      Nat.le_refl 0⟩).1

/-- The number of the unit does not matter. -/
theorem diagnostics_collect (limit : Nat) (id : UnitId) (path : String) (tree : DocTree)
    (root : NodeRef) : ((ofTree id path tree root).collect limit).diagnostics =
      depthReports limit (path, tree, root) :=
  (sameReports_collect limit id 0 path tree root).diagnostics

theorem of_mem_depthReports {limit : Nat} {document : String × DocTree × NodeRef} {d : Diagnostic}
    (h : d ∈ depthReports limit document) :
    d.file = document.1 ∧ d.code = Message.nestedTooDeeply :=
  (sameReports_collect limit 0 0 document.1 document.2.1 document.2.2).deep d h

theorem nodup_depthReports (limit : Nat) (document : String × DocTree × NodeRef) :
    (depthReports limit document).Nodup := by
  have honce := (sameReports_collect limit 0 0 document.1 document.2.1 document.2.2).once
  have hlength : (depthReports limit document).length ≤ 1 := honce.trans (by split <;> decide)
  generalize depthReports limit document = ds at hlength
  match ds with
  | [] => exact List.nodup_nil
  | [_] => simp
  | _ :: _ :: _ => simp at hlength

end CompilationUnit

namespace Request

/-- What a request adds to an empty log. -/
def reports (request : Request) (w : Workspace) : List Diagnostic :=
  (request.apply { w with diagnostics := [] }).diagnostics

/-- After a document came, names that were not found are looked up again if anything still stands for
the error symbol. -/
def retriesMisses (request : Request) (w : Workspace) : Bool :=
  request.succeeds w && !((request.apply w).graph.dependents WellKnown.error).isEmpty

/-- The request sets or removes a document, or resolves a symbol. -/
def editsOrResolves : Request → Bool
  | setUnit .. | removeUnit _ | demand (.symbol _) => true
  | _ => false

/-- A request takes a report out of the log. -/
def Retracts (request : Request) (w : Workspace) (d : Diagnostic) : Prop :=
  match request with
  | setUnit path .. => d.file = path ∨ (request.retriesMisses w ∧ Workspace.isLookupMiss d)
  | removeUnit path => d.file = path
  | reset | takeDiagnostics => True
  | demand _ => False

end Request

namespace Workspace

variable {w : Workspace} {request : Request} {d : Diagnostic} {path : String} {tree : DocTree}
  {root : NodeRef}

/-- All reports are about documents that are there. -/
def NamesPresent (w : Workspace) : Prop := ∀ d ∈ w.diagnostics, d.file ∈ w.program.paths

/-! ### Documents that come and go -/

theorem diagnostics_detachPath (h : w.NamesPresent) (path : String) :
    (w.detachPath path).diagnostics = w.diagnostics.filter (·.file != path) := by
  unfold detachPath
  cases hu : w.program.unit? path with
  | none =>
      refine (List.filter_eq_self.mpr fun d hd => ?_).symm
      obtain ⟨u, hm, hfile⟩ := List.mem_map.mp (h d hd)
      have hne : u.path ≠ path := by simpa using List.find?_eq_none.mp hu u hm
      simpa [← hfile] using hne
  | some u =>
      obtain rfl : u.path = path := by simpa using List.find?_some hu
      rfl

theorem dependents_afterBinding (w : Workspace) (unit : UnitId) (x : SymbolId) :
    (w.afterBinding unit).graph.dependents x = w.graph.dependents x := by
  rw [SymbolGraph.dependents, SymbolGraph.dependents, afterBinding,
    SymbolGraph.incoming_invalidateAll]

theorem diagnostics_apply_setUnit (h : w.NamesPresent) (path : String) (tree : DocTree)
    (root : NodeRef) : ((Request.setUnit path tree root).apply w).diagnostics =
      (w.diagnostics.filter (·.file != path) ++
        CompilationUnit.depthReports w.options.maxCollectDepth (path, tree, root)).filter fun d =>
          !((Request.setUnit path tree root).retriesMisses w && isLookupMiss d) := by
  have hoptions : (w.detachPath path).options = w.options := by
    unfold detachPath
    cases w.program.unit? path <;> rfl
  have hbound : ∀ b, ((w.detachPath path).bound path tree root b).diagnostics =
      w.diagnostics.filter (·.file != path) ++
        CompilationUnit.depthReports w.options.maxCollectDepth (path, tree, root) := by
    intro b
    rw [← diagnostics_detachPath h, ← CompilationUnit.diagnostics_collect _
      (w.detachPath path).program.nextUnit, ← hoptions]
    rfl
  unfold Request.retriesMisses Request.succeeds Request.apply
  rw [run_setUnit]
  cases w.bindingOf path tree root with
  | error e b => simp [hbound]
  | ok a b =>
      dsimp only
      rw [dependents_afterBinding, afterBinding]
      dsimp only
      rw [hbound]
      split
      · next hnone => simp [hnone]
      · next hsome => simp [hsome]

theorem not_isLookupMiss_of_mem_depthReports {limit : Nat} {document : String × DocTree × NodeRef}
    (h : d ∈ CompilationUnit.depthReports limit document) : isLookupMiss d = false := by
  rw [isLookupMiss, (CompilationUnit.of_mem_depthReports h).2]
  decide

/-- Setting a document reports what lies too deep in it. -/
theorem mem_reports_setUnit : d ∈ (Request.setUnit path tree root).reports w ↔
    d ∈ CompilationUnit.depthReports w.options.maxCollectDepth (path, tree, root) := by
  have hempty : NamesPresent { w with diagnostics := [] } := fun _ hd => absurd hd List.not_mem_nil
  rw [Request.reports, diagnostics_apply_setUnit hempty, List.filter_nil, List.nil_append,
    List.mem_filter]
  refine ⟨fun h => h.1, fun h => ⟨h, ?_⟩⟩
  rw [not_isLookupMiss_of_mem_depthReports h, Bool.and_false, Bool.not_false]

theorem reports_removeUnit (w : Workspace) (path : String) :
    (Request.removeUnit path).reports w = [] := by
  have hempty : NamesPresent { w with diagnostics := [] } := fun _ hd => absurd hd List.not_mem_nil
  rw [Request.reports, apply_removeUnit, diagnostics_detachPath hempty, List.filter_nil]

/-! ### Demands -/

/-- A demand adds reports that do not depend on the log. -/
theorem exists_reports_of_demand (w : Workspace) (demand : Demand) : ∃ g new, ∀ log,
    (Request.demand demand).apply { w with diagnostics := log } =
      { w with graph := g, diagnostics := withReports log new } := by
  have hrun : ∃ g new, ∀ log, Contract (· = (⟨w.graph, log⟩ : Resolution)) (demand.run w.setting)
      (fun _ r => r = ⟨g, withReports log new⟩) fun r => r = ⟨g, withReports log new⟩ := by
    rcases ResolveM.ignoresLog_run demand w.setting w.graph with ⟨a, g, new, h⟩ | ⟨e, g, new, h⟩
    · refine ⟨g, new, fun log => ?_⟩
      rintro _ rfl
      rw [h log]
    · refine ⟨g, new, fun log => ?_⟩
      rintro _ rfl
      rw [h log]
  obtain ⟨g, new, hrun⟩ := hrun
  refine ⟨g, new, fun log => ?_⟩
  obtain ⟨r, rfl, heq⟩ := exists_resolution_of_demand (w := { w with diagnostics := log }) (hrun log)
  exact heq

/-- What a demand reports is about documents that are there, and not about what lies too deep. -/
theorem of_mem_reports_demand (hw : w.Reachable) {demand : Demand}
    (h : d ∈ (Request.demand demand).reports w) :
    d.file ∈ w.program.paths ∧ d.code ≠ Message.nestedTooDeeply := by
  have hconfines : w.setting.Confines (fun _ => True)
      fun file code => file ∈ w.program.paths ∧ code ≠ Message.nestedTooDeeply :=
    ⟨fun _ => True.intro, fun _ => True.intro, fun hu _ hcode => ⟨List.mem_map_of_mem hu, hcode⟩⟩
  have hconfined : (⟨w.graph, []⟩ : Resolution).Confined (fun _ => True) (fun _ => False)
      fun file code => file ∈ w.program.paths ∧ code ≠ Message.nestedTooDeeply :=
    ⟨⟨hw.sound.graph.toWellFormed, fun _ => ⟨.inl True.intro, .inl True.intro, fun _ => True.intro,
      fun _ => True.intro⟩, fun _ => True.intro, fun _ => True.intro⟩,
      fun _ hd => absurd hd List.not_mem_nil⟩
  obtain ⟨r, hr, heq⟩ := exists_resolution_of_demand (w := { w with diagnostics := [] }) <|
    (demand.confined_run hconfines fun _ _ => .inl True.intro).weaken
      (fun r hr => ⟨congrArg Resolution.graph hr, hr ▸ hconfined⟩) (fun _ _ hr => hr)
      fun _ hr => hr
  rw [Request.reports, heq] at h
  exact hr.report d h

/-! ### Any request -/

/-- After a request the log has its reports, and those from before that it does not retract. -/
theorem mem_diagnostics_apply_iff (h : w.NamesPresent) (request : Request) (d : Diagnostic) :
    d ∈ (request.apply w).diagnostics ↔
      d ∈ request.reports w ∨ (d ∈ w.diagnostics ∧ ¬request.Retracts w d) := by
  cases request with
  | setUnit path tree root =>
      rw [mem_reports_setUnit, diagnostics_apply_setUnit h, List.mem_filter, List.mem_append,
        List.mem_filter, Request.Retracts]
      have hkept : d ∈ CompilationUnit.depthReports w.options.maxCollectDepth (path, tree, root) →
          isLookupMiss d = false := not_isLookupMiss_of_mem_depthReports
      grind
  | removeUnit path =>
      rw [reports_removeUnit, apply_removeUnit, diagnostics_detachPath h, List.mem_filter]
      simp [Request.Retracts]
  | reset =>
      have hlog : ∀ w : Workspace, (Request.reset.apply w).diagnostics = [] := fun _ => rfl
      simp [Request.reports, Request.Retracts, hlog]
  | takeDiagnostics =>
      have hlog : ∀ w : Workspace, (Request.takeDiagnostics.apply w).diagnostics = [] := fun _ => rfl
      simp [Request.reports, Request.Retracts, hlog]
  | demand demand =>
      obtain ⟨g, new, happly⟩ := exists_reports_of_demand w demand
      have hlog := congrArg Workspace.diagnostics (happly w.diagnostics)
      have hempty := congrArg Workspace.diagnostics (happly [])
      change ((Request.demand demand).apply w).diagnostics = _ at hlog
      rw [hlog, Request.reports, hempty, mem_withReports, mem_withReports]
      simp [Request.Retracts, or_comm]

theorem mem_paths_apply (hw : w.Reachable) (request : Request) {file : String} :
    file ∈ (request.apply w).program.paths ↔
      ∃ document ∈ request.documents w.program.documents, document.1 = file := by
  rw [Program.paths_eq, (documents_apply hw request).1, List.mem_map]

/-- The documents of a request are those from before but the ones at its path, and its own. -/
theorem NamesPresent.apply (h : w.NamesPresent) (hw : w.Reachable) (request : Request) :
    (request.apply w).NamesPresent := by
  intro d hd
  rw [mem_paths_apply hw]
  have hold : d ∈ w.diagnostics → ∃ document ∈ w.program.documents, document.1 = d.file := by
    intro hd
    rw [← List.mem_map, ← Program.paths_eq]
    exact h d hd
  rcases (mem_diagnostics_apply_iff h request d).mp hd with hnew | ⟨hkept, hstays⟩
  · cases request with
    | setUnit path tree root =>
        have hfile := (CompilationUnit.of_mem_depthReports (mem_reports_setUnit.mp hnew)).1
        exact ⟨_, List.mem_append_right _ (List.mem_singleton_self _), hfile.symm⟩
    | removeUnit path => simp [reports_removeUnit] at hnew
    | reset => exact absurd hnew List.not_mem_nil
    | takeDiagnostics => exact absurd hnew List.not_mem_nil
    | demand demand =>
        have hfile := (of_mem_reports_demand hw hnew).1
        rwa [Program.paths_eq, List.mem_map] at hfile
  · obtain ⟨document, hmem, hfile⟩ := hold hkept
    cases request with
    | setUnit path tree root =>
        have hne : d.file ≠ path := fun heq => hstays (.inl heq)
        refine ⟨document, List.mem_append_left _ (List.mem_filter.mpr ⟨hmem, ?_⟩), hfile⟩
        simpa [hfile] using hne
    | removeUnit path =>
        have hne : d.file ≠ path := hstays
        refine ⟨document, List.mem_filter.mpr ⟨hmem, ?_⟩, hfile⟩
        simpa [hfile] using hne
    | reset => exact absurd True.intro hstays
    | takeDiagnostics => exact absurd True.intro hstays
    | demand demand => exact ⟨document, hmem, hfile⟩

/-! ### Runs -/

/-- By induction on the requests. -/
theorem Reachable.namesPresent (hw : w.Reachable) : w.NamesPresent := by
  obtain ⟨options, requests, rfl⟩ := hw
  induction requests using List.reverseRecOn with
  | nil => exact fun _ hd => absurd hd List.not_mem_nil
  | append_singleton requests request ih =>
      rw [after_append]
      exact ih.apply ⟨options, requests, rfl⟩ request

/-- No problem is reported twice, by induction on the requests. -/
theorem Reachable.nodup_diagnostics (hw : w.Reachable) : w.diagnostics.Nodup := by
  obtain ⟨options, requests, rfl⟩ := hw
  induction requests using List.reverseRecOn with
  | nil => exact List.nodup_nil
  | append_singleton requests request ih =>
      have hw : Reachable ((ofOptions options).after requests) := ⟨options, requests, rfl⟩
      rw [after_append]
      generalize (ofOptions options).after requests = w at ih hw
      change (request.apply w).diagnostics.Nodup
      cases request with
      | setUnit path tree root =>
          rw [diagnostics_apply_setUnit hw.namesPresent]
          refine List.Nodup.filter _ (List.nodup_append.mpr ⟨ih.filter _,
            CompilationUnit.nodup_depthReports _ _, fun d hd d' hd' heq => ?_⟩)
          have hother : d.file ≠ path := by simpa using (List.mem_filter.mp hd).2
          exact hother (heq ▸ (CompilationUnit.of_mem_depthReports hd').1)
      | removeUnit path =>
          rw [apply_removeUnit, diagnostics_detachPath hw.namesPresent]
          exact ih.filter _
      | reset => exact List.nodup_nil
      | takeDiagnostics => exact List.nodup_nil
      | demand demand =>
          obtain ⟨g, new, happly⟩ := exists_reports_of_demand w demand
          have hlog := congrArg Workspace.diagnostics (happly w.diagnostics)
          change ((Request.demand demand).apply w).diagnostics = _ at hlog
          rw [hlog]
          exact nodup_withReports ih

/-- A request of the run made the report, and no later one retracted it. -/
def Stands (w : Workspace) (requests : List Request) (d : Diagnostic) : Prop :=
  ∃ first request rest, requests = first ++ request :: rest ∧
    d ∈ request.reports (w.after first) ∧
    ∀ between later others, rest = between ++ later :: others →
      ¬later.Retracts (w.after (first ++ request :: between)) d

/-- What stands after one request more. -/
theorem stands_append_iff {requests : List Request} :
    w.Stands (requests ++ [request]) d ↔
      d ∈ request.reports (w.after requests) ∨
        (w.Stands requests d ∧ ¬request.Retracts (w.after requests) d) := by
  constructor
  · rintro ⟨first, made, rest, hsplit, hmade, hstays⟩
    rcases List.eq_nil_or_concat rest with rfl | ⟨rest, last, rfl⟩
    · obtain ⟨rfl, hlast⟩ := List.append_inj' hsplit rfl
      obtain rfl : request = made := by simpa using hlast
      exact .inl hmade
    · have hsplit' : requests ++ [request] = (first ++ made :: rest) ++ [last] := by
        simpa using hsplit
      obtain ⟨rfl, hlast⟩ := List.append_inj' hsplit' rfl
      obtain rfl : request = last := by simpa using hlast
      refine .inr ⟨⟨first, made, rest, rfl, hmade, fun between later others heq => ?_⟩, ?_⟩
      · exact hstays between later (others ++ [request]) (by simp [heq])
      · exact hstays rest request [] (by simp)
  · rintro (hmade | ⟨⟨first, made, rest, rfl, hmade, hstays⟩, hlast⟩)
    · refine ⟨requests, request, [], rfl, hmade, fun between later others heq => ?_⟩
      exact absurd heq (by simp)
    · refine ⟨first, made, rest ++ [request], by simp, hmade, fun between later others heq => ?_⟩
      rcases List.eq_nil_or_concat others with rfl | ⟨others, last, rfl⟩
      · obtain ⟨rfl, hlater⟩ := List.append_inj' heq rfl
        obtain rfl : request = later := by simpa using hlater
        exact hlast
      · have heq' : rest ++ [request] = (between ++ later :: others) ++ [last] := by simpa using heq
        exact hstays between later others (List.append_inj' heq' rfl).1

/-- The log after a run, by induction on its requests. -/
theorem mem_diagnostics_after_iff (options : Options) (requests : List Request) :
    d ∈ ((ofOptions options).after requests).diagnostics ↔
      (ofOptions options).Stands requests d := by
  induction requests using List.reverseRecOn with
  | nil =>
      refine iff_of_false List.not_mem_nil ?_
      rintro ⟨first, request, rest, hsplit, -⟩
      exact absurd hsplit (by simp)
  | append_singleton requests request ih =>
      have hw : Reachable ((ofOptions options).after requests) := ⟨options, requests, rfl⟩
      rw [stands_append_iff, ← ih, after_append]
      exact mem_diagnostics_apply_iff hw.namesPresent request d

/-! ### What lies too deep -/

/-- What lies too deep in the documents. -/
def depthReports (w : Workspace) : List Diagnostic :=
  w.program.documents.flatMap (CompilationUnit.depthReports w.options.maxCollectDepth)

/-- The log is right about what lies too deep. -/
def LogsDepth (w : Workspace) : Prop :=
  ∀ d, d.code = Message.nestedTooDeeply → (d ∈ w.diagnostics ↔ d ∈ w.depthReports)

theorem mem_depthReports_filter {limit : Nat} {documents : List (String × DocTree × NodeRef)} :
    d ∈ (documents.filter (·.1 != path)).flatMap (CompilationUnit.depthReports limit) ↔
      d ∈ documents.flatMap (CompilationUnit.depthReports limit) ∧ d.file ≠ path := by
  simp only [List.mem_flatMap, List.mem_filter, bne_iff_ne]
  constructor
  · rintro ⟨document, ⟨hmem, hne⟩, hd⟩
    exact ⟨⟨document, hmem, hd⟩, (CompilationUnit.of_mem_depthReports hd).1 ▸ hne⟩
  · rintro ⟨⟨document, hmem, hd⟩, hne⟩
    exact ⟨document, ⟨hmem, (CompilationUnit.of_mem_depthReports hd).1 ▸ hne⟩, hd⟩

theorem LogsDepth.apply (h : w.LogsDepth) (hw : w.Reachable) {request : Request}
    (hkeep : request ≠ .takeDiagnostics) : (request.apply w).LogsDepth := by
  intro d hd
  have hmiss : isLookupMiss d = false := by
    rw [isLookupMiss, hd]
    decide
  obtain ⟨hdocuments, hoptions⟩ := documents_apply hw request
  rw [mem_diagnostics_apply_iff hw.namesPresent, h d hd, depthReports, depthReports, hdocuments,
    hoptions]
  cases request with
  | setUnit path tree root =>
      rw [Request.documents, List.flatMap_append, List.mem_append, mem_depthReports_filter,
        mem_reports_setUnit, Request.Retracts, hmiss]
      simp [or_comm]
  | removeUnit path =>
      rw [Request.documents, mem_depthReports_filter, reports_removeUnit, Request.Retracts]
      simp
  | reset =>
      have hnone : Request.reset.reports w = [] := rfl
      simp [hnone, Request.documents, Request.Retracts]
  | takeDiagnostics => exact absurd rfl hkeep
  | demand demand =>
      rw [Request.documents]
      simp only [Request.Retracts, not_false_eq_true, and_true, or_iff_right_iff_imp]
      exact fun hnew => absurd hd (of_mem_reports_demand hw hnew).2

/-- By induction on the requests. -/
theorem logsDepth_after (options : Options) {requests : List Request}
    (hkeep : ∀ request ∈ requests, request ≠ .takeDiagnostics) :
    ((ofOptions options).after requests).LogsDepth := by
  induction requests using List.reverseRecOn with
  | nil => exact fun d _ => iff_of_false List.not_mem_nil List.not_mem_nil
  | append_singleton requests request ih =>
      rw [after_append]
      exact (ih fun r hr => hkeep r (by simp [hr])).apply ⟨options, requests, rfl⟩
        (hkeep request (by simp))

/-! ### Compared with a fresh workspace -/

/-- The documents and options that a fresh workspace starts with stay while symbols are resolved. -/
theorem depthReports_resolvedIn_rebuilt (hw : w.Reachable) (order : List SymbolId) :
    (w.rebuilt.resolvedIn order).depthReports = w.depthReports := by
  obtain ⟨-, -, -, hoptions, hdocuments⟩ :=
    exists_bare_of_edits w.options (isEdit_requestsFor w.program.documents)
  rw [hw.sound.documents_rebuilt] at hdocuments
  rw [resolvedIn_eq]
  change w.rebuilt.depthReports = w.depthReports
  have hdocuments' : w.rebuilt.program.documents = w.program.documents := hdocuments
  have hoptions' : w.rebuilt.options = w.options := hoptions
  rw [depthReports, depthReports, hdocuments', hoptions']

/-- After a run that takes no reports, the log names only documents that are there, and it says of
what lies too deep what a fresh workspace over the same documents says. It is the log of the fresh
workspace exactly if, for all other problems, the reports that were made and not retracted are those
of the fresh workspace. -/
theorem diagnostics_after_eq_rebuilt_iff (options : Options) {requests : List Request}
    (hkeep : ∀ request ∈ requests, request ≠ .takeDiagnostics) (order : List SymbolId) :
    let w := (ofOptions options).after requests
    let fresh := w.rebuilt.resolvedIn order
    (∀ d ∈ w.diagnostics, d.file ∈ w.program.paths) ∧
      (∀ d, d.code = Message.nestedTooDeeply → (d ∈ w.diagnostics ↔ d ∈ fresh.diagnostics)) ∧
      ((∀ d, d ∈ w.diagnostics ↔ d ∈ fresh.diagnostics) ↔
        ∀ d, d.code ≠ Message.nestedTooDeeply →
          ((ofOptions options).Stands requests d ↔ d ∈ fresh.diagnostics)) := by
  intro w fresh
  have hw : w.Reachable := ⟨options, requests, rfl⟩
  have hfresh : fresh.LogsDepth := by
    have hrun : fresh = (ofOptions w.options).after
        (requestsFor w.program.documents ++ order.map fun x => .demand (.symbol x)) :=
      (after_append _ _ _).symm
    rw [hrun]
    refine logsDepth_after w.options fun request hr => ?_
    rcases List.mem_append.mp hr with hr | hr
    · obtain ⟨document, -, rfl⟩ := List.mem_map.mp hr
      simp
    · obtain ⟨x, -, rfl⟩ := List.mem_map.mp hr
      simp
  have hdepth : ∀ d, d.code = Message.nestedTooDeeply →
      (d ∈ w.diagnostics ↔ d ∈ fresh.diagnostics) := by
    intro d hd
    have hleft : d ∈ w.diagnostics ↔ d ∈ w.depthReports := logsDepth_after options hkeep d hd
    rw [hleft, hfresh d hd, depthReports_resolvedIn_rebuilt hw]
  refine ⟨hw.namesPresent, hdepth, fun hsame d _ => ?_, fun hsame d => ?_⟩
  · rw [← mem_diagnostics_after_iff]
    exact hsame d
  · by_cases hd : d.code = Message.nestedTooDeeply
    · exact hdepth d hd
    · exact (mem_diagnostics_after_iff options requests).trans (hsame d hd)

/-- Two documents have an implementation of one function each. The second one is reported, and then
the first one goes. -/
def twoBodies : List Request :=
  [.setStatements "a.ts" do return [← Build.function "f" ∅ [] none (some [])],
    .setStatements "b.ts" do return [← Build.function "f" ∅ [] none (some [])],
    .demand (.symbol 8), .removeUnit "a.ts"]

/-- The report on the second document stands, and a fresh workspace does not make it. -/
theorem diagnostics_after_eq_rebuilt_iff_twoBodies :
    (∀ request ∈ twoBodies, request ≠ .takeDiagnostics) ∧
    let w := (ofOptions {}).after twoBodies
    let fresh := w.rebuilt.resolvedIn [8, 9]
    w.diagnostics.map (·.file) = ["b.ts"] ∧ fresh.diagnostics = [] ∧
      (∀ d ∈ w.diagnostics, d.file ∈ w.program.paths) ∧
      (∀ d, d.code = Message.nestedTooDeeply → (d ∈ w.diagnostics ↔ d ∈ fresh.diagnostics)) ∧
      ((∀ d, d ∈ w.diagnostics ↔ d ∈ fresh.diagnostics) ↔
        ∀ d, d.code ≠ Message.nestedTooDeeply →
          ((ofOptions {}).Stands twoBodies d ↔ d ∈ fresh.diagnostics)) := by
  have hkeep : ∀ request ∈ twoBodies, request ≠ .takeDiagnostics := by decide +kernel
  exact ⟨hkeep, by decide +kernel, by decide +kernel,
    diagnostics_after_eq_rebuilt_iff {} hkeep [8, 9]⟩

/-- The symbols with declarations. -/
def declared (w : Workspace) : List SymbolId :=
  w.graph.ids.filter fun x => !(w.graph.declarations x).isEmpty

/-- There are no bases and no aliases. -/
theorem stratified_rebuilt_twoBodies : ((ofOptions {}).after twoBodies).rebuilt.Stratified := by
  have hnone : ∀ a < 10, ((ofOptions {}).after twoBodies).rebuilt.graph.kind? a ≠ some .alias := by
    decide +kernel
  exact .of_forall_lt ((sound_ofOptions _).after _) (n := 10) (by decide +kernel) (fun x => x)
    (fun _ => 0) (by decide +kernel) fun a ha hk => absurd hk (hnone a ha)

/-- The report on the second document is still there when all is resolved again. -/
theorem not_diagnostics_after_eq_rebuilt :
    ¬∀ (options : Options) (requests : List Request),
      requests.all Request.editsOrResolves →
      let w := (ofOptions options).after requests
      w.rebuilt.Stratified →
      ∀ d, d ∈ (w.resolvedIn w.declared).diagnostics ↔
        d ∈ (w.rebuilt.resolvedIn w.rebuilt.declared).diagnostics := by
  intro h
  have hsame := h {} twoBodies (by decide +kernel) stratified_rebuilt_twoBodies
  have hnone : (((ofOptions {}).after twoBodies).rebuilt.resolvedIn
      ((ofOptions {}).after twoBodies).rebuilt.declared).diagnostics = [] := by decide +kernel
  rw [hnone] at hsame
  have hlog := List.eq_nil_iff_forall_not_mem.mpr fun d hd => List.not_mem_nil ((hsame d).mp hd)
  exact absurd hlog (by decide +kernel)

end Workspace

end NameBinding
