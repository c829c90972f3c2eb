import NameBinding.Proofs.Resolve.Confined
import NameBinding.Proofs.Resolve.Runs
import NameBinding.Proofs.Workspace.Listed
import NameBinding.Proofs.Workspace.Validity

/-! # Symbols that lost their declarations

Such a symbol keeps its number, so a demand can still be about it. Main statement: validation finds
nothing in any state of a run exactly when no demand of the run is to type such a symbol, or to make
an array type over it. Edits never bring one back into the graph. -/

namespace NameBinding

open SymbolGraph

namespace SymbolGraph

/-- The symbol needs a declaration and has none. -/
def IsDead (g : SymbolGraph) (x : SymbolId) : Prop :=
  x < g.size ∧ g.IsDeclarable x ∧ g.declarations x = []

/-- No dead symbol has edges. -/
def LeavesDead (g : SymbolGraph) : Prop :=
  ∀ e : Edge, g.hasEdge e → ¬g.IsDead e.source ∧ ¬g.IsDead e.target

variable {g g' : SymbolGraph} {x y : SymbolId}

theorem isDead_congr (h : g'.label? x = g.label? x) : g'.IsDead x ↔ g.IsDead x := by
  rw [IsDead, IsDead, lt_size_congr h, isDeclarable_congr h, declarations_congr h]

theorem not_isDead_of_declarations (h : g.declarations x ≠ []) : ¬g.IsDead x :=
  fun hx => h hx.2.2

/-- What is made while types are resolved needs no declaration. -/
theorem Resolves.isDead_iff {setting : Setting} {g₀ : SymbolGraph} (h : g₀.Resolves setting g) :
    g.IsDead x ↔ g₀.IsDead x := by
  by_cases hx : x < g₀.size
  · exact isDead_congr (h.label? hx)
  · refine iff_of_false (fun hdead => hdead.2.1.1 ?_) fun hdead => hx hdead.1
    exact h.has_synthesized (Nat.not_lt.mp hx) hdead.1

theorem LeavesDead.targets_eq_nil (h : g.LeavesDead) (hg : g.Mirrored) (hx : g.IsDead x)
    (kind : EdgeKind) : g.targets x kind = [] :=
  List.eq_nil_iff_forall_not_mem.mpr fun _ hy => (h _ (hg.mem_targets_iff.mp hy)).1 hx

theorem LeavesDead.sources_eq_nil (h : g.LeavesDead) (hg : g.Mirrored) (hx : g.IsDead x)
    (kind : EdgeKind) : g.sources x kind = [] :=
  List.eq_nil_iff_forall_not_mem.mpr fun _ hy => (h _ (hg.mem_sources_iff.mp hy)).2 hx

/-- A symbol without edges has no violation for its edges, and the other way round. -/
theorem Sound.leavesDead_iff (hg : g.Sound) : g.LeavesDead ↔
    ∀ x s, g.get? x = some s → orphanViolations x s = [] := by
  have hdead : ∀ {x s}, g.get? x = some s →
      (g.IsDead x ↔ !s.isDeclared ∧ s.needsDeclaration) := by
    intro x s hs
    have hlt : x < g.size := by
      have := isSome_get? g x
      rw [hs] at this
      simpa using this.symm
    simp [IsDead, hlt, IsDeclarable, has, SymbolGraph.declarations, hs, Symbol.isDeclared,
      Symbol.needsDeclaration, and_comm]
  constructor
  · intro h x s hs
    refine if_neg ?_
    simp only [Bool.and_eq_true]
    rintro ⟨⟨hnone, hlinked⟩, hneeds⟩
    have hx : g.IsDead x := (hdead hs).mpr ⟨hnone, hneeds⟩
    have hout : g.outgoing x = [] := List.eq_nil_iff_forall_not_mem.mpr fun e he => by
      obtain ⟨rfl, hedge⟩ := hg.mem_outgoing_iff.mp he
      exact (h _ hedge).1 hx
    have hin : g.incoming x = [] := List.eq_nil_iff_forall_not_mem.mpr fun e he => by
      obtain ⟨rfl, hedge⟩ := hg.mem_incoming_iff.mp he
      exact (h _ hedge).2 hx
    simp only [outgoing, incoming, hs, Option.map_some, Option.getD_some] at hout hin
    simp [Symbol.isLinked, hout, hin] at hlinked
  · intro h e he
    have hno : ∀ x, x = e.source ∨ x = e.target → ¬g.IsDead x := by
      intro x hend hx
      obtain ⟨s, hs⟩ := Option.isSome_iff_exists.mp ((isSome_get? g x).trans (decide_eq_true hx.1))
      obtain ⟨hnone, hneeds⟩ := (hdead hs).mp hx
      have hlinked : s.isLinked := by
        have hout := hg.mem_outgoing_iff.mpr (And.intro rfl he)
        have hin := hg.mem_incoming_iff.mpr (And.intro rfl he)
        rcases hend with rfl | rfl
        · simp only [outgoing, hs, Option.map_some, Option.getD_some] at hout
          simp [Symbol.isLinked, List.ne_nil_of_mem hout]
        · simp only [incoming, hs, Option.map_some, Option.getD_some] at hin
          simp [Symbol.isLinked, List.ne_nil_of_mem hin]
      have hnil := h x s hs
      rw [orphanViolations, if_pos (by simp only [hnone, hlinked, hneeds, Bool.and_self])] at hnil
      exact absurd hnil (by simp)
    exact ⟨hno _ (.inl rfl), hno _ (.inr rfl)⟩

end SymbolGraph

/-- The demand is to type a dead symbol, or to make an array type over one. -/
def Demand.Wakes (g : SymbolGraph) (d : Demand) : Prop := ∃ x ∈ d.subject? g, g.IsDead x

/-- The request demands that of a graph. -/
def Request.Wakes (g : SymbolGraph) : Request → Prop
  | .demand d => d.Wakes g
  | _ => False

namespace Workspace

variable {c c' : Chart} {w w' : Workspace}

/-- Validation finds nothing exactly when no dead symbol has edges. -/
theorem Sound.violations_eq_nil_iff (h : w.Sound) : w.violations = [] ↔ w.graph.LeavesDead := by
  rw [h.graph.leavesDead_iff, violations]
  have hunits : w.program.units.flatMap w.unitViolations = [] :=
    List.flatMap_eq_nil_iff.mpr fun u hu => h.unitViolations_eq_nil hu
  rw [hunits, List.append_nil, List.flatMap_eq_nil_iff]
  have hsymbol : ∀ {x s}, w.graph.get? x = some s →
      w.symbolViolations x = orphanViolations x s := by
    intro x s hs
    simp only [symbolViolations, hs]
    rw [h.graph.outgoingViolations_eq_nil hs, h.graph.incomingViolations_eq_nil hs,
      h.graph.classViolations_eq_nil hs, h.graph.arrayViolations_eq_nil hs,
      h.declarationViolations_eq_nil hs]
    simp
  constructor
  · intro hall x s hs
    rw [← hsymbol hs]
    refine hall x (List.mem_range.mpr ?_)
    have hlt := isSome_get? w.graph x
    rw [hs] at hlt
    simpa using hlt.symm
  · intro hall x _
    cases hs : w.graph.get? x with
    | none => simp [symbolViolations, hs]
    | some s => rw [hsymbol hs, hall x s hs]

/-! ### Edits -/

/-- Edges that declarations make stand between declared symbols. -/
theorem Surveyed.declared_of_not_derives (h : Surveyed c w) {e : Edge} (he : w.graph.hasEdge e)
    (hmade : ¬Derives w.graph e) :
    w.graph.declarations e.source ≠ [] ∧ w.graph.declarations e.target ≠ [] := by
  rw [Derives, not_or, not_or, not_not] at hmade
  rcases h.anchored he hmade.1 with hjoins | ⟨hsyn, -⟩
  · obtain ⟨hs, ht⟩ := hjoins.placed
    obtain ⟨q, hq⟩ := Option.isSome_iff_exists.mp hs
    obtain ⟨q', hq'⟩ := Option.isSome_iff_exists.mp ht
    exact ⟨h.declarations_ne_nil hq, h.declarations_ne_nil hq'⟩
  · exact absurd hsyn hmade.2.1

/-- All edges that declarations do not make were there before, between symbols that stay as they
are. -/
theorem Leads.leavesDead {documents : List (String × DocTree × NodeRef)}
    (hl : Leads c w documents c' w') (hw : w.graph.WellFormed) (h : w.graph.LeavesDead) :
    w'.graph.LeavesDead := by
  intro e he
  by_cases hderives : Derives w'.graph e
  · obtain ⟨hold, hsame⟩ := hl.kept he hderives
    obtain ⟨hslt, htlt⟩ := hw.lt_size hold
    have hlive : ∀ x, x = e.source ∨ x = e.target → x < w.graph.size → ¬w.graph.IsDead x →
        ¬w'.graph.IsDead x := by
      rintro x hx hlt hno ⟨-, hdeclarable, hnone⟩
      obtain ⟨-, hflags, hdecl⟩ := hsame x hx
      refine hno ⟨hlt, ?_, by_contra fun hne => hdecl hne hnone⟩
      rwa [IsDeclarable, hflags, hflags] at hdeclarable
    exact ⟨hlive _ (.inl rfl) hslt (h e hold).1, hlive _ (.inr rfl) htlt (h e hold).2⟩
  · exact (hl.surveyed.declared_of_not_derives he hderives).imp not_isDead_of_declarations
      not_isDead_of_declarations

/-! ### Demands -/

/-- What resolving starts from was there from the start or is declared. -/
theorem Reachable.confines_of (hw : w.Reachable) {P : SymbolId → Prop}
    (hknown : ∀ {x}, w.graph.has x .wellKnown → P x)
    (hdeclared : ∀ {x}, w.graph.declarations x ≠ [] → P x) :
    w.setting.Confines P fun _ _ => True where
  wellKnown {x} hx := by
    obtain ⟨c, hc⟩ := hw.exists_surveyed
    refine hknown ?_
    rw [has_congr (hc.initial hx).1]
    exact has_wellKnown_graph hx
  global hx := hdeclared (hw.declarations_ne_nil_of_global hx)
  report _ _ _ := True.intro

/-- What resolving starts from is alive. -/
theorem Reachable.confines (hw : w.Reachable) :
    w.setting.Confines (fun x => ¬w.graph.IsDead x) fun _ _ => True :=
  hw.confines_of (fun hknown hdead => hdead.2.1.2 hknown) not_isDead_of_declarations

/-- Where resolving stays, a demand stays. -/
theorem confined_apply_demand {P A : SymbolId → Prop}
    (hc : w.setting.Confines P fun _ _ => True) (hg : w.graph.Confined P A) {d : Demand}
    (hd : ∀ x ∈ d.subject? w.graph, P x ∨ A x) :
    ((Request.demand d).apply w).graph.Confined P A := by
  obtain ⟨r, hr, heq⟩ := exists_resolution_of_demand (w := w)
    (P := Resolution.Confined P A fun _ _ => True) <| (d.confined_run hc hd).weaken
      (fun r hr => ⟨congrArg Resolution.graph hr, hr ▸ ⟨hg, fun _ _ => True.intro⟩⟩)
      (fun _ _ hr => hr) fun _ hr => hr
  rw [heq]
  exact hr.graph

theorem leavesDead_apply_demand (hw : w.Reachable) (h : w.graph.LeavesDead) {d : Demand}
    (hd : ¬d.Wakes w.graph) : ((Request.demand d).apply w).graph.LeavesDead := by
  have hwf := hw.sound.graph.toWellFormed
  have hconfined : w.graph.Confined (fun x => ¬w.graph.IsDead x) fun _ => False :=
    ⟨hwf, fun he => ⟨.inl (h _ he).1, .inl (h _ he).2, fun _ => (h _ he).2, fun _ => (h _ he).1⟩,
      not_isDead_of_declarations, fun hx hdead => Nat.not_lt.mpr hx hdead.1⟩
  have hafter := confined_apply_demand hw.confines hconfined
    fun x hx => .inl fun hdead => hd ⟨x, hx, hdead⟩
  obtain ⟨g, diagnostics, hg, heq⟩ := exists_apply_demand hwf d
  rw [heq] at hafter ⊢
  intro e he
  rw [hg.isDead_iff, hg.isDead_iff]
  exact ⟨(hafter.edge he).source.resolve_right id, (hafter.edge he).target.resolve_right id⟩

/-! ### Demands that wake -/

section Wakes

open ResolveM

variable {s : Scene} {x : SymbolId} {setting : Setting}

/-- A symbol without declarations gets the type of what has no annotation. -/
theorem exists_runs_resolveValue (hx : x < s.graph.size) (hopen : ¬s.graph.isResolved x)
    (hnone : s.graph.declarations x = []) (htargets : s.graph.targets x .typedAs = [])
    (hany : WellKnown.any < s.graph.size) :
    ∃ s', s.Runs (resolveValue setting x) () s' ∧ s'.graph.hasEdge ⟨x, WellKnown.any, .typedAs⟩ := by
  have hs : x < (s.mark x).graph.size := by simpa using hx
  have ht : WellKnown.any < (s.mark x).graph.size := by simpa using hany
  have hsingle : (s.mark x).Runs (setSingle x WellKnown.any .typedAs) ()
      ((s.mark x).setGraph ((s.mark x).graph.addEdge ⟨x, WellKnown.any, .typedAs⟩)) :=
    .setSingle hs ht (by rw [Scene.graph_mark, targets_setResolved, htargets])
  refine ⟨(s.mark x).setGraph ((s.mark x).graph.addEdge ⟨x, WellKnown.any, .typedAs⟩), ?_,
    (hasEdge_addEdge hs ht).mpr (.inr (.inl rfl))⟩
  unfold resolveValue
  refine (Scene.Runs.begin hx hopen).bind ?_
  rw [if_pos rfl]
  refine (Scene.Runs.declarations hs).bind ?_
  rw [Scene.graph_mark, declarations_setResolved, hnone]
  exact (Scene.Runs.pure _ none).bind hsingle

/-- An alias without declarations stands for the error symbol. -/
theorem exists_runs_resolveAlias (hx : x < s.graph.size) (hopen : ¬s.graph.isResolved x)
    (hnone : s.graph.declarations x = []) (htargets : s.graph.targets x .typedAs = [])
    (herror : WellKnown.error < s.graph.size) :
    ∃ a s', s.Runs (resolveAlias setting x) a s' ∧
      s'.graph.hasEdge ⟨x, WellKnown.error, .typedAs⟩ := by
  have hs : x < (s.mark x).graph.size := by simpa using hx
  have ht : WellKnown.error < (s.mark x).graph.size := by simpa using herror
  have hsingle : (s.mark x).Runs (setSingle x WellKnown.error .typedAs) ()
      ((s.mark x).setGraph ((s.mark x).graph.addEdge ⟨x, WellKnown.error, .typedAs⟩)) :=
    .setSingle hs ht (by rw [Scene.graph_mark, targets_setResolved, htargets])
  have hsite : (s.mark x).Runs (declaredTarget setting (resolveAliasWithin setting 127) x)
      WellKnown.error (s.mark x) := by
    unfold declaredTarget firstSite
    refine Scene.Runs.bind (a := none) ?_ (Scene.Runs.pure _ _)
    refine (Scene.Runs.declarations hs).bind ?_
    rw [Scene.graph_mark, declarations_setResolved, hnone]
    exact Scene.Runs.pure _ none
  refine ⟨WellKnown.error,
    (s.mark x).setGraph ((s.mark x).graph.addEdge ⟨x, WellKnown.error, .typedAs⟩), ?_,
    (hasEdge_addEdge hs ht).mpr (.inr (.inl rfl))⟩
  change s.Runs (resolveAliasWithin setting (127 + 1) x) _ _
  rw [resolveAliasWithin]
  refine (Scene.Runs.begin hx hopen).bind ?_
  rw [if_pos rfl]
  exact hsite.bind (hsingle.bind (Scene.Runs.pure _ _))

/-- An element type that has no array type gets one. -/
theorem exists_runs_arrayOf (hx : x < s.graph.size) (hnone : s.graph.sources x .arrayOf = []) :
    ∃ a s', s.Runs (arrayOf x) a s' ∧ s'.graph.hasEdge ⟨a, x, .arrayOf⟩ := by
  have hs := lt_size_alloc s.graph (s.graph.name x ++ "[]") .array (Flags.single .synthesized)
  have ht := Nat.lt_trans hx hs
  refine ⟨s.graph.size, (s.makeArray x).mark s.graph.size, .graph_bind ?_, ?_⟩
  · rw [arrayTypes, hnone]
    exact (Scene.Runs.alloc s (.array (s.origin x)) _ _ _).bind
      (.bind (.link hs ht) ((Scene.Runs.markResolved _ _).bind (.pure _ _)))
  · rw [Scene.graph_mark, hasEdge_setResolved]
    exact (hasEdge_addEdge hs ht).mpr (.inr (.inl rfl))

/-- A demand that wakes a dead symbol gives it an edge. -/
theorem exists_runs_of_wakes (h : s.graph.LeavesDead) (hg : s.graph.Mirrored)
    (hcount : WellKnown.count ≤ s.graph.size) {d : Demand} (hd : d.Wakes s.graph)
    (setting : Setting) : ∃ a s' e, s.Runs (d.run setting) a s' ∧ s'.graph.hasEdge e ∧
      (s.graph.IsDead e.source ∨ s.graph.IsDead e.target) := by
  obtain ⟨x, hx, hdead⟩ := hd
  have htargets := h.targets_eq_nil hg hdead .typedAs
  have hany : WellKnown.any < s.graph.size := Nat.lt_of_lt_of_le (by decide) hcount
  have herror : WellKnown.error < s.graph.size := Nat.lt_of_lt_of_le (by decide) hcount
  have hvalue : ¬s.graph.isResolved x → ∃ s' e, s.Runs (resolveValue setting x) () s' ∧
      s'.graph.hasEdge e ∧ (s.graph.IsDead e.source ∨ s.graph.IsDead e.target) := by
    intro hopen
    obtain ⟨s', hrun, he⟩ := exists_runs_resolveValue hdead.1 hopen hdead.2.2 htargets hany
    exact ⟨s', _, hrun, he, .inl hdead⟩
  have halias : ¬s.graph.isResolved x → ∃ a s' e, s.Runs (resolveAlias setting x) a s' ∧
      s'.graph.hasEdge e ∧ (s.graph.IsDead e.source ∨ s.graph.IsDead e.target) := by
    intro hopen
    obtain ⟨a, s', hrun, he⟩ := exists_runs_resolveAlias hdead.1 hopen hdead.2.2 htargets herror
    exact ⟨a, s', _, hrun, he, .inl hdead⟩
  cases d with
  | symbol id =>
      obtain ⟨rfl, hopen, hkind⟩ := Demand.subject?_symbol_eq_some hx
      have hrun : ∃ s' e, s.Runs (resolveSymbol setting id) () s' ∧ s'.graph.hasEdge e ∧
          (s.graph.IsDead e.source ∨ s.graph.IsDead e.target) := by
        rcases hkind with hk | hk
        · obtain ⟨s', e, hrun, he, hend⟩ := hvalue hopen
          refine ⟨s', e, .graph_bind ?_, he, hend⟩
          rcases hk with hk | hk | hk <;> rwa [hk]
        · obtain ⟨a, s', e, hrun, he, hend⟩ := halias hopen
          refine ⟨s', e, .graph_bind ?_, he, hend⟩
          rw [hk]
          exact hrun.bind (.pure _ _)
      obtain ⟨s', e, hrun, he, hend⟩ := hrun
      exact ⟨_, s', e, hrun.bind (.pure _ _), he, hend⟩
  | value id =>
      obtain ⟨rfl, hopen⟩ := Demand.subject_eq_some hx
      obtain ⟨s', e, hrun, he, hend⟩ := hvalue hopen
      exact ⟨_, s', e, hrun.bind (.pure _ _), he, hend⟩
  | «alias» id =>
      obtain ⟨rfl, hopen⟩ := Demand.subject_eq_some hx
      obtain ⟨a, s', e, hrun, he, hend⟩ := halias hopen
      refine ⟨some a, s', e, ?_, he, hend⟩
      rw [Demand.run, map_eq_pure_bind]
      exact hrun.bind (.pure _ _)
  | aliasTarget id =>
      obtain ⟨rfl, hopen⟩ := Demand.subject_eq_some hx
      obtain ⟨a, s', e, hrun, he, hend⟩ := halias hopen
      refine ⟨some a, s', e, ?_, he, hend⟩
      rw [Demand.run, map_eq_pure_bind]
      refine Scene.Runs.bind ?_ (.pure _ _)
      unfold aliasTarget settle
      refine .graph_bind ?_
      rwa [if_neg hopen]
  | arrayOf element =>
      obtain rfl : element = x := Option.some.inj hx
      obtain ⟨a, s', hrun, he⟩ := exists_runs_arrayOf hdead.1 (h.sources_eq_nil hg hdead .arrayOf)
      refine ⟨some a, s', _, ?_, he, .inr hdead⟩
      rw [Demand.run, map_eq_pure_bind]
      exact hrun.bind (.pure _ _)
  | _ => exact absurd hx (by simp [Demand.subject?])

end Wakes

/-- A demand leaves dead symbols alone exactly when it wakes none. -/
theorem leavesDead_apply_demand_iff (hw : w.Reachable) (h : w.graph.LeavesDead) (d : Demand) :
    ((Request.demand d).apply w).graph.LeavesDead ↔ ¬d.Wakes w.graph := by
  refine ⟨fun hafter hd => ?_, leavesDead_apply_demand hw h⟩
  have hwf := hw.sound.graph.toWellFormed
  obtain ⟨c, hc⟩ := hw.exists_surveyed
  have hwoken := exists_runs_of_wakes (s := ⟨⟨w.graph, w.diagnostics⟩, .given⟩) h hwf.toMirrored
    hc.count_le hd
  obtain ⟨a, s', e, hrun, he, hdead⟩ := hwoken w.setting
  have hcontract : Contract (· = ⟨w.graph, w.diagnostics⟩) (d.run w.setting)
      (fun _ r => r = s'.resolution) fun r => r = s'.resolution := by
    rintro _ rfl
    rw [hrun]
  have hfrom : Resolution.From w.setting w.graph s'.resolution := by
    have hkeeps : Keeps (Resolution.From w.setting w.graph) (d.run w.setting) := d.keeps_run hwf
    have hkept := hkeeps ⟨w.graph, w.diagnostics⟩ (.refl _ _)
    rw [hrun] at hkept
    exact hkept.1
  obtain ⟨_, rfl, heq⟩ := exists_resolution_of_demand hcontract
  rw [heq] at hafter
  have hlive := hafter e he
  rw [hfrom.isDead_iff, hfrom.isDead_iff] at hlive
  exact hdead.elim hlive.1 hlive.2

/-- A request leaves dead symbols alone exactly when it wakes none. -/
theorem leavesDead_apply_iff (hw : w.Reachable) (h : w.graph.LeavesDead) (request : Request) :
    (request.apply w).graph.LeavesDead ↔ ¬request.Wakes w.graph := by
  cases hedit : request.isEdit with
  | true =>
      obtain ⟨c, hc⟩ := hw.exists_surveyed
      obtain ⟨c', hl⟩ := hc.apply_edit hw.sound hedit
      refine iff_of_true (hl.leavesDead hw.sound.graph.toWellFormed h) fun hwakes => ?_
      cases request with
      | demand d => exact absurd hedit (by simp [Request.isEdit])
      | _ => exact hwakes
  | false =>
      cases request with
      | demand d => exact leavesDead_apply_demand_iff hw h d
      | _ => exact absurd hedit (by simp [Request.isEdit])

/-! ### Runs -/

theorem leavesDead_ofOptions (options : Options) : (ofOptions options).graph.LeavesDead :=
  fun _ he => absurd he (not_hasEdge_ofOptions options _)

/-- In all states of a run validation finds nothing exactly when no request of the run wakes a dead
symbol, by induction on the states. So of all that can be requested about a symbol whose declarations
are gone, only typing it for the first time or making an array type over it goes wrong. -/
theorem violations_along_run_eq_nil_iff (options : Options) (requests : List Request) :
    (∀ first, first <+: requests → ((ofOptions options).after first).violations = []) ↔
      ∀ first request, first ++ [request] <+: requests →
        ¬request.Wakes ((ofOptions options).after first).graph := by
  have hreach : ∀ first, Reachable ((ofOptions options).after first) :=
    fun first => ⟨options, first, rfl⟩
  have hclean : ∀ first, ((ofOptions options).after first).violations = [] ↔
      ((ofOptions options).after first).graph.LeavesDead :=
    fun first => (hreach first).sound.violations_eq_nil_iff
  simp only [hclean]
  constructor
  · intro hall first request hrun
    have hbefore : ((ofOptions options).after first).graph.LeavesDead :=
      hall first ((List.prefix_append first [request]).trans hrun)
    have hafter : ((ofOptions options).after (first ++ [request])).graph.LeavesDead :=
      hall (first ++ [request]) hrun
    rw [after_append] at hafter
    exact (leavesDead_apply_iff (hreach first) hbefore request).mp hafter
  · intro hall first hrun
    induction first using List.reverseRecOn with
    | nil => exact leavesDead_ofOptions options
    | append_singleton first request ih =>
        have hbefore : ((ofOptions options).after first).graph.LeavesDead :=
          ih ((List.prefix_append first [request]).trans hrun)
        rw [after_append]
        exact (leavesDead_apply_iff (hreach first) hbefore request).mpr (hall first request hrun)

/-- A class that is asked for after its document is gone leaves nothing behind. -/
example : ((ofOptions {}).after [.setStatements "a.ts" do return [← Build.classDecl "C" ∅ [] [] []],
    .removeUnit "a.ts", .demand (.symbol 8), .demand (.symbol 9)]).violations = [] := by
  decide +kernel

/-- A variable that is asked for after its document is gone comes back with a type. -/
theorem not_violations_after_eq_nil : ¬∀ (options : Options) (requests : List Request),
    ((ofOptions options).after requests).violations = [] := by
  intro h
  have hv := h {} [.setStatements "a.ts" do return [← Build.singleVariable "v" ∅ none none],
    .removeUnit "a.ts", .demand (.symbol 8)]
  revert hv
  decide +kernel

end Workspace

end NameBinding
