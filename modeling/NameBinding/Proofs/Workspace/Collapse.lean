import NameBinding.Proofs.Resolve.Collapse
import NameBinding.Proofs.Workspace.Explained
import NameBinding.Proofs.Workspace.Listed

/-! # Aliases are followed to the end

Main statement: in a run of edits and of demands that look at the kinds of what they mark, no alias
stands for another alias, and every alias is answered with the one symbol to which its edge goes, or
with the error symbol if it was resolved before its last declaration went. The answer stays until the
documents change. -/

namespace NameBinding

open SymbolGraph ResolveM

/-- The demand marks no symbol without a look at its kind. -/
def Demand.heedsKinds : Demand → Bool
  | .symbol _ | .alias _ | .aliasTarget _ | .arrayOf _ | .path .. | .typeNode .. => true
  | _ => false

theorem Demand.not_passes_of_heedsKinds {d : Demand} (h : d.heedsKinds) (x : SymbolId) :
    ¬d.Passes x := by
  cases d <;> simp_all [heedsKinds, Passes]

namespace Request

/-- The request is an edit, or a demand that looks at the kinds of what it marks. -/
def heedsKinds : Request → Bool
  | .demand d => d.heedsKinds
  | _ => true

/-- The request leaves the documents as they are. -/
def isQuery : Request → Bool
  | .demand _ | .takeDiagnostics => true
  | _ => false

end Request

namespace Workspace

variable {w w' : Workspace} {a t : SymbolId} {request : Request}

/-! ### Looking names up -/

theorem Reachable.searchable_of (h : w.Reachable) (hsingle : w.graph.OneTarget .typedAs)
    (hstraight : ∀ {a t}, w.graph.kind? a = some .alias → w.graph.hasEdge ⟨a, t, .typedAs⟩ →
      w.graph.IsPlain t) : Searchable w.setting w.graph := by
  obtain ⟨c, hc⟩ := h.exists_surveyed
  exact {
    toWellFormed := h.sound.graph.toWellFormed
    initial := fun hx => (hc.initial hx).1
    known := fun {x d} hd => by
      obtain ⟨decl, hdecl⟩ := Option.isSome_iff_exists.mp (h.sound.known hd)
      obtain ⟨u, hu, hfound⟩ := Option.bind_eq_some_iff.mp hdecl
      refine ⟨⟨decl, u.tree, u.path⟩, Option.bind_eq_some_iff.mpr ⟨u, hu, ?_⟩⟩
      rw [hfound]
      rfl
    global := h.declarations_ne_nil_of_global
    imports := hc.importEquals_of_declares
    single := hsingle
    straight := hstraight }

theorem Reachable.searchable_edit (h : w.Reachable) (hs : Searchable w.setting w.graph)
    (hedit : request.isEdit) : Searchable (request.apply w).setting (request.apply w).graph := by
  obtain ⟨c, hc⟩ := h.exists_surveyed
  obtain ⟨c', hl⟩ := hc.apply_edit h.sound hedit
  have hold : ∀ {e : Edge}, e.kind = .typedAs → (request.apply w).graph.hasEdge e →
      w.graph.hasEdge e ∧ SameEnds w.graph (request.apply w).graph e := fun hk he =>
    hl.kept he (.inl (by simp [hk, EdgeKind.isStructural, EdgeKind.isResolution]))
  refine (h.apply request).searchable_of (hs.single.mono fun hk he => (hold hk he).1) ?_
  intro a t ha he
  obtain ⟨he, hsame⟩ := hold rfl he
  obtain ⟨hsource, -, -⟩ := hsame a (.inl rfl)
  obtain ⟨htarget, -, hdeclared⟩ := hsame t (.inr rfl)
  refine (hs.straight (hsource ▸ ha) he).imp_right fun hplain => ⟨hdeclared hplain.1, ?_⟩
  rw [htarget]
  exact hplain.2

/-- Whatever is demanded, marked aliases keep what they stand for. -/
theorem Reachable.firm_demand (h : w.Reachable) (hs : Searchable w.setting w.graph) (d : Demand) :
    Firm w.setting d.Passes w.graph ((Request.demand d).apply w).graph ∧
      ((Request.demand d).apply w).setting = w.setting := by
  obtain ⟨r, hr, heq⟩ := exists_resolution_of_demand
    (P := fun r => Firm w.setting d.Passes w.graph r.graph) <|
    Contract.weaken (d.steady_run hs h.outset) (fun _ hr => hr ▸ .refl hs) (fun _ _ hr => hr.1)
      fun _ hr => hr
  rw [heq]
  exact ⟨hr, rfl⟩

/-- Whatever was requested, names can be looked up, by induction on the requests. -/
theorem Reachable.searchable (h : w.Reachable) : Searchable w.setting w.graph := by
  obtain ⟨options, requests, rfl⟩ := h
  induction requests using List.reverseRecOn with
  | nil =>
      refine (reachable_ofOptions options).searchable_of ?_ ?_
      · exact fun x y z hy => absurd hy (not_hasEdge_ofOptions options _)
      · exact fun _ he => absurd he (not_hasEdge_ofOptions options _)
  | append_singleton requests request ih =>
      have hreach : Reachable ((ofOptions options).after requests) := ⟨options, requests, rfl⟩
      rw [after_append]
      cases hedit : request.isEdit with
      | true => exact hreach.searchable_edit ih hedit
      | false =>
          cases request with
          | demand d =>
              obtain ⟨hfirm, hsetting⟩ := hreach.firm_demand ih d
              change Searchable ((Request.demand d).apply _).setting _
              rw [hsetting]
              exact hfirm.toSearchable
          | _ => exact absurd hedit (by simp [Request.isEdit])

/-- A demand in a workspace gives what it gives when resolving. -/
theorem exists_run_of_returns {d : Demand} {post : Option SymbolId → Resolution → Prop}
    (h : Resolution.Returns ⟨w.graph, w.diagnostics⟩ (d.run w.setting) post) :
    ∃ answer r, post answer r ∧ (Request.demand d).run w =
      .ok (.symbol answer) { w with graph := r.graph, diagnostics := r.diagnostics } := by
  obtain ⟨answer, r, hr, hpost⟩ := h
  exact ⟨answer, r, hpost, by rw [run_demand, hr]⟩

theorem apply_of_run {answer : Request.Answer} (h : request.run w = .ok answer w') :
    request.apply w = w' := by
  rw [Request.apply, h]

/-! ### Aliases that are resolved -/

/-- Each alias that is declared and marked has an edge to what it stands for. -/
def LinksAliases (w : Workspace) : Prop :=
  ∀ a, w.graph.kind? a = some .alias → w.graph.declarations a ≠ [] → w.graph.isResolved a →
    ∃ t, w.graph.hasEdge ⟨a, t, .typedAs⟩

theorem Reachable.linksAliases_edit (h : w.Reachable) (hl : w.LinksAliases)
    (hedit : request.isEdit) : (request.apply w).LinksAliases := by
  intro a ha hdecl hr
  obtain ⟨hdecl', hr', hkind, hedge⟩ := (h.recalls_apply hedit).resolved hdecl hr
  obtain ⟨t, he⟩ := hl a (hkind ▸ ha) hdecl' hr'
  exact ⟨t, hedge he rfl rfl⟩

theorem Reachable.linksAliases_demand (h : w.Reachable) (hl : w.LinksAliases) {d : Demand}
    (hd : d.heedsKinds) : ((Request.demand d).apply w).LinksAliases := by
  obtain ⟨hfirm, -⟩ := h.firm_demand h.searchable d
  intro a ha hdecl hr
  have ha' := hfirm.isAlias_iff.mp ha
  rw [hfirm.declarations_eq] at hdecl
  rcases hfirm.settled ha' hdecl (d.not_passes_of_heedsKinds hd a) hr with hr' | hex
  · obtain ⟨t, he⟩ := hl a ha' hdecl hr'
    exact ⟨t, (hfirm.kept ha' hr').mpr he⟩
  · exact hex

/-- By induction on the requests. -/
theorem linksAliases_after (options : Options) {requests : List Request}
    (h : ∀ request ∈ requests, request.heedsKinds) :
    ((ofOptions options).after requests).LinksAliases := by
  induction requests using List.reverseRecOn with
  | nil => exact fun _ _ _ hr => absurd hr (not_isResolved_ofOptions options _)
  | append_singleton requests request ih =>
      have hreach : Reachable ((ofOptions options).after requests) := ⟨options, requests, rfl⟩
      have hl := ih fun r hr => h r (List.mem_append_left _ hr)
      have hheeds := h request (List.mem_append_right _ (List.mem_singleton_self _))
      rw [after_append]
      cases hedit : request.isEdit with
      | true => exact hreach.linksAliases_edit hl hedit
      | false =>
          cases request with
          | demand d => exact hreach.linksAliases_demand hl hheeds
          | _ => exact absurd hedit (by simp [Request.isEdit])

/-! ### Answers that stay -/

/-- The alias is resolved and stands for the symbol. -/
structure Settled (w : Workspace) (a t : SymbolId) : Prop where
  kind : w.graph.kind? a = some .alias
  marked : w.graph.isResolved a
  eq_standsFor : t = w.graph.standsFor a

/-- By one query more. -/
theorem Reachable.settled_query (h : w.Reachable) (ha : w.Settled a t) (hq : request.isQuery) :
    (request.apply w).Settled a t := by
  cases request with
  | takeDiagnostics => exact ⟨ha.kind, ha.marked, ha.eq_standsFor⟩
  | demand d =>
      obtain ⟨hfirm, -⟩ := h.firm_demand h.searchable d
      refine ⟨hfirm.isAlias_iff.mpr ha.kind, hfirm.follows.isResolved ha.marked, ?_⟩
      rw [hfirm.standsFor_eq h.searchable ha.kind ha.marked]
      exact ha.eq_standsFor
  | _ => exact absurd hq (by simp [Request.isQuery])

theorem Reachable.settled_after (h : w.Reachable) (ha : w.Settled a t) {later : List Request}
    (hq : later.all Request.isQuery) : (w.after later).Settled a t := by
  induction later generalizing w with
  | nil => exact ha
  | cons request later ih =>
      rw [List.all_cons, Bool.and_eq_true] at hq
      exact ih (h.apply request) (h.settled_query ha hq.1) hq.2

/-- Both demands for a settled alias give what it stands for and change nothing. -/
theorem Reachable.run_of_settled (h : w.Reachable) (ha : w.Settled a t) {d : Demand}
    (hd : d = .alias a ∨ d = .aliasTarget a) :
    (Request.demand d).run w = .ok (.symbol (some t)) w := by
  have hs : Searchable w.setting (⟨w.graph, w.diagnostics⟩ : Resolution).graph := h.searchable
  have hlt := lt_size_of_kind? ha.kind
  have hsame : ∀ x r, Resolution.Reaches w.setting ⟨w.graph, w.diagnostics⟩ a x r →
      some x = some t ∧ r = ⟨w.graph, w.diagnostics⟩ := by
    intro x r hx
    have hr := hx.idle ha.marked
    subst hr
    exact ⟨congrArg some (hx.eq_standsFor.trans ha.eq_standsFor.symm), rfl⟩
  have hdone : Resolution.Returns ⟨w.graph, w.diagnostics⟩ (d.run w.setting) fun answer r =>
      answer = some t ∧ r = ⟨w.graph, w.diagnostics⟩ := by
    rcases hd with rfl | rfl
    · exact (returns_resolveAlias hs hlt).bind fun x r hx => .pure (hsame x r hx)
    · exact (returns_aliasTarget hs hlt).bind fun x r hx => .pure (hsame x r hx)
  obtain ⟨_, _, ⟨rfl, rfl⟩, hrun⟩ := exists_run_of_returns hdone
  exact hrun

/-- The demand for an alias is answered with the symbol, which is no alias, and so is every later one
until the documents change. -/
structure Answers (w : Workspace) (a t : SymbolId) (w' : Workspace) : Prop where
  run : (Request.demand (.alias a)).run w = .ok (.symbol (some t)) w'
  isSome : (w'.graph.kind? t).isSome
  straight : w'.graph.kind? t ≠ some .alias
  stable : ∀ later : List Request, later.all Request.isQuery →
    ∀ d, d = .alias a ∨ d = .aliasTarget a →
      (Request.demand d).run (w'.after later) = .ok (.symbol (some t)) (w'.after later)

/-- Every alias is answered. -/
theorem Reachable.exists_answers (h : w.Reachable) (ha : w.graph.kind? a = some .alias) :
    ∃ t w', w.Answers a t w' ∧ (w.graph.isResolved a → w' = w ∧ t = w.graph.standsFor a) ∧
      (¬w.graph.isResolved a → w'.graph.targets a .typedAs = [t]) := by
  have hresolve : Resolution.Returns ⟨w.graph, w.diagnostics⟩ ((Demand.alias a).run w.setting)
      fun answer r => ∃ t, answer = some t ∧
        Resolution.Reaches w.setting ⟨w.graph, w.diagnostics⟩ a t r :=
    (returns_resolveAlias h.searchable (lt_size_of_kind? ha)).bind fun t _ ht => .pure ⟨t, rfl, ht⟩
  obtain ⟨_, r, ⟨t, rfl, hreach⟩, hrun⟩ := exists_run_of_returns hresolve
  have hafter := h.apply (.demand (.alias a))
  rw [apply_of_run hrun] at hafter
  have hkind := hreach.advances.isAlias_iff.mpr ha
  have hplain : r.graph.IsPlain t := hreach.eq_standsFor ▸ hreach.advances.isPlain_standsFor hkind
  refine ⟨t, _, ⟨hrun, ?_, hreach.advances.kind?_ne_alias_of_isPlain hplain, ?_⟩, ?_, ?_⟩
  · rw [SymbolGraph.kind?, Option.isSome_map, isSome_get?]
    exact decide_eq_true (hreach.advances.lt_size_of_isPlain hplain)
  · intro later hlater d hd
    have hsettled := hafter.settled_after ⟨hkind, hreach.marked, hreach.eq_standsFor⟩ hlater
    obtain ⟨options, requests, heq⟩ := hafter
    exact Reachable.run_of_settled ⟨options, requests ++ later, by rw [after_append, ← heq]⟩
      hsettled hd
  · intro hmark
    have hsame := hreach.idle hmark
    subst hsame
    exact ⟨rfl, hreach.eq_standsFor⟩
  · intro hnew
    exact hreach.advances.single.targets_eq hreach.advances.toMirrored (hreach.edge hnew)

/-! ### Runs -/

/-- The alias lost its last declaration when it was resolved already. -/
def Orphaned (w : Workspace) (a : SymbolId) : Prop :=
  w.graph.declarations a = [] ∧ w.graph.isResolved a

/-- Aliases stand for no aliases. Each one is answered with the symbol to which its only edge goes, or
with the error symbol if it is orphaned. -/
structure FollowsAliases (w : Workspace) : Prop where
  straight : ∀ a t, w.graph.kind? a = some .alias → w.graph.hasEdge ⟨a, t, .typedAs⟩ →
    w.graph.kind? t ≠ some .alias
  answers : ∀ a, w.graph.kind? a = some .alias → ∃ t w', w.Answers a t w' ∧
    (w'.graph.targets a .typedAs = [t] ∨
      w.Orphaned a ∧ w' = w ∧ w.graph.targets a .typedAs = [] ∧ t = WellKnown.error)

/-- Circles of aliases, aliases of themselves, aliases in the dotted names of others and chains of any
length are followed to the end, whatever was requested before, as long as no demand marked a symbol
without a look at its kind. -/
theorem followsAliases_after (options : Options) (requests : List Request)
    (h : ∀ request ∈ requests, request.heedsKinds) :
    ((ofOptions options).after requests).FollowsAliases := by
  have hreach : ((ofOptions options).after requests).Reachable := ⟨options, requests, rfl⟩
  have hlinks := linksAliases_after options h
  generalize (ofOptions options).after requests = w at hreach hlinks ⊢
  have hs := hreach.searchable
  refine ⟨fun a t ha he => hs.kind?_ne_alias_of_isPlain (hs.straight ha he), fun a ha => ?_⟩
  obtain ⟨t, w', hanswers, hold, hnew⟩ := hreach.exists_answers ha
  refine ⟨t, w', hanswers, ?_⟩
  by_cases hr : w.graph.isResolved a
  · obtain ⟨rfl, ht⟩ := hold hr
    by_cases hex : ∃ y, w'.graph.hasEdge ⟨a, y, .typedAs⟩
    · obtain ⟨y, he⟩ := hex
      rw [standsFor_eq_of_hasEdge hs.toMirrored hs.single he] at ht
      exact .inl (hs.single.targets_eq hs.toMirrored (ht ▸ he))
    · have hnone : ∀ y, ¬w'.graph.hasEdge ⟨a, y, .typedAs⟩ := fun y he => hex ⟨y, he⟩
      have hdecl : w'.graph.declarations a = [] := by
        by_contra hdecl
        exact hex (hlinks a ha hdecl hr)
      rw [standsFor_eq_of_forall hs.toMirrored hnone] at ht
      exact .inr ⟨⟨hdecl, hr⟩, rfl, targets_eq_nil_of_forall hs.toMirrored hnone, ht⟩
  · exact .inl (hnew hr)

/-- An alias of itself, two in a circle, and a chain through a module to a variable, with demands for
some of them and an edit in between. -/
def aliasChains : List Request :=
  [.setStatements "one.ts" do
      let a ← Build.importEquals "A" ∅ "A"
      let b ← Build.importEquals "B" ∅ "C"
      let c ← Build.importEquals "C" ∅ "B"
      let d ← Build.importEquals "D" ∅ "E.v"
      let e ← Build.importEquals "E" ∅ "M"
      return [a, b, c, d, e],
    .demand (.symbol 9),
    .setStatements "two.ts" do
      let v ← Build.singleVariable "v" (Flags.single .exported) none none
      return [← Build.moduleDecl "M" ∅ [v]]]

theorem followsAliases_after_aliasChains : (∀ request ∈ aliasChains, request.heedsKinds) ∧
    ((ofOptions {}).after aliasChains).graph.kind? 11 = some .alias ∧
    ((ofOptions {}).after aliasChains).FollowsAliases :=
  ⟨by decide +kernel, by decide +kernel, followsAliases_after {} aliasChains (by decide +kernel)⟩

/-- An alias that is resolved when its document goes. -/
def orphanedImport : List Request :=
  [.setStatements "one.ts" do return [← Build.importEquals "A" ∅ "B"],
    .demand (.alias 8), .removeUnit "one.ts"]

/-- It is answered with the error symbol, and has no edge to it. -/
theorem not_targets_after_orphanedImport : (∀ request ∈ orphanedImport, request.heedsKinds) ∧
    ((ofOptions {}).after orphanedImport).graph.kind? 8 = some .alias ∧
    ∃ w', (Request.demand (.alias 8)).run ((ofOptions {}).after orphanedImport) =
        .ok (.symbol (some WellKnown.error)) w' ∧
      w'.graph.targets 8 .typedAs ≠ [WellKnown.error] := by
  have hsettled : ((ofOptions {}).after orphanedImport).Settled 8 WellKnown.error :=
    ⟨by decide +kernel, by decide +kernel, by decide +kernel⟩
  have hreach : ((ofOptions {}).after orphanedImport).Reachable := ⟨_, _, rfl⟩
  exact ⟨by decide +kernel, hsettled.kind, _, hreach.run_of_settled hsettled (.inl rfl),
    by decide +kernel⟩

end Workspace

end NameBinding
