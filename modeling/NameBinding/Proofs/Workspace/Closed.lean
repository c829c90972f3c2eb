import NameBinding.Proofs.Resolve.Built
import NameBinding.Proofs.Workspace.Arrays
import NameBinding.Proofs.Workspace.Dead
import NameBinding.Proofs.Workspace.Ends
import NameBinding.Proofs.Workspace.Renaming
import NameBinding.Proofs.Workspace.Stale

/-! # What snapshots leave out

A snapshot lists what something declares, what points at something, and what was there from the start.
An edge from a declaration leads to a declared symbol. Resolving points at declared symbols and at the
types that it makes, and no step takes away what these are built over and leaves them behind.

Main statement: after requests that come to an end, every edge of the snapshot leads to one of its
symbols, unless it leads to a type literal without members, or is that of an array type which was asked
for over a symbol that is not listed. -/

namespace NameBinding

open SymbolGraph

/-- The symbols are in the order of their positions, and every edge leads to one of them and is
described by its kind and its name, up to some edges that lead to none and are described by `?`. -/
structure Snapshot.ClosedBut (hidden : EdgeView → Prop) (s : Snapshot) : Prop where
  ascending : (s.symbols.map (·.id)).Pairwise (· < ·)
  listed : ∀ v ∈ s.symbols, ∀ e ∈ v.edges, ¬hidden e → ∃ t ∈ s.symbols, t.id = e.target ∧
    t.name = e.targetName ∧
      s.edgeLine e = Enumerated.name e.kind ++ "->" ++ Enumerated.name t.kind ++ ":" ++ t.name
  unlisted : ∀ v ∈ s.symbols, ∀ e ∈ v.edges, hidden e → (∀ t ∈ s.symbols, t.id ≠ e.target) ∧
    s.edgeLine e = Enumerated.name e.kind ++ "->" ++ "?" ++ ":" ++ e.targetName

namespace SymbolGraph

variable {g g' : SymbolGraph} {x : SymbolId}

/-- The symbol is declared, was there from the start, or was made for a type. Then it is built over
something, unless it is a type literal. -/
def IsWhole (g : SymbolGraph) (x : SymbolId) : Prop :=
  g.declarations x ≠ [] ∨ g.has x .wellKnown ∨
    (g.isSynthesized x ∧ (g.kind? x = some .typeLiteral ∨ g.IsBuilt x))

/-- Only array types lead to symbols that are not whole. -/
def PointsWhole (g : SymbolGraph) : Prop :=
  ∀ e : Edge, g.hasEdge e → e.kind ≠ .arrayOf → g.IsWhole e.target

theorem IsWhole.mono (h : g.IsWhole x) (hkind : g'.kind? x = g.kind? x)
    (hhas : ∀ f, g'.has x f = g.has x f)
    (hdeclared : g.declarations x ≠ [] → g'.declarations x ≠ [])
    (hbuilt : g.isSynthesized x → g.kind? x ≠ some .typeLiteral → g.IsBuilt x → g'.IsBuilt x) :
    g'.IsWhole x := by
  rw [IsWhole, isSynthesized_iff, hkind, hhas, hhas, ← isSynthesized_iff]
  refine h.imp hdeclared (Or.imp_right fun hx => ⟨hx.1, ?_⟩)
  exact (em _).imp_right fun hk => hbuilt hx.1 hk (hx.2.resolve_left hk)

/-- The labels stay, and so does what things are built over. -/
theorem IsWhole.of_label? (h : g.IsWhole x) (hlabel : g'.label? x = g.label? x)
    (hbuilt : g.kind? x ≠ some .typeLiteral → g.IsBuilt x → g'.IsBuilt x) : g'.IsWhole x :=
  h.mono (kind?_congr hlabel) (has_congr hlabel) (by rw [declarations_congr hlabel]; exact id)
    fun _ => hbuilt

/-- What an edge of a kind leaves out of the snapshot: a type literal without members, and what an array
type was made over though nothing declares it, it points at nothing and it was not there from the
start. -/
inductive Hides (g : SymbolGraph) (kind : EdgeKind) (target : SymbolId) : Prop
  | literal (hmade : g.isSynthesized target) (hk : g.kind? target = some .typeLiteral)
      (hempty : g.outgoing target = [])
  | element (hk : kind = .arrayOf) (hundeclared : g.declarations target = [])
      (hempty : g.outgoing target = []) (hnew : ¬g.has target .wellKnown)

end SymbolGraph

namespace Workspace

variable {c c' : Chart} {w w' : Workspace} {d : Demand} {x : SymbolId}

/-! ### Demands -/

/-- By what is left behind. -/
theorem pointsWhole_of_failure {g' : SymbolGraph} {e : BindError} (hg : w.graph.WellFormed)
    (h : w.graph.PointsWhole) (hf : d.failure? w.setting w.graph = some (e, g')) :
    g'.PointsWhole := by
  obtain ⟨-, ⟨-, rfl⟩ | ⟨id, -, -, -, rfl⟩ | ⟨element, -, -, -, rfl⟩⟩ := Demand.failure?_cases hf
  · exact h
  · intro e he hk
    rw [hasEdge_setResolved] at he
    exact (h _ he hk).of_label? (label?_setResolved _ id true _) fun _ hb =>
      hb.mono fun _ _ he => by rwa [hasEdge_setResolved]
  · intro e he hk
    have he : w.graph.hasEdge e := by simpa [hasEdge] using he
    refine (h _ he hk).of_label? ?_ fun _ hb => hb.mono fun _ _ he => by simpa [hasEdge] using he
    rw [label?_alloc, if_neg (Nat.ne_of_lt (hg.lt_size he).2)]

/-- What has to be built over something still is after a demand that is met. -/
theorem builds_apply_demand {must : SymbolId → Prop} {opened : List SymbolId}
    (h : w.graph.Builds must opened) (hmet : (Request.demand d).error? w = none) :
    ((Request.demand d).apply w).graph.Builds must opened := by
  have hcloses := d.closes w.setting must opened ⟨w.graph, w.diagnostics⟩ h
  rw [Request.error?, run_demand] at hmet
  rw [Request.apply, run_demand]
  cases hrun : d.run w.setting ⟨w.graph, w.diagnostics⟩ with
  | ok answer r =>
      rw [hrun] at hcloses
      exact hcloses
  | error e r => simp [hrun] at hmet

/-- An array type is whole, as it is built over its element type. -/
theorem Reachable.confined_whole (hw : w.Reachable) (h : w.graph.PointsWhole) :
    w.graph.Confined (fun x => w.graph.size ≤ x ∨ w.graph.IsWhole x) fun _ => True := by
  have harray : ∀ {e : Edge}, w.graph.hasEdge e → e.kind = .arrayOf → w.graph.IsWhole e.source := by
    rintro ⟨a, x, _⟩ he rfl
    exact .inr (.inr ⟨isSynthesized_iff.mpr (hw.elemental.made ⟨x, he⟩), .inr ⟨_, he, rfl, rfl⟩⟩)
  exact ⟨hw.sound.graph.toWellFormed, fun he => ⟨.inr True.intro, .inr True.intro,
    fun hk => .inr (h _ he hk), fun hk => .inr (harray he hk)⟩, fun hx => .inr (.inl hx), .inl⟩

/-- What is pointed at after a demand was whole before, or is new and closed. -/
theorem pointsWhole_of_met (hw : w.Reachable) (h : w.graph.PointsWhole)
    (hmet : (Request.demand d).error? w = none) :
    ((Request.demand d).apply w).graph.PointsWhole := by
  have hwf := hw.sound.graph.toWellFormed
  have hbuilds : w.graph.Builds (fun x => w.graph.size ≤ x ∨ w.graph.IsBuilt x) [] :=
    ⟨hwf, fun hx hmust _ _ => hmust.resolve_left (Nat.not_le.mpr hx)⟩
  have hbuilt := builds_apply_demand hbuilds hmet
  have hconfined : ((Request.demand d).apply w).graph.Confined _ _ :=
    confined_apply_demand (hw.confines_of (fun hx => .inr (.inr (.inl hx))) fun hx => .inr (.inl hx))
      (hw.confined_whole h) fun _ _ => .inr True.intro
  obtain ⟨g, diagnostics, hg, heq⟩ := exists_apply_demand hwf d
  rw [heq] at hconfined hbuilt ⊢
  intro e he hk
  have hlt := (hbuilt.lt_size he).2
  rcases Nat.lt_or_ge e.target w.graph.size with hold | hnew
  · have hlabel := hg.label? hold
    have hwhole := ((hconfined.edge he).pointed hk).resolve_left (Nat.not_le.mpr hold)
    refine hwhole.of_label? hlabel fun hliteral hx => ?_
    exact hbuilt.built hlt (.inr hx) (kind?_congr hlabel ▸ hliteral) List.not_mem_nil
  · refine .inr (.inr ⟨isSynthesized_iff.mpr ⟨hg.has_synthesized hnew hlt,
      hg.not_has_wellKnown hnew⟩, ?_⟩)
    exact (em _).imp_right fun hliteral => hbuilt.built hlt (.inl hnew) hliteral List.not_mem_nil

/-- A demand that comes to an end keeps the graph whole. -/
theorem pointsWhole_apply_demand (hw : w.Reachable) (h : w.graph.PointsWhole)
    (hends : ∀ e ∈ (Request.demand d).error? w, ¬e.isEndless) :
    ((Request.demand d).apply w).graph.PointsWhole := by
  cases herror : (Request.demand d).error? w with
  | none => exact pointsWhole_of_met hw h herror
  | some e =>
      obtain ⟨g', hf⟩ := hw.exists_failure herror (hends e herror)
      rw [(hw.error?_of_failure hf).2]
      exact pointsWhole_of_failure hw.sound.graph.toWellFormed h hf

/-! ### Edits -/

/-- What a symbol made for a type is built over dies with neither of them. -/
theorem pointsWhole_detachPath (hs : w.Sound) (h : w.graph.PointsWhole) (path : String) :
    (w.detachPath path).graph.PointsWhole := by
  unfold Workspace.detachPath
  cases w.program.unit? path with
  | none => exact h
  | some u =>
      intro e he hk
      obtain ⟨hold, -, htarget⟩ := (hasEdge_detach hs u e).mp he
      have hlabel := label?_detach w u e.target
      refine (h _ hold hk).mono ?_ (fun f => ?_) (declarations_detach_ne_nil hs htarget) ?_
      · rw [kind?_congr hlabel, kind?_forgetUnit]
      · rw [has_congr hlabel, has_forgetUnit]
      · rintro hmade - hbuilt
        refine hbuilt.mono fun {f} hsource hsupports hf => (hasEdge_detach hs u f).mpr
          ⟨hf, hsource ▸ htarget, not_mem_dyingWith_of_foundation hs htarget hmade ?_⟩
        refine List.mem_filter.mpr ⟨hs.graph.mem_outgoing_iff.mpr ⟨hsource.symm, hf⟩, ?_⟩
        exact bne_iff_ne.mpr fun hcontainer => by simp [hcontainer, EdgeKind.supports] at hsupports

/-- Where no edge goes, what is pointed at stays whole, and declarations make edges to declared
symbols. -/
theorem Leads.pointsWhole {documents : List (String × DocTree × NodeRef)}
    (hl : Leads c w documents c' w')
    (hedge : ∀ {e : Edge}, w.graph.hasEdge e → w'.graph.hasEdge e) (h : w.graph.PointsWhole) :
    w'.graph.PointsWhole := by
  intro e he hk
  by_cases hderives : Derives w'.graph e
  · obtain ⟨hold, hsame⟩ := hl.kept he hderives
    obtain ⟨hkind, hhas, hdeclared⟩ := hsame e.target (.inr rfl)
    exact (h _ hold hk).mono hkind hhas hdeclared fun _ _ hbuilt => hbuilt.mono fun _ _ => hedge
  · exact .inl (hl.surveyed.declared_of_not_derives he hderives).2

theorem pointsWhole_ofOptions (options : Options) : (ofOptions options).graph.PointsWhole :=
  fun _ he => absurd he (not_hasEdge_ofOptions options _)

theorem pointsWhole_apply (hw : w.Reachable) (h : w.graph.PointsWhole) {request : Request}
    (hends : ∀ d, request = .demand d → ∀ e ∈ request.error? w, ¬e.isEndless) :
    (request.apply w).graph.PointsWhole := by
  have hdetached := pointsWhole_detachPath hw.sound h
  cases request with
  | setUnit path tree root =>
      obtain ⟨c, hc⟩ := hw.exists_surveyed
      obtain ⟨c₁, hl⟩ := hc.detachPath hw.sound path
      obtain ⟨hs, hpath⟩ := hw.sound.detachPath path
      obtain ⟨c₂, hl'⟩ := apply_setUnit_of (hl.surveyed.contract_attach hs hpath tree root)
      refine hl'.pointsWhole (fun he => ?_) (hdetached path)
      exact apply_setUnit_of_writes (P := fun g => g.hasEdge _) he
        (fun hwrite hg => hwrite.hasEdge_mono hg) fun g ids hg => (hasEdge_invalidateAll g ids _).mpr hg
  | removeUnit path =>
      rw [apply_removeUnit]
      exact hdetached path
  | reset => exact pointsWhole_ofOptions w.options
  | takeDiagnostics => exact h
  | demand d => exact pointsWhole_apply_demand hw h (hends d rfl)

/-! ### Runs -/

/-- Every demand among the requests comes to an end. After one that does not there is no state. -/
def AllEnd (w : Workspace) (requests : List Request) : Prop :=
  ∀ first d, first ++ [.demand d] <+: requests →
    ∀ e ∈ (Request.demand d).error? (w.after first), ¬e.isEndless

/-- Over documents in which no node is below itself, they do. -/
theorem allEnd_of_setsTree (options : Options) {requests : List Request}
    (h : ∀ request ∈ requests, request.SetsTree) : (ofOptions options).AllEnd requests := by
  intro first d hrun e he
  have hreach : Reachable ((ofOptions options).after first) := ⟨options, first, rfl⟩
  refine hreach.not_isEndless (hasTrees_after options fun request hr => h request ?_) he
  exact hrun.subset (List.mem_append_left _ hr)

/-- By induction on the requests. -/
theorem pointsWhole_after (options : Options) {requests : List Request}
    (h : (ofOptions options).AllEnd requests) :
    ((ofOptions options).after requests).graph.PointsWhole := by
  induction requests using List.reverseRecOn with
  | nil => exact pointsWhole_ofOptions options
  | append_singleton requests request ih =>
      have hbefore : (ofOptions options).AllEnd requests := fun first d hrun =>
        h first d (hrun.trans (List.prefix_append requests [request]))
      rw [after_append]
      refine pointsWhole_apply ⟨options, requests, rfl⟩ (ih hbefore) ?_
      rintro d rfl
      exact h requests d (List.prefix_refl _)

/-! ### Snapshots -/

theorem isLive_iff : w.IsLive x ↔
    w.graph.declarations x ≠ [] ∨ w.graph.outgoing x ≠ [] ∨ w.graph.has x .wellKnown := by
  cases hs : w.graph.get? x with
  | none => simp [IsLive, SymbolGraph.declarations, SymbolGraph.outgoing, SymbolGraph.has, hs]
  | some s =>
    simp [IsLive, isLive, SymbolGraph.declarations, SymbolGraph.outgoing, SymbolGraph.has, hs,
      Symbol.isDeclared, or_assoc]

/-- Exactly the targets that the snapshot leaves out are hidden. -/
theorem hides_iff (hs : w.Sound) (h : w.graph.PointsWhole) {e : Edge} (he : w.graph.hasEdge e) :
    w.graph.Hides e.kind e.target ↔ ¬w.IsLive e.target := by
  rw [isLive_iff, not_or, not_or, not_not, not_not]
  constructor
  · rintro (⟨hmade, -, hempty⟩ | ⟨-, hundeclared, hempty, hnew⟩)
    · have hflags := isSynthesized_iff.mp hmade
      refine ⟨List.eq_nil_iff_forall_not_mem.mpr fun d hd => ?_, hempty, hflags.2⟩
      exact (hs.graph.declarable hd).1 hflags.1
    · exact ⟨hundeclared, hempty, hnew⟩
  · rintro ⟨hundeclared, hempty, hnew⟩
    by_cases hk : e.kind = .arrayOf
    · exact .element hk hundeclared hempty hnew
    · rcases h e he hk with hdeclared | hknown | ⟨hmade, hliteral | ⟨f, hf, hsource, -⟩⟩
      · exact absurd hundeclared hdeclared
      · exact absurd hknown hnew
      · exact .literal hmade hliteral hempty
      · have hmem := hs.graph.mem_outgoing_iff.mpr ⟨hsource.symm, hf⟩
        exact absurd (hempty ▸ hmem) List.not_mem_nil

theorem pairwise_ids (g : SymbolGraph) : (g.views.map (·.id)).Pairwise (· < ·) := by
  rw [views_eq, List.pairwise_map]
  refine List.Pairwise.filterMap g.viewAt (fun id id' hlt v hv v' hv' => ?_) List.pairwise_lt_range
  rwa [id_of_viewAt hv, id_of_viewAt hv']

/-- The edges of a view are those of the symbol. -/
theorem hasEdge_of_mem_edges (hg : w.graph.Mirrored) {v : SymbolView} {e : EdgeView}
    (hv : v ∈ w.graph.views) (he : e ∈ v.edges) :
    w.graph.hasEdge ⟨v.id, e.target, e.kind⟩ ∧ e.targetName = w.graph.name e.target := by
  obtain ⟨s, hs, -, hview⟩ := mem_views_iff.mp hv
  rw [hview] at he
  obtain ⟨f, hf, rfl⟩ := List.mem_map.mp he
  have hmem : f ∈ w.graph.outgoing v.id := by
    rw [SymbolGraph.outgoing, hs]
    exact hf
  obtain ⟨hsource, hedge⟩ := hg.mem_outgoing_iff.mp hmem
  exact ⟨hsource ▸ hedge, rfl⟩

/-- A target that lives is in the snapshot. -/
theorem exists_target (hx : w.IsLive x) :
    ∃ t ∈ w.snapshot.symbols, t.id = x ∧ t.name = w.graph.name x ∧
      w.snapshot.kindOf? x = some t.kind := by
  have hkind := kindOf?_snapshot hx
  obtain ⟨s, hs, hlive⟩ := hx
  refine ⟨w.graph.view x s, mem_views_iff.mpr ⟨s, hs, hlive, rfl⟩, rfl, ?_, ?_⟩
  · simp [view, SymbolGraph.name, hs]
  · rw [hkind]
    simp [view, SymbolGraph.kind?, hs]

/-! ### Main statement -/

theorem snapshot_after (options : Options) {requests : List Request}
    (h : (ofOptions options).AllEnd requests) :
    ((ofOptions options).after requests).snapshot.ClosedBut fun e =>
      ((ofOptions options).after requests).graph.Hides e.kind e.target := by
  have hwhole := pointsWhole_after options h
  have hs := (sound_ofOptions options).after requests
  generalize (ofOptions options).after requests = w at hwhole hs ⊢
  refine ⟨pairwise_ids w.graph, fun v hv e he hlisted => ?_, fun v hv e he hhidden => ?_⟩
  · obtain ⟨hedge, hname⟩ := hasEdge_of_mem_edges hs.graph.toMirrored hv he
    have hlive := not_not.mp fun hdead => hlisted ((hides_iff hs hwhole hedge).mpr hdead)
    obtain ⟨t, ht, hid, htname, hkind⟩ := exists_target hlive
    refine ⟨t, ht, hid, htname.trans hname.symm, ?_⟩
    rw [Snapshot.edgeLine, hkind, hname, htname]
    rfl
  · obtain ⟨hedge, -⟩ := hasEdge_of_mem_edges hs.graph.toMirrored hv he
    have hdead := (hides_iff hs hwhole hedge).mp hhidden
    refine ⟨fun t ht hid => hdead ?_, ?_⟩
    · obtain ⟨s, hs, hlive, -⟩ := mem_views_iff.mp ht
      exact ⟨s, hid ▸ hs, hlive⟩
    · rw [Snapshot.edgeLine, kindOf?_snapshot_of_not_live hdead]
      rfl

/-- An array type over a variable whose document is gone. -/
example : (((ofOptions {}).after [.setStatements "a.ts" do
      return [← Build.singleVariable "v" ∅ none none],
    .removeUnit "a.ts", .demand (.arrayOf 8)]).snapshot.symbols.flatMap fun v => v.edges) =
      [⟨.arrayOf, 8, "v"⟩] := by
  decide +kernel

/-- A variable of an empty type literal, and one of a type that was there from the start. -/
def emptyLiteral : List Request :=
  [.setStatements "a.ts" do
      let literal ← Build.typeLiteral []
      return [← Build.singleVariable "v" ∅ literal none,
        ← Build.singleVariable "w" ∅ (← Build.keywordType .numberKeyword) none],
    .demand (.symbol 8), .demand (.symbol 9)]

theorem allEnd_emptyLiteral : (ofOptions {}).AllEnd emptyLiteral := by
  have hordered : ∀ request ∈ emptyLiteral, ∀ tree ∈ request.tree?, tree.Ordered := by
    decide +kernel
  exact allEnd_of_setsTree {} fun request hr tree ht => (hordered request hr tree ht).isTree

/-- The type of the first variable is left out, and that of the second one is not. -/
theorem snapshot_after_emptyLiteral : (ofOptions {}).AllEnd emptyLiteral ∧
    (((ofOptions {}).after emptyLiteral).snapshot.ClosedBut fun e =>
      ((ofOptions {}).after emptyLiteral).graph.Hides e.kind e.target) ∧
    ((ofOptions {}).after emptyLiteral).graph.Hides .typedAs 10 ∧
    (((ofOptions {}).after emptyLiteral).snapshot.symbols.flatMap fun v => v.edges.map
      ((ofOptions {}).after emptyLiteral).snapshot.edgeLine) =
        ["TypedAs->?:", "TypedAs->Primitive:number"] := by
  refine ⟨allEnd_emptyLiteral, snapshot_after {} allEnd_emptyLiteral, .literal ?_ ?_ ?_, ?_⟩ <;>
    decide +kernel

/-- So not every target is in the snapshot. -/
theorem not_snapshot_after : ¬∀ (options : Options) (requests : List Request),
    (ofOptions options).AllEnd requests →
      ((ofOptions options).after requests).snapshot.ClosedBut fun _ => False := by
  intro h
  have hgap : ∃ v ∈ ((ofOptions {}).after emptyLiteral).snapshot.symbols, ∃ e ∈ v.edges,
      ∀ t ∈ ((ofOptions {}).after emptyLiteral).snapshot.symbols, t.id ≠ e.target := by
    decide +kernel
  obtain ⟨v, hv, e, he, hnone⟩ := hgap
  obtain ⟨t, ht, hid, -⟩ := (h {} emptyLiteral allEnd_emptyLiteral).listed v hv e he id
  exact hnone t ht hid

end Workspace

end NameBinding
