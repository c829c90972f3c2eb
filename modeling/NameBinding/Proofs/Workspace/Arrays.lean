import NameBinding.Proofs.Resolve.Arrays
import NameBinding.Proofs.Workspace.Admission
import NameBinding.Proofs.Workspace.Dead
import NameBinding.Proofs.Workspace.Failure

/-! # Array types last

An element type gets an array type on first request. Nothing says of the edge between them that it is
to be kept, and it is searched for anew each time.

Main statement: at each moment of a run, also while something is resolved, a request for the array
type of an existing symbol is answered. All later ones get the same answer and write nothing for it,
until a request unlinks the element type, and no other symbol ever has this array type. -/

namespace NameBinding

open SymbolGraph ResolveM

/-! ### Answers -/

namespace ResolveM

variable {r : Resolution} {a x : SymbolId}

/-- The array type that is there is the answer, and nothing is written. -/
theorem run_arrayOf (h : r.graph.Sound) (he : r.graph.hasEdge ⟨a, x, .arrayOf⟩) :
    arrayOf x r = .ok a r := by
  have hrun : Scene.Runs ⟨r, .given⟩ (arrayOf x) a ⟨r, .given⟩ := by
    refine .graph_bind ?_
    rw [arrayTypes, h.arrays.sources_eq h.toMirrored he]
    exact .pure _ a
  exact hrun

/-- Each symbol that exists gets an array type. -/
theorem exists_run_arrayOf (h : r.graph.Sound) (hx : x < r.graph.size) :
    ∃ a r', arrayOf x r = .ok a r' ∧ r'.graph.hasEdge ⟨a, x, .arrayOf⟩ := by
  cases hs : r.graph.sources x .arrayOf with
  | nil =>
      obtain ⟨a, s', hrun, he⟩ := Workspace.exists_runs_arrayOf (s := ⟨r, .given⟩) hx hs
      exact ⟨a, s'.resolution, hrun, he⟩
  | cons a rest =>
      have he := h.mem_sources_iff.mp (hs ▸ List.mem_cons_self)
      exact ⟨a, r, run_arrayOf h he, he⟩

/-- What a step that resolves does to array types. -/
theorem elemental_of_ok {α : Type} {m : ResolveM α} {answer : α} {r' : Resolution}
    (hm : Keeps (Resolution.Onward r.graph []) m) (h : r.graph.Elemental)
    (hrun : m r = .ok answer r') : r.graph.Moves r'.graph ∧ r'.graph.Elemental := by
  have hend := (Contract.ok hm (Onward.start h) hrun).1
  exact ⟨hend.moves, hend.elemental⟩

end ResolveM

namespace Workspace

variable {c c' : Chart} {w w' : Workspace} {a x : SymbolId} {unit : UnitId}

/-! ### Whatever is requested -/

/-- Edits draw no edges to element types and none from array types. -/
theorem Leads.elemental {documents : List (String × DocTree × NodeRef)}
    (hl : Leads c w documents c' w') (hs : w'.Sound) (h : w.graph.Elemental) :
    w'.graph.Elemental := by
  have harray : ∀ {a x}, w'.graph.hasEdge ⟨a, x, .arrayOf⟩ →
      w.graph.hasEdge ⟨a, x, .arrayOf⟩ ∧ SameEnds w.graph w'.graph ⟨a, x, .arrayOf⟩ :=
    fun he => hl.kept he (.inl (by simp [EdgeKind.isStructural, EdgeKind.isResolution]))
  have hold : ∀ {a}, w'.graph.IsArrayType a → w.graph.IsArrayType a := by
    rintro a ⟨x, he⟩
    exact ⟨x, (harray he).1⟩
  have hmade : ∀ {a}, w'.graph.IsArrayType a →
      w'.graph.has a .synthesized ∧ ¬w'.graph.has a .wellKnown := by
    rintro a ⟨x, he⟩
    have hflags := ((harray he).2 a (.inl rfl)).2.1
    rw [hflags, hflags]
    exact h.made ⟨x, (harray he).1⟩
  constructor
  · exact hs.graph
  · rintro a ⟨x, he⟩
    rw [((harray he).2 a (.inl rfl)).1]
    exact h.kind ⟨x, (harray he).1⟩
  · exact hmade
  · exact fun _ _ _ hx hy => h.sole _ _ _ (harray hx).1 (harray hy).1
  · intro e he ha
    have hderives : Derives w'.graph e := .inr (.inl (isSynthesized_iff.mpr (hmade ha)))
    exact h.only (hl.kept he hderives).1 (hold ha)

theorem elemental_ofOptions (options : Options) : (ofOptions options).graph.Elemental where
  toSound := (sound_ofOptions options).graph
  kind := fun ⟨_, he⟩ => absurd he (not_hasEdge_ofOptions options _)
  made := fun ⟨_, he⟩ => absurd he (not_hasEdge_ofOptions options _)
  sole _ _ _ he _ := absurd he (not_hasEdge_ofOptions options _)
  only he := absurd he (not_hasEdge_ofOptions options _)

/-- A demand spares array types, whether or not it is met. -/
theorem exists_moves_of_demand (h : w.graph.Elemental) (d : Demand) :
    ∃ r : Resolution, w.graph.Moves r.graph ∧
      (Request.demand d).apply w = { w with graph := r.graph, diagnostics := r.diagnostics } := by
  obtain ⟨r, hr, heq⟩ := exists_resolution_of_demand (P := Resolution.Onward w.graph []) <|
    Contract.weaken (d.onward_run w.setting w.graph) (fun _ hr => hr ▸ Onward.start h)
      (fun _ _ hr => hr.1) fun _ hr => hr
  exact ⟨r, hr.moves, heq⟩

theorem moves_apply_demand (h : w.graph.Elemental) (d : Demand) :
    w.graph.Moves ((Request.demand d).apply w).graph := by
  obtain ⟨r, hr, heq⟩ := exists_moves_of_demand h d
  rw [heq]
  exact hr

theorem Reachable.elemental_apply (h : w.Reachable) (hg : w.graph.Elemental) (request : Request) :
    (request.apply w).graph.Elemental := by
  cases hedit : request.isEdit with
  | true =>
      obtain ⟨c, hc⟩ := h.exists_surveyed
      obtain ⟨c', hl⟩ := hc.apply_edit h.sound hedit
      exact hl.elemental (h.sound.apply request) hg
  | false =>
      cases request with
      | demand d => exact (moves_apply_demand hg d).elemental hg
      | _ => exact absurd hedit (by simp [Request.isEdit])

/-- By induction on the requests. -/
theorem Reachable.elemental (h : w.Reachable) : w.graph.Elemental := by
  obtain ⟨options, requests, rfl⟩ := h
  induction requests using List.reverseRecOn with
  | nil => exact elemental_ofOptions options
  | append_singleton requests request ih =>
      rw [after_append]
      exact Reachable.elemental_apply ⟨options, requests, rfl⟩ ih request

/-! ### What lasts -/

/-- The request takes a symbol out of the graph. -/
def Unlinks (x : SymbolId) (w : Workspace) : Request → Prop
  | .setUnit path _ _ | .removeUnit path => ∃ u ∈ w.program.unit? path, x ∈ w.dyingWith u
  | .reset => True
  | .takeDiagnostics | .demand _ => False

/-- An array type dies only with its element type: it has no declarations to lose, and whatever else
it leads to is there from the start. -/
theorem Reachable.dies_of_dies (h : w.Reachable) (he : w.graph.hasEdge ⟨a, x, .arrayOf⟩)
    (ha : w.Dies unit a) : w.Dies unit x := by
  have hg := h.elemental
  have hmade := hg.made ⟨x, he⟩
  cases ha with
  | orphan hneeds => exact absurd hmade.1 hneeds.1
  | @«over» _ y kind _ _ hedge hy =>
      rcases hg.only hedge ⟨x, he⟩ with rfl | hlt
      · rwa [hg.sole _ _ _ he hedge]
      · -- What is there from the start does not die.
        obtain ⟨c, hc⟩ := h.exists_surveyed
        have hknown : w.graph.has y .wellKnown := by
          rw [has_congr (hc.initial hlt).1]
          exact has_wellKnown_graph hlt
        cases hy with
        | orphan hneeds => exact absurd hknown hneeds.2
        | «over» hsyn => exact absurd hknown (isSynthesized_iff.mp hsyn).2

theorem Reachable.hasEdge_arrayOf_detachPath (h : w.Reachable)
    (he : w.graph.hasEdge ⟨a, x, .arrayOf⟩) {path : String}
    (hx : ¬∃ u ∈ w.program.unit? path, x ∈ w.dyingWith u) :
    (w.detachPath path).graph.hasEdge ⟨a, x, .arrayOf⟩ := by
  unfold Workspace.detachPath
  cases hu : w.program.unit? path with
  | none => exact he
  | some u =>
      have hlive : x ∉ w.dyingWith u := fun hdies => hx ⟨u, hu, hdies⟩
      refine (hasEdge_detach h.sound u _).mpr ⟨he, fun ha => hlive ?_, hlive⟩
      rw [h.sound.mem_dyingWith_iff] at ha ⊢
      exact h.dies_of_dies he ha

/-- A request that does not unlink the element type leaves it its array type. -/
theorem Reachable.hasEdge_arrayOf_apply (h : w.Reachable) {request : Request}
    (hx : ¬w.Unlinks x request) (he : w.graph.hasEdge ⟨a, x, .arrayOf⟩) :
    (request.apply w).graph.hasEdge ⟨a, x, .arrayOf⟩ := by
  cases request with
  | setUnit path tree root =>
      exact apply_setUnit_of_writes (P := fun g => g.hasEdge ⟨a, x, .arrayOf⟩)
        (h.hasEdge_arrayOf_detachPath he hx) (fun hw hg => hw.hasEdge_mono hg)
        fun g ids hg => (hasEdge_invalidateAll g ids _).mpr hg
  | removeUnit path =>
      rw [apply_removeUnit]
      exact h.hasEdge_arrayOf_detachPath he hx
  | reset => exact absurd True.intro hx
  | takeDiagnostics => exact he
  | demand d => exact (moves_apply_demand h.elemental d).hasEdge_arrayOf h.elemental he

/-- Only a reset gives up symbols for good. -/
theorem Reachable.size_le_apply (h : w.Reachable) {request : Request} (hreset : request ≠ .reset) :
    w.graph.size ≤ (request.apply w).graph.size := by
  have hdetached : ∀ path, (w.detachPath path).graph.size = w.graph.size := by
    intro path
    unfold Workspace.detachPath
    cases w.program.unit? path with
    | none => rfl
    | some u => exact (size_eq_of_label? (label?_detach w u)).trans (size_forgetUnit _ _)
  cases request with
  | setUnit path tree root =>
      refine apply_setUnit_of_writes (P := fun g => w.graph.size ≤ g.size)
        (Nat.le_of_eq (hdetached path).symm) (fun hw hg => Nat.le_trans hg hw.size_le)
        fun g ids hg => ?_
      rwa [size_eq_of_label? (label?_invalidateAll g ids)]
  | removeUnit path =>
      rw [apply_removeUnit]
      exact Nat.le_of_eq (hdetached path).symm
  | reset => exact absurd rfl hreset
  | takeDiagnostics => exact Nat.le_refl _
  | demand d => exact (moves_apply_demand h.elemental d).size_le

/-- No symbol that is there becomes an array type. -/
theorem Reachable.hasEdge_arrayOf_of_apply (h : w.Reachable) {request : Request}
    (ha : a < w.graph.size) (he : (request.apply w).graph.hasEdge ⟨a, x, .arrayOf⟩) :
    w.graph.hasEdge ⟨a, x, .arrayOf⟩ := by
  cases hedit : request.isEdit with
  | true =>
      obtain ⟨c, hc⟩ := h.exists_surveyed
      obtain ⟨c', hl⟩ := hc.apply_edit h.sound hedit
      exact (hl.kept he (.inl (by simp [EdgeKind.isStructural, EdgeKind.isResolution]))).1
  | false =>
      cases request with
      | demand d =>
          exact ((moves_apply_demand h.elemental d).hasEdge_arrayOf_iff h.elemental ha).mp he
      | _ => exact absurd hedit (by simp [Request.isEdit])

/-- No request fails because an element type has two array types. -/
theorem Reachable.error?_ne_duplicateArrayType (h : w.Reachable) (request : Request)
    (n : Nat) : request.error? w ≠ some (.duplicateArrayType x n) := by
  intro herror
  cases request with
  | setUnit path tree root =>
      obtain ⟨hsound, hpath⟩ := h.sound.detachPath path
      rw [Request.error?, run_setUnit] at herror
      cases hb : w.bindingOf path tree root with
      | ok u b => simp [hb] at herror
      | error e b =>
          obtain rfl := hsound.eq_unknownDecl_of_bindUnit tree root hpath hb
          simp [hb] at herror
  | removeUnit path =>
      cases hu : w.program.unit? path with
      | none => simp [Request.error?, run_removeUnit_of_none hu] at herror
      | some u => simp [Request.error?, run_removeUnit hu] at herror
  | reset => exact nomatch (show none = some (BindError.duplicateArrayType x n) from herror)
  | takeDiagnostics => exact nomatch (show none = some (BindError.duplicateArrayType x n) from herror)
  | demand d =>
      obtain ⟨g, hf⟩ := h.exists_failure herror (by simp [BindError.isEndless])
      exact Demand.ne_duplicateArrayType_of_failure hf x n rfl

end Workspace

/-! ### Moments -/

/-- A workspace, and the state of a demand that is being met there. The workspace gets that state when
the demand is done. -/
structure Moment where
  workspace : Workspace
  resolution : Resolution

/-- Nothing is being resolved. -/
def Workspace.moment (w : Workspace) : Moment := ⟨w, ⟨w.graph, w.diagnostics⟩⟩

namespace Moment

/-- What can come next in a run. Some requests are barred. -/
inductive Next (barred : Workspace → Request → Prop) : Moment → Moment → Prop where
  | request {w : Workspace} (request : Request) (h : ¬barred w request) :
      Next barred w.moment (request.apply w).moment
  /-- On the way to the answer of a demand, something is written and reported. -/
  | resolve {w : Workspace} {r r' : Resolution} (h : r.graph.Moves r'.graph) :
      Next barred ⟨w, r⟩ ⟨w, r'⟩
  /-- The demand is done, or has failed. -/
  | done {w : Workspace} {r : Resolution} {d : Demand}
      (h : (Request.demand d).apply w = { w with graph := r.graph, diagnostics := r.diagnostics }) :
      Next barred ⟨w, r⟩ ((Request.demand d).apply w).moment

def Later (barred : Workspace → Request → Prop) : Moment → Moment → Prop :=
  Relation.ReflTransGen (Next barred)

/-- The moment comes in a run from an empty workspace. -/
def Passed (m : Moment) : Prop :=
  ∃ options, Later (fun _ _ => False) (Workspace.ofOptions options).moment m

/-- What is known of all moments. -/
structure Valid (m : Moment) : Prop where
  reachable : m.workspace.Reachable
  elemental : m.resolution.graph.Elemental

variable {barred : Workspace → Request → Prop} {m m' : Moment} {a x y : SymbolId}

theorem valid_moment {w : Workspace} (h : w.Reachable) : w.moment.Valid := ⟨h, h.elemental⟩

theorem Valid.resolve (hm : m.Valid) {r : Resolution} (h : m.resolution.graph.Moves r.graph) :
    Valid ⟨m.workspace, r⟩ := ⟨hm.reachable, h.elemental hm.elemental⟩

theorem Next.valid (h : m.Next barred m') (hm : m.Valid) : m'.Valid := by
  cases h with
  | request request => exact valid_moment (hm.reachable.apply request)
  | resolve h => exact hm.resolve h
  | done => exact valid_moment (hm.reachable.apply _)

theorem Later.valid (h : m.Later barred m') (hm : m.Valid) : m'.Valid := by
  induction h with
  | refl => exact hm
  | tail _ hnext ih => exact hnext.valid ih

theorem Passed.valid (h : m.Passed) : m.Valid := by
  obtain ⟨options, h⟩ := h
  exact h.valid (valid_moment (Workspace.reachable_ofOptions options))

/-- The way to the answer of a demand leads through moments. -/
theorem later_demand {w : Workspace} (h : w.Reachable) (d : Demand) :
    w.moment.Later barred ((Request.demand d).apply w).moment := by
  obtain ⟨r, hr, heq⟩ := Workspace.exists_moves_of_demand h.elemental d
  have hway : w.moment.Next barred ⟨w, r⟩ := .resolve hr
  exact .tail (.single hway) (.done heq)

/-- By induction on the requests. -/
theorem passed_moment {w : Workspace} (h : w.Reachable) : w.moment.Passed := by
  obtain ⟨options, requests, rfl⟩ := h
  refine ⟨options, ?_⟩
  induction requests using List.reverseRecOn with
  | nil => exact .refl
  | append_singleton requests request ih =>
      rw [Workspace.after_append]
      exact ih.tail (.request request id)

/-- Until its element type is unlinked, an array type stays. -/
theorem Next.hasEdge_arrayOf (h : m.Next (Workspace.Unlinks x) m') (hm : m.Valid)
    (he : m.resolution.graph.hasEdge ⟨a, x, .arrayOf⟩) :
    m'.resolution.graph.hasEdge ⟨a, x, .arrayOf⟩ := by
  cases h with
  | request request hx => exact hm.reachable.hasEdge_arrayOf_apply hx he
  | resolve h => exact h.hasEdge_arrayOf hm.elemental he
  | done h => rwa [h]

theorem Later.hasEdge_arrayOf (h : m.Later (Workspace.Unlinks x) m') (hm : m.Valid)
    (he : m.resolution.graph.hasEdge ⟨a, x, .arrayOf⟩) :
    m'.resolution.graph.hasEdge ⟨a, x, .arrayOf⟩ := by
  induction h with
  | refl => exact he
  | tail hfirst hnext ih => exact hnext.hasEdge_arrayOf (Later.valid hfirst hm) ih

/-- Until a reset, no symbol becomes the array type of a symbol of which it was none. -/
theorem Next.hasEdge_arrayOf_of_lt (h : m.Next (fun _ request => request = .reset) m')
    (hm : m.Valid) (ha : a < m.resolution.graph.size) : a < m'.resolution.graph.size ∧
      (m'.resolution.graph.hasEdge ⟨a, y, .arrayOf⟩ →
        m.resolution.graph.hasEdge ⟨a, y, .arrayOf⟩) := by
  cases h with
  | request request hreset =>
      exact ⟨Nat.lt_of_lt_of_le ha (hm.reachable.size_le_apply hreset),
        hm.reachable.hasEdge_arrayOf_of_apply ha⟩
  | resolve h =>
      exact ⟨Nat.lt_of_lt_of_le ha h.size_le, (h.hasEdge_arrayOf_iff hm.elemental ha).mp⟩
  | done h =>
      rw [h]
      exact ⟨ha, id⟩

theorem Later.hasEdge_arrayOf_of_lt (h : m.Later (fun _ request => request = .reset) m')
    (hm : m.Valid) (ha : a < m.resolution.graph.size) : a < m'.resolution.graph.size ∧
      (m'.resolution.graph.hasEdge ⟨a, y, .arrayOf⟩ →
        m.resolution.graph.hasEdge ⟨a, y, .arrayOf⟩) := by
  induction h with
  | refl => exact ⟨ha, id⟩
  | tail hfirst hnext ih =>
      have hlast := hnext.hasEdge_arrayOf_of_lt (y := y) (Later.valid hfirst hm) ih.1
      exact ⟨hlast.1, fun he => ih.2 (hlast.2 he)⟩

/-! ### Requests for array types -/

/-- The element type in an array type node. -/
def elementNode (tree : DocTree) (node : NodeRef) : NodeRef :=
  match tree.record? node with
  | some (.arrayType element) => element
  | _ => none

/-- The step asks for the array type of a symbol, directly or through an annotation. For an annotation
its element type is resolved first, which ends in the given state. -/
inductive Asks (m : Moment) (x : SymbolId) : ResolveM SymbolId → Resolution → Prop where
  | directly : Asks m x (arrayOf x) m.resolution
  | annotated {place : TypePlace} {node : NodeRef} {levels : Nat} {r : Resolution}
      (hnode : place.tree.kind? node = some .arrayType)
      (helement : typeWithin m.workspace.setting place levels (elementNode place.tree node)
        m.resolution = .ok x r) :
      Asks m x (typeWithin m.workspace.setting place (levels + 1) node) r

variable {step step' : ResolveM SymbolId} {r r' : Resolution}

/-- What is left to do for an annotation is what is done for a direct request. -/
theorem Asks.run_eq (h : m.Asks x step r) : step m.resolution = arrayOf x r := by
  cases h with
  | directly => rfl
  | @annotated place node levels r hnode helement =>
      rw [typeWithin, typeOfNode, hnode]
      change EStateM.bind (typeWithin m.workspace.setting place levels (elementNode place.tree node))
        arrayOf m.resolution = _
      rw [EStateM.bind, helement]

theorem Asks.moves (h : m.Asks x step r) (hm : m.Valid) :
    m.resolution.graph.Moves r.graph ∧ r.graph.Elemental := by
  cases h with
  | directly => exact ⟨.refl, hm.elemental⟩
  | annotated _ helement =>
      exact elemental_of_ok (onward_typeWithin _ _) hm.elemental helement

/-- A request for an array type is answered. -/
theorem Asks.exists_answer (h : m.Asks x step r) (hm : m.Valid) (hx : x < r.graph.size) :
    ∃ a r', step m.resolution = .ok a r' ∧ r'.graph.hasEdge ⟨a, x, .arrayOf⟩ ∧
      m.resolution.graph.Moves r'.graph := by
  obtain ⟨hmoves, hr⟩ := h.moves hm
  obtain ⟨a, r', hrun, he⟩ := exists_run_arrayOf hr.toSound hx
  have hlast := (elemental_of_ok (onward_arrayOf x) hr hrun).1
  exact ⟨a, r', h.run_eq.trans hrun, he, hmoves.trans hlast⟩

theorem Asks.of_ok (h : m.Asks x step r) (hm : m.Valid) (hx : x < r.graph.size)
    (hrun : step m.resolution = .ok a r') :
    r'.graph.hasEdge ⟨a, x, .arrayOf⟩ ∧ m.resolution.graph.Moves r'.graph := by
  obtain ⟨_, _, hrun', he, hmoves⟩ := h.exists_answer hm hx
  obtain ⟨rfl, rfl⟩ := EStateM.Result.ok.inj (hrun'.symm.trans hrun)
  exact ⟨he, hmoves⟩

/-- Until the element type is unlinked, its array type is the answer, and nothing is written for it. -/
theorem Asks.run_of_later (h : m'.Asks x step r) (hm : m.Valid)
    (he : m.resolution.graph.hasEdge ⟨a, x, .arrayOf⟩)
    (hlater : m.Later (Workspace.Unlinks x) m') : step m'.resolution = .ok a r := by
  have hm' := hlater.valid hm
  obtain ⟨hmoves, hr⟩ := h.moves hm'
  have hlast := hmoves.hasEdge_arrayOf hm'.elemental (hlater.hasEdge_arrayOf hm he)
  exact h.run_eq.trans (run_arrayOf hr.toSound hlast)

/-- Until a reset, an array type is the answer for no other symbol. -/
theorem Asks.eq_of_later (h : m'.Asks y step r) (hm : m.Valid)
    (he : m.resolution.graph.hasEdge ⟨a, x, .arrayOf⟩)
    (hlater : m.Later (fun _ request => request = .reset) m') (hy : y < r.graph.size)
    (hrun : step m'.resolution = .ok a r') : y = x := by
  obtain ⟨he', hmoves⟩ := h.of_ok (hlater.valid hm) hy hrun
  have hlast : m.Later _ ⟨m'.workspace, r'⟩ := hlater.tail (.resolve hmoves)
  have hold := (hlast.hasEdge_arrayOf_of_lt hm (hm.elemental.lt_size he).1).2 he'
  exact hm.elemental.sole _ _ _ hold he

/-- Requests for array types are answered, each symbol keeps its array type, and has it alone. -/
structure SharesArrays (m : Moment) : Prop where
  /-- Every demand is met by way of such moments, with no request on the way. -/
  demand : ∀ d, m.workspace.moment.Later (fun _ _ => True)
    ((Request.demand d).apply m.workspace).moment
  answered : ∀ {x step r}, m.Asks x step r → x < r.graph.size →
    ∃ a r', step m.resolution = .ok a r'
  /-- Until the element type is unlinked, the answer stays. Nothing is written for it. -/
  same : ∀ {x step r a r'}, m.Asks x step r → x < r.graph.size → step m.resolution = .ok a r' →
    ∀ {m' : Moment}, Later (Workspace.Unlinks x) ⟨m.workspace, r'⟩ m' →
      ∀ {step' r₁}, m'.Asks x step' r₁ → step' m'.resolution = .ok a r₁
  /-- Until a reset, no other symbol gets the answer, also if the element type is unlinked. -/
  distinct : ∀ {x step r a r'}, m.Asks x step r → x < r.graph.size → step m.resolution = .ok a r' →
    ∀ {m' : Moment}, Later (fun _ request => request = .reset) ⟨m.workspace, r'⟩ m' →
      ∀ {y step' r₁ r₂}, m'.Asks y step' r₁ → y < r₁.graph.size →
        step' m'.resolution = .ok a r₂ → y = x
  noDuplicate : ∀ request y n, Request.error? request m.workspace ≠ some (.duplicateArrayType y n)

/-- At every moment of every run, array types are shared. -/
theorem Passed.sharesArrays (h : m.Passed) : m.SharesArrays where
  demand d := later_demand h.valid.reachable d
  answered hasks hx := by
    obtain ⟨a, r', hrun, -⟩ := hasks.exists_answer h.valid hx
    exact ⟨a, r', hrun⟩
  same hasks hx hrun _ hlater _ _ hasks' := by
    obtain ⟨he, hmoves⟩ := hasks.of_ok h.valid hx hrun
    exact hasks'.run_of_later (h.valid.resolve hmoves) he hlater
  distinct hasks hx hrun _ hlater _ _ _ _ hasks' hy hrun' := by
    obtain ⟨he, hmoves⟩ := hasks.of_ok h.valid hx hrun
    exact hasks'.eq_of_later (h.valid.resolve hmoves) he hlater hy hrun'
  noDuplicate request _ n := h.valid.reachable.error?_ne_duplicateArrayType request n

/-- An interface, and a variable of its array type. -/
def arrayUser : Workspace := (Workspace.ofOptions {}).after
  [.setStatements "t.ts" do return [← Build.interfaceDecl "T" ∅ [] []],
    .setStatements "a.ts" do
      let array ← Build.arrayType (← Build.typeReference "T")
      return [← Build.singleVariable "a" ∅ array none]]

theorem sharesArrays_arrayUser : arrayUser.moment.Passed ∧ 8 < arrayUser.graph.size ∧
    arrayUser.moment.SharesArrays := by
  have h : arrayUser.moment.Passed := passed_moment ⟨_, _, rfl⟩
  exact ⟨h, by decide +kernel, h.sharesArrays⟩

/-- The array type outlives the document that first asked for it, and another document gets it. -/
example : (arrayUser.after [.demand (.symbol 9), .removeUnit "a.ts",
      .setStatements "b.ts" do
        let array ← Build.arrayType (← Build.typeReference "T")
        return [← Build.singleVariable "b" ∅ array none],
      .demand (.symbol 11)]).graph.targets 11 .typedAs = [10] ∧
    arrayUser.graph.size = 10 := by
  decide +kernel

end Moment

end NameBinding
