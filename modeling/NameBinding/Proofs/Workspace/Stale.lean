import NameBinding.Proofs.Workspace.Removal

/-! # Answers that outlive what they were found through

An answer is kept when no edge of its symbol ends at something that dies. Nothing records the names
that a lookup only passed through, such as an alias.

Main statement: if all answers are up to date and a unit is removed, then those that are kept are up
to date exactly if none of them would have changed with the removal. -/

namespace NameBinding

open SymbolGraph

/-- What a type looks like, down to some depth. Synthesized types are told apart by what they are
made of, and all others by their position. -/
inductive TypeView where
  | cut
  | known (id : SymbolId)
  | made (name : String) (kind? : Option SymbolKind) (parts : List (EdgeKind × TypeView))

namespace TypeView

/-- The position of a type that was not synthesized. -/
def known? : TypeView → Option SymbolId
  | known id => some id
  | _ => none

end TypeView

namespace SymbolGraph

/-- The edges of a symbol that lead to what it is built over. -/
def foundations (g : SymbolGraph) (id : SymbolId) : List Edge :=
  (g.outgoing id).filter fun e => e.kind != .containedBy

def typeView (g : SymbolGraph) : Nat → SymbolId → TypeView
  | 0, id => if g.isSynthesized id then .cut else .known id
  | depth + 1, id =>
    if g.isSynthesized id then
      .made (g.name id) (g.kind? id)
        ((g.foundations id).map fun e => (e.kind, g.typeView depth e.target))
    else .known id

/-- The edges that resolving gave to a symbol, with their types down to some depth. -/
def outcome (g : SymbolGraph) (depth : Nat) (id : SymbolId) : List (EdgeKind × TypeView) :=
  ((g.outgoing id).filter fun e => e.kind.isResolution).map fun e =>
    (e.kind, g.typeView depth e.target)

end SymbolGraph

namespace Workspace

variable {w : Workspace} {u : CompilationUnit} {x : SymbolId}

/-- The workspace after a symbol is invalidated and resolved again. -/
def again (w : Workspace) (id : SymbolId) : Workspace :=
  (Request.demand (.symbol id)).apply { w with graph := w.graph.invalidateUpward id }

/-- A symbol has the edges that it would get by being resolved again. -/
def UpToDate (w : Workspace) (id : SymbolId) : Prop :=
  ∀ depth, (w.graph.outcome depth id).Perm ((w.again id).graph.outcome depth id)

/-- A symbol of the program text whose answer is kept. -/
def Answered (w : Workspace) (id : SymbolId) : Prop :=
  w.graph.declarations id ≠ [] ∧ w.graph.isResolved id

/-- No answer is stale. -/
def AllUpToDate (w : Workspace) : Prop := ∀ id, w.Answered id → w.UpToDate id

/-! ### What is kept is unchanged -/

theorem foundations_detach (h : w.Sound) (hx : x ∉ w.dyingWith u)
    (ht : ∀ {e : Edge}, e ∈ w.graph.foundations x → e.target ∉ w.dyingWith u) :
    (w.detach u).graph.foundations x = w.graph.foundations x := by
  rw [foundations, outgoing_detach h, List.filter_filter]
  refine List.filter_congr fun e he => ?_
  by_cases hk : e.kind = .containedBy
  · simp [hk]
  · have hsource : x = e.source := (h.graph.mem_outgoing_iff.mp he).1
    have htarget := ht (List.mem_filter.mpr ⟨he, by simpa using hk⟩)
    have hstays : (w.dyingWith u).any e.touches = false := by
      refine List.any_eq_false.mpr fun id hid => ?_
      simp only [Edge.touches, Bool.or_eq_true, beq_iff_eq, not_or]
      exact ⟨fun hs => hx (hsource.trans hs ▸ hid), fun hs => htarget (hs ▸ hid)⟩
    simp [hstays]

theorem not_mem_dyingWith_of_foundation (h : w.Sound) (hx : x ∉ w.dyingWith u)
    (hs : w.graph.isSynthesized x) {e : Edge} (he : e ∈ w.graph.foundations x) :
    e.target ∉ w.dyingWith u := by
  intro ht
  obtain ⟨he, hk⟩ := List.mem_filter.mp he
  have hforget := (h.graph.forgetUnit u.id).toMirrored
  rw [← outgoing_forgetUnit w.graph u.id x] at he
  obtain ⟨rfl, hedge⟩ := hforget.mem_outgoing_iff.mp he
  refine hx (mem_dying_of_hasEdge hforget ht (by simpa using hk) hedge ?_)
  simpa using hs

/-- What does not die looks as before. -/
theorem typeView_detach (h : w.Sound) (hx : x ∉ w.dyingWith u) (depth : Nat) :
    (w.detach u).graph.typeView depth x = w.graph.typeView depth x := by
  induction depth generalizing x with
  | zero => simp only [typeView, isSynthesized_detach]
  | succ depth ih =>
      simp only [typeView, isSynthesized_detach]
      split
      · next hs =>
        have ht : ∀ {e : Edge}, e ∈ w.graph.foundations x → e.target ∉ w.dyingWith u := fun he =>
          not_mem_dyingWith_of_foundation h hx hs he
        have hname : (w.detach u).graph.name x = w.graph.name x := by
          rw [name_congr (label?_detach w u x), name_forgetUnit]
        have hkind : (w.detach u).graph.kind? x = w.graph.kind? x := by
          rw [kind?_congr (label?_detach w u x), kind?_forgetUnit]
        rw [hname, hkind, foundations_detach h hx ht]
        congr 1
        refine List.map_congr_left fun e he => ?_
        rw [ih (ht he)]
      · rfl

/-- An answer that is kept is the one from before. -/
theorem outcome_detach (h : w.Sound) (ha : (w.detach u).Answered x) (depth : Nat) :
    (w.detach u).graph.outcome depth x = w.graph.outcome depth x := by
  obtain ⟨hd, hr⟩ := ha
  obtain ⟨d, hd⟩ := List.exists_mem_of_ne_nil _ hd
  obtain ⟨-, -, hout⟩ := of_isResolved_detach h hd hr
  have ht : ∀ {e : Edge}, e ∈ w.graph.foundations x → e.target ∉ w.dyingWith u := by
    intro e he
    obtain ⟨he, hk⟩ := List.mem_filter.mp he
    exact hout he (by simpa using hk)
  have hsame := foundations_detach h (not_mem_dyingWith h hd) ht
  have hresolution : ∀ g : SymbolGraph, (g.outgoing x).filter (fun e => e.kind.isResolution) =
      (g.foundations x).filter fun e => e.kind.isResolution := by
    intro g
    rw [foundations, List.filter_filter]
    refine List.filter_congr fun e _ => ?_
    cases e.kind <;> rfl
  rw [outcome, outcome, hresolution, hresolution, hsame]
  refine List.map_congr_left fun e he => ?_
  rw [typeView_detach h (ht (List.mem_of_mem_filter he))]

/-- Removing a unit gives no answer to a symbol, and changes none that it keeps. -/
theorem answered_detachPath (h : w.Sound) {path : String} (ha : (w.detachPath path).Answered x) :
    w.Answered x ∧ ∀ depth,
      (w.detachPath path).graph.outcome depth x = w.graph.outcome depth x := by
  cases hu : w.program.unit? path with
  | none =>
      have hsame : w.detachPath path = w := by simp [detachPath, hu]
      rw [hsame] at ha ⊢
      exact ⟨ha, fun _ => rfl⟩
  | some u =>
      have hsame : w.detachPath path = w.detach u := by simp [detachPath, hu]
      rw [hsame] at ha ⊢
      refine ⟨?_, outcome_detach h ha⟩
      obtain ⟨hd, hr⟩ := ha
      obtain ⟨d, hd⟩ := List.exists_mem_of_ne_nil _ hd
      refine ⟨fun hnil => ?_, (of_isResolved_detach h hd hr).1⟩
      rw [declarations_detach, hnil] at hd
      exact absurd hd List.not_mem_nil

/-- When all answers are up to date and a unit goes, the answers that are kept are up to date exactly
if resolving their symbols again gives what it gave before. -/
theorem allUpToDate_removeUnit_iff (hw : w.Reachable) (hu : w.AllUpToDate) (path : String) :
    ((Request.removeUnit path).apply w).AllUpToDate ↔
      ∀ id, ((Request.removeUnit path).apply w).Answered id → ∀ depth,
        ((w.again id).graph.outcome depth id).Perm
          ((((Request.removeUnit path).apply w).again id).graph.outcome depth id) := by
  refine forall_congr' fun id => forall_congr' fun ha => forall_congr' fun depth => ?_
  obtain ⟨hbefore, hsame⟩ := answered_detachPath hw.sound (apply_removeUnit w path ▸ ha)
  rw [apply_removeUnit, hsame depth]
  exact ⟨fun h => (hu id hbefore depth).symm.trans h, fun h => (hu id hbefore depth).trans h⟩

/-! ### An alias that goes -/

theorem typeView_of_not_isSynthesized {g : SymbolGraph} {id : SymbolId} (h : ¬g.isSynthesized id)
    (depth : Nat) : g.typeView depth id = .known id := by
  cases depth <;> simp [typeView, h]

theorem outcome_of_not_isSynthesized {g : SymbolGraph} {id : SymbolId}
    (h : ∀ e ∈ g.outgoing id, ¬g.isSynthesized e.target) (depth : Nat) :
    g.outcome depth id = ((g.outgoing id).filter fun e => e.kind.isResolution).map fun e =>
      (e.kind, .known e.target) := by
  refine List.map_congr_left fun e he => ?_
  rw [typeView_of_not_isSynthesized (h e (List.mem_of_mem_filter he))]

/-- A symbol without edges to synthesized types keeps its edges when it is resolved again. -/
def keepsEdges (w : Workspace) (id : SymbolId) : Bool :=
  (w.again id).graph.outgoing id == w.graph.outgoing id &&
    (w.graph.outgoing id).all fun e =>
      !w.graph.isSynthesized e.target && !(w.again id).graph.isSynthesized e.target

theorem UpToDate.of_keepsEdges {id : SymbolId} (h : w.keepsEdges id) : w.UpToDate id := by
  intro depth
  simp only [keepsEdges, Bool.and_eq_true, beq_iff_eq, List.all_eq_true,
    Bool.not_eq_true'] at h
  obtain ⟨hsame, hk⟩ := h
  rw [outcome_of_not_isSynthesized (fun e he => by simp [(hk e he).1]),
    outcome_of_not_isSynthesized (fun e he => by simp [(hk e (hsame ▸ he)).2]), hsame]

theorem AllUpToDate.of_keepsEdges
    (h : ((List.range w.graph.size).all fun id =>
      (w.graph.declarations id).isEmpty || w.keepsEdges id) = true) : w.AllUpToDate := by
  intro id ⟨hd, _⟩
  have hlt : id < w.graph.size := by
    refine Decidable.by_contra fun hn => hd ?_
    simp [SymbolGraph.declarations, (get?_eq_none_iff w.graph id).mpr (Nat.not_lt.mp hn)]
  have hid := List.all_eq_true.mp h id (List.mem_range.mpr hlt)
  rw [Bool.or_eq_true, List.isEmpty_iff] at hid
  exact .of_keepsEdges (hid.resolve_left hd)

/-- One document has the alias `X` of `I`, and another one has the interface `I` and a variable of
type `X`. All three are resolved. -/
def aliased : Workspace := (ofOptions {}).after
  [.setStatements "alias.ts" do return [← Build.importEquals "X" ∅ "I"],
    .setStatements "use.ts" do
      let i ← Build.interfaceDecl "I" ∅ [] []
      let v ← Build.singleVariable "v" ∅ (← Build.typeReference "X") none
      return [i, v],
    .demand (.symbol 8), .demand (.symbol 9), .demand (.symbol 10)]

theorem allUpToDate_aliased : aliased.AllUpToDate :=
  .of_keepsEdges (by decide +kernel)

theorem reachable_aliased : aliased.Reachable := ⟨_, _, rfl⟩

theorem allUpToDate_removeUnit_iff_aliased :
    aliased.Reachable ∧ aliased.AllUpToDate ∧
      (((Request.removeUnit "alias.ts").apply aliased).AllUpToDate ↔
        ∀ id, ((Request.removeUnit "alias.ts").apply aliased).Answered id → ∀ depth,
          ((aliased.again id).graph.outcome depth id).Perm
            ((((Request.removeUnit "alias.ts").apply aliased).again id).graph.outcome depth id)) :=
  ⟨reachable_aliased, allUpToDate_aliased,
    allUpToDate_removeUnit_iff reachable_aliased allUpToDate_aliased "alias.ts"⟩

/-- The variable keeps its edge to `I`, also when the alias is gone through which it was found. -/
theorem not_allUpToDate_removeUnit :
    ¬∀ (w : Workspace) (path : String), w.Reachable → w.AllUpToDate →
      ((Request.removeUnit path).apply w).AllUpToDate := by
  intro h
  have ha : ((Request.removeUnit "alias.ts").apply aliased).Answered 10 :=
    ⟨by decide +kernel, by decide +kernel⟩
  have hsame := h aliased "alias.ts" reachable_aliased allUpToDate_aliased 10 ha 0
  have hmap := hsame.map fun part => part.2.known?
  exact absurd hmap (by decide +kernel)

end Workspace

end NameBinding
