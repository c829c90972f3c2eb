import NameBinding.Proofs.Workspace.Total

/-! # What failures leave behind in a workspace

Main statement: a demand that fails leaves symbols, edges, marks and reports as they were, unless it
is about a class without an instance side, which is marked before the failure, or about an element
type that does not exist, for which a symbol is made before the failure. -/

namespace NameBinding

open SymbolGraph ResolveM

/-- How a request fails. -/
def Request.error? (request : Request) (w : Workspace) : Option BindError :=
  match request.run w with
  | .ok _ _ => none
  | .error e _ => some e

namespace Workspace

variable {w w' : Workspace} {d : Demand} {e : BindError}

/-- The symbols, the edges, the marks and the reports of both are the same. -/
structure Alike (w w' : Workspace) : Prop where
  size : w'.graph.size = w.graph.size
  hasEdge : ∀ e : Edge, w'.graph.hasEdge e ↔ w.graph.hasEdge e
  isResolved : ∀ x, w'.graph.isResolved x = w.graph.isResolved x
  diagnostics : w'.diagnostics = w.diagnostics

theorem Alike.refl (w : Workspace) : w.Alike w := ⟨rfl, fun _ => Iff.rfl, fun _ => rfl, rfl⟩

/-- If the demand fails, it leaves everything as it was. -/
def FailsAtomically (w : Workspace) (d : Demand) : Prop :=
  ∀ e ∈ (Request.demand d).error? w, ¬e.isEndless → w.Alike ((Request.demand d).apply w)

/-- If the demand fails, it fails again in the same way. -/
def FailsAgain (w : Workspace) (d : Demand) : Prop :=
  ∀ e ∈ (Request.demand d).error? w, ¬e.isEndless →
    (Request.demand d).error? ((Request.demand d).apply w) = some e

/-- What is foreseen to fail does. -/
theorem Reachable.error?_of_failure (h : w.Reachable) {g' : SymbolGraph}
    (hf : d.failure? w.setting w.graph = some (e, g')) : (Request.demand d).error? w = some e ∧
      (Request.demand d).apply w = { w with graph := g' } := by
  have hmeets := d.meets_run h.answerable
  rw [hf] at hmeets
  unfold Request.error? Request.apply
  rw [run_demand, hmeets w.diagnostics]
  exact ⟨rfl, rfl⟩

/-- What fails is foreseen to, or goes on without end. -/
theorem Reachable.exists_failure (h : w.Reachable) (herror : (Request.demand d).error? w = some e)
    (he : ¬e.isEndless) : ∃ g', d.failure? w.setting w.graph = some (e, g') := by
  cases hf : d.failure? w.setting w.graph with
  | some failure =>
      have hsome := (h.error?_of_failure hf).1.symm.trans herror
      exact ⟨failure.2, congrArg some (Prod.ext (Option.some.inj hsome) rfl)⟩
  | none =>
      have hmeets := d.meets_run h.answerable
      rw [hf] at hmeets
      have hrun := run_demand_of_succeeds hmeets.succeeds
      unfold Request.error? at herror
      split at hrun
      · next hr =>
        rw [hr] at herror
        exact absurd herror (by simp)
      · next hr =>
        rw [hr] at herror
        exact absurd (Option.some.inj herror ▸ hrun.1) he

theorem Reachable.failsAtomically_iff_not_spoils (h : w.Reachable) :
    w.FailsAtomically d ↔ ¬d.Spoils w.graph := by
  constructor
  · intro hatomic hspoils
    obtain ⟨e, g', hf, hleft⟩ := hspoils.exists_failure w.setting
    obtain ⟨herror, happly⟩ := h.error?_of_failure hf
    have halike := hatomic e herror (Demand.failure?_cases hf).1
    rw [happly] at halike
    exact hleft.elim (fun hsize => hsize halike.size) fun ⟨x, hx⟩ => hx (halike.isResolved x)
  · intro hclean e herror he
    obtain ⟨g', hf⟩ := h.exists_failure herror he
    obtain rfl := Demand.eq_of_failure hf hclean
    rw [(h.error?_of_failure hf).2]
    exact .refl w

theorem Reachable.failsAgain_iff_not_flips (h : w.Reachable) :
    w.FailsAgain d ↔ ¬d.Flips w.graph := by
  have hagain : ∀ {e g'}, d.failure? w.setting w.graph = some (e, g') →
      ((Request.demand d).error? ((Request.demand d).apply w) = some e ↔ ¬d.Flips w.graph) := by
    intro e g' hf
    have happly := (h.error?_of_failure hf).2
    have hreach := h.apply (.demand d)
    rw [← Demand.failure?_again_iff hf]
    rw [happly] at hreach ⊢
    constructor
    · exact fun herror => hreach.exists_failure herror (Demand.failure?_cases hf).1
    · exact fun ⟨_, hf'⟩ => (hreach.error?_of_failure hf').1
  constructor
  · intro hfails hflips
    obtain ⟨e, g', hf⟩ := hflips.exists_failure w.setting
    have herror := (h.error?_of_failure hf).1
    exact (hagain hf).mp (hfails e herror (Demand.failure?_cases hf).1) hflips
  · intro hflips e herror he
    obtain ⟨g', hf⟩ := h.exists_failure herror he
    exact (hagain hf).mpr hflips

/-- A demand that fails leaves everything as it was unless it is one that spoils, and it fails again
unless it is one that flips. -/
theorem Reachable.failsAtomically_iff (h : w.Reachable) (d : Demand) :
    (w.FailsAtomically d ↔ ¬d.Spoils w.graph) ∧ (w.FailsAgain d ↔ ¬d.Flips w.graph) :=
  ⟨h.failsAtomically_iff_not_spoils, h.failsAgain_iff_not_flips⟩

/-- A class whose document was removed. -/
def orphanedClass : List Request :=
  [.setStatements "a.ts" do return [← Build.classDecl "C" ∅ [] [] []], .removeUnit "a.ts"]

/-- Asking for the class spoils, and asking for the array type of an element type that does not exist
does, but fails again. -/
theorem failsAtomically_iff_orphanedClass : ((ofOptions {}).after orphanedClass).Reachable ∧
    ¬((ofOptions {}).after orphanedClass).FailsAtomically (.symbol 8) ∧
    ¬((ofOptions {}).after orphanedClass).FailsAgain (.symbol 8) ∧
    ¬((ofOptions {}).after orphanedClass).FailsAtomically (.arrayOf 99) ∧
    ((ofOptions {}).after orphanedClass).FailsAgain (.arrayOf 99) ∧
    ((ofOptions {}).after orphanedClass).FailsAtomically (.value 99) := by
  have hreach : ((ofOptions {}).after orphanedClass).Reachable := ⟨_, _, rfl⟩
  have hclass : Demand.Spoils ((ofOptions {}).after orphanedClass).graph (.symbol 8) := by
    refine ⟨by decide +kernel, by decide +kernel, by decide +kernel⟩
  have hsize : ((ofOptions {}).after orphanedClass).graph.size = 10 := by decide +kernel
  have hsymbol := hreach.failsAtomically_iff (.symbol 8)
  have harray := hreach.failsAtomically_iff (.arrayOf 99)
  refine ⟨hreach, fun h => hsymbol.1.mp h hclass, fun h => hsymbol.2.mp h hclass,
    fun h => harray.1.mp h ?_, harray.2.mpr ?_, (hreach.failsAtomically_iff (.value 99)).1.mpr id⟩
  · simp [Demand.Spoils, hsize]
  · simp [Demand.Flips, hsize]

/-- The first demand fails and marks the class, so that the second one succeeds. -/
theorem not_failsAtomically : ¬∀ w : Workspace, w.Reachable → ∀ d,
    w.FailsAtomically d ∧ w.FailsAgain d := by
  intro h
  have herror : (Request.demand (.symbol 8)).error? ((ofOptions {}).after orphanedClass) =
      some (.missingInstanceType 8) := by decide +kernel
  have hagain := (h _ ⟨_, _, rfl⟩ (.symbol 8)).2 _ herror (by decide)
  revert hagain
  decide +kernel

end Workspace

end NameBinding
