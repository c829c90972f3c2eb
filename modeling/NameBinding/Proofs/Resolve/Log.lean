import NameBinding.Proofs.Resolve.Composed

/-! # Resolving does not read the log

What a step answers and writes, and what it reports, depends on the graph alone. The log only decides
which reports are new. -/

namespace NameBinding

/-- The log after some reports, each added unless it is there. -/
def withReports (log new : List Diagnostic) : List Diagnostic :=
  new.foldl (fun log d => if d ∈ log then log else log ++ [d]) log

@[simp] theorem withReports_nil (log : List Diagnostic) : withReports log [] = log := rfl

theorem withReports_cons (log : List Diagnostic) (d : Diagnostic) (new : List Diagnostic) :
    withReports log (d :: new) = withReports (if d ∈ log then log else log ++ [d]) new := rfl

theorem withReports_append (log first second : List Diagnostic) :
    withReports log (first ++ second) = withReports (withReports log first) second :=
  List.foldl_append

/-- By induction on the reports. -/
theorem mem_withReports {log new : List Diagnostic} {d : Diagnostic} :
    d ∈ withReports log new ↔ d ∈ log ∨ d ∈ new := by
  induction new generalizing log with
  | nil => simp
  | cons x new ih =>
      rw [withReports_cons, ih]
      split
      · next hx =>
        rw [List.mem_cons]
        refine ⟨Or.imp_right .inr, ?_⟩
        rintro (hd | rfl | hd)
        · exact .inl hd
        · exact .inl hx
        · exact .inr hd
      · simp [or_assoc]

theorem nodup_withReports {log new : List Diagnostic} (h : log.Nodup) :
    (withReports log new).Nodup := by
  induction new generalizing log with
  | nil => exact h
  | cons x new ih =>
      rw [withReports_cons]
      refine ih ?_
      split
      · exact h
      · next hx =>
        have hne : ∀ d ∈ log, d ≠ x := fun d hd hdx => hx (hdx ▸ hd)
        exact List.nodup_append.mpr ⟨h, by simp, by simpa using hne⟩

namespace ResolveM

variable {α β : Type}

/-- Whatever is in the log, the step has the same outcome, leaves the same graph and makes the same
reports. -/
def IgnoresLog (m : ResolveM α) : Prop :=
  ∀ g, (∃ a g' new, ∀ log, m ⟨g, log⟩ = .ok a ⟨g', withReports log new⟩) ∨
    ∃ e g' new, ∀ log, m ⟨g, log⟩ = .error e ⟨g', withReports log new⟩

namespace IgnoresLog

protected theorem bind {m : ResolveM α} {f : α → ResolveM β} (hm : IgnoresLog m)
    (hf : ∀ a, IgnoresLog (f a)) : IgnoresLog (m >>= f) := by
  intro g
  have hbind : ∀ r, (m >>= f) r = EStateM.bind m f r := fun _ => rfl
  simp only [hbind, EStateM.bind]
  rcases hm g with ⟨a, g₁, new₁, hm⟩ | ⟨e, g₁, new₁, hm⟩
  · simp only [hm]
    rcases hf a g₁ with ⟨b, g₂, new₂, hf⟩ | ⟨e, g₂, new₂, hf⟩
    · exact .inl ⟨b, g₂, new₁ ++ new₂, fun log => by rw [hf, withReports_append]⟩
    · exact .inr ⟨e, g₂, new₁ ++ new₂, fun log => by rw [hf, withReports_append]⟩
  · exact .inr ⟨e, g₁, new₁, fun log => by rw [hm]⟩

protected theorem onGraph (step : GraphM α) : IgnoresLog (onGraph step) := by
  intro g
  cases hg : step g with
  | ok a g' => exact .inl ⟨a, g', [], fun log => by simp only [onGraph, hg, withReports_nil]⟩
  | error e g' => exact .inr ⟨e, g', [], fun log => by simp only [onGraph, hg, withReports_nil]⟩

protected theorem report (d : Diagnostic) : IgnoresLog (report d) := by
  refine fun g => .inl ⟨(), g, [d], fun log => ?_⟩
  change EStateM.Result.ok () (if d ∈ log then (⟨g, log⟩ : Resolution) else ⟨g, log ++ [d]⟩) = _
  rw [withReports_cons, withReports_nil]
  split <;> rfl

end IgnoresLog

theorem ignoresLog_link (source target : SymbolId) (kind : EdgeKind) :
    IgnoresLog (link source target kind) :=
  IgnoresLog.bind (.onGraph _) fun _ g => .inl ⟨(), g, [], fun _ => rfl⟩

/-- One case for each basic step. -/
theorem Composed.ignoresLog {m : ResolveM α} (h : Composed (fun _ m => IgnoresLog m) m) :
    IgnoresLog m := by
  induction h with
  | given h => exact h
  | pure a => exact fun g => .inl ⟨a, g, [], fun _ => rfl⟩
  | throw e => exact fun g => .inr ⟨e, g, [], fun _ => rfl⟩
  | bind _ _ hm hf => exact hm.bind hf
  | graph => exact fun g => .inl ⟨g, g, [], fun _ => rfl⟩
  | link source target _ => exact ignoresLog_link source target _
  | setSingle source target _ => exact .onGraph _
  | markResolved id => exact fun g => .inl ⟨(), g.setResolved id true, [], fun _ => rfl⟩
  | @removeOutgoing id kind _ => exact fun g => .inl ⟨(), g.removeOutgoing id kind, [], fun _ => rfl⟩
  | report d => exact .report d

theorem ignoresLog_run (d : Demand) (setting : Setting) : IgnoresLog (d.run setting) :=
  (d.composed_run_of_writes (fun _ _ _ _ => .onGraph _) ignoresLog_link setting).ignoresLog

end ResolveM

end NameBinding
