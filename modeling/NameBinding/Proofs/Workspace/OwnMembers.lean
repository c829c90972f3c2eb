import NameBinding.Proofs.Resolve.Composed
import NameBinding.Proofs.Workspace.Members

/-! # Own members and inherited ones

A member of a type itself comes before those of its bases, and the members of instances come before
the static ones, also those that instances inherit. Main statement: in a workspace that requests lead
to, a member of a type itself is found unless it is a static one and instances inherit another one of
its name. -/

namespace NameBinding

open SymbolGraph ResolveM

/-! ### Resolving makes no classes -/

namespace SymbolGraph

variable {g₀ g g' : SymbolGraph}

/-- The classes were classes before. -/
def OldClasses (g₀ g : SymbolGraph) : Prop :=
  ∀ x, g.kind? x = some .classType → g₀.kind? x = some .classType

theorem OldClasses.of_label? (h : g₀.OldClasses g) (hlabel : ∀ x, g'.label? x = g.label? x) :
    g₀.OldClasses g' := fun x hx => h x (kind?_congr (hlabel x) ▸ hx)

theorem OldClasses.alloc (h : g₀.OldClasses g) (name : String) {kind : SymbolKind}
    (hk : kind ≠ .classType) (flags : Flags SymbolFlag) : g₀.OldClasses (g.alloc name kind flags) := by
  intro x hx
  rw [kind?_eq, label?_alloc] at hx
  split at hx
  · exact absurd (Option.some.inj hx) hk
  · exact h x ((kind?_eq g x).trans hx)

end SymbolGraph

theorem withstands_oldClasses (g₀ : SymbolGraph) : Withstands g₀.OldClasses where
  addEdge h _ _ _ _ := h.of_label? (label?_addEdge _ _)
  removeEdge h e := h.of_label? (label?_removeEdge _ e)
  setResolved h id := h.of_label? (label?_setResolved _ id true)

theorem oldClasses_alloc (g₀ : SymbolGraph) (name : String) {kind : SymbolKind}
    (hk : kind ≠ .classType) (flags : Flags SymbolFlag) :
    Keeps (fun r => g₀.OldClasses r.graph) (alloc name kind flags) := by
  refine (contract_onGraph (GraphM.contract_alloc (P := g₀.OldClasses) name kind flags)).weaken
    (fun _ hr => hr) ?_ fun _ hr => hr
  rintro _ ⟨_, _⟩ ⟨g, hg, -, rfl⟩
  exact ⟨hg.alloc name hk flags, True.intro⟩

theorem oldClasses_link (g₀ : SymbolGraph) (source target : SymbolId) (kind : EdgeKind) :
    Keeps (fun r => g₀.OldClasses r.graph) (link source target kind) := by
  refine (contract_link g₀.OldClasses source target kind).weaken (fun _ hr => hr) ?_ fun _ hr => hr
  rintro _ ⟨_, _⟩ ⟨g, hg, -, -, rfl⟩
  exact ⟨hg.of_label? (label?_addEdge g _), True.intro⟩

theorem oldClasses_run (g₀ : SymbolGraph) (d : Demand) (setting : Setting) :
    Keeps (fun r => g₀.OldClasses r.graph) (d.run setting) :=
  have hrun : Composed (fun _ m => Keeps (fun r => g₀.OldClasses r.graph) m) (d.run setting) :=
    d.composed_run_of_writes (oldClasses_alloc g₀) (oldClasses_link g₀) setting
  hrun.keeps (withstands_oldClasses g₀) fun h => h

/-! ### Members of classes -/

namespace SymbolGraph

variable {g g' : SymbolGraph} {x id cls inst m : SymbolId} {name : String}

/-- Members of classes are static, unless the class is an instance side. -/
def StaticsOnly (g : SymbolGraph) : Prop :=
  ∀ e : Edge, g.hasEdge e → e.kind.isMembership → g.kind? e.source = some .classType →
    e.kind = .staticProperty ∨ ∃ cls, e.source ∈ g.targets cls .instanceType

/-- In a sound graph no class is an instance side. -/
theorem StaticsOnly.eq_static (h : g.StaticsOnly) (hg : g.Sound) {e : Edge} (he : g.hasEdge e)
    (hm : e.kind.isMembership) (hk : g.kind? e.source = some .classType) :
    e.kind = .staticProperty := by
  rcases h e he hm hk with hstatic | ⟨cls, hcls⟩
  · exact hstatic
  · obtain ⟨-, hinst, -⟩ := hg.isSide (hg.mem_targets_iff.mp hcls)
    exact absurd (hk.symm.trans hinst) (by simp)

theorem StaticsOnly.mono (h : g.StaticsOnly) (hg : g.Sound)
    (hsub : ∀ {e : Edge}, g'.hasEdge e → e.kind.isMembership →
      g'.kind? e.source = some .classType → g.hasEdge e ∧ g.kind? e.source = some .classType) :
    g'.StaticsOnly := fun _ he hm hk =>
  have hold := hsub he hm hk
  .inl (h.eq_static hg hold.1 hm hold.2)

theorem Write.staticsOnly (h : g.Write g') (hg : g.StaticsOnly) : g'.StaticsOnly := by
  intro e he hm hk
  have hold : g.hasEdge e → g.kind? e.source = some .classType →
      e.kind = .staticProperty ∨ ∃ cls, e.source ∈ g'.targets cls .instanceType := fun he hk =>
    (hg e he hm hk).imp_right fun ⟨cls, hcls⟩ => ⟨cls, h.targets_mono (by simp) hcls⟩
  cases h with
  | make name kind flags =>
      have he' : g.hasEdge e := by simpa [hasEdge] using he
      rw [kind?_eq, label?_alloc,
        if_neg (Nat.ne_of_lt (lt_size_of_mem_outgoing (hasEdge_iff.mp he'))), ← kind?_eq] at hk
      exact hold he' hk
  | list id d => exact hold (by simpa [hasEdge] using he) (by simpa using hk)
  | link e' hs ht hsides =>
      rw [kind?_congr (label?_addEdge g e' _)] at hk
      rcases (hasEdge_addEdge hs ht).mp he with he | rfl | ⟨-, rfl⟩
      · exact hold he hk
      · refine (hsides.others hm hk).imp_right fun ⟨cls, hcls⟩ => ⟨cls, ?_⟩
        exact (Write.link e hs ht hsides).targets_mono (by simp) hcls
      · exact absurd hm (by simp [Edge.backward, EdgeKind.isMembership])

theorem Resolves.staticsOnly {setting : Setting} {g₀ : SymbolGraph} (h : Resolves setting g₀ g)
    (hold : g₀.OldClasses g) (h₀ : g₀.Sound) (hg : g₀.StaticsOnly) : g.StaticsOnly := by
  refine hg.mono h₀ fun {e} he hm hk => ⟨?_, hold _ hk⟩
  rcases h.hasEdge h₀.toWellFormed he with he | hr | ⟨ha, -⟩ | ⟨-, hnew, -⟩
  · exact he
  · exact absurd hm (EdgeKind.not_isMembership_of_isResolution hr)
  · exact absurd hm (by simp [ha, EdgeKind.isMembership])
  · exact absurd (lt_size_of_kind? (hold _ hk)) (Nat.not_lt.mpr hnew)

/-- The members of a class are its static members. -/
theorem StaticsOnly.members_eq (h : g.StaticsOnly) (hg : g.Sound)
    (hk : g.kind? cls = some .classType) : g.members cls = g.staticMembers cls := by
  rw [members, staticMembers, targets_eq]
  refine congrArg (g.listFor cls SymbolKind.hasMembers) (congrArg _ (List.filter_congr ?_))
  intro e he
  obtain ⟨rfl, hedge⟩ := hg.mem_outgoing_iff.mp he
  by_cases hm : e.kind.isMembership
  · simp [h.eq_static hg hedge hm hk, EdgeKind.isMembership]
  · have hne : e.kind ≠ .staticProperty := by
      intro hstatic
      simp [hstatic, EdgeKind.isMembership] at hm
    simp [hm, hne]

/-! ### Own members of both sides -/

/-- A static member of a class is passed over for another member, which the instances inherit. -/
def HidesStatic (g : SymbolGraph) (cls : SymbolId) (name : String) (m : SymbolId) : Prop :=
  ∃ inst x, g.kind? cls = some .classType ∧ g.instanceType? cls = some inst ∧
    g.ownMember? inst name = none ∧ g.inheritedMember? inst name = some x ∧ x ≠ m

theorem hidesStatic_iff (hk : g.kind? cls = some .classType) (hi : g.instanceType? cls = some inst) :
    g.HidesStatic cls name m ↔ g.ownMember? inst name = none ∧
      ∃ x, g.inheritedMember? inst name = some x ∧ x ≠ m := by
  constructor
  · rintro ⟨inst', x, -, hinst, hnone, hx⟩
    obtain rfl := Option.some.inj (hi.symm.trans hinst)
    exact ⟨hnone, x, hx⟩
  · rintro ⟨hnone, x, hx⟩
    exact ⟨inst, x, hk, hi, hnone, hx⟩

/-- By cases on the side where the member is. -/
theorem StaticsOnly.member?_of_side (h : g.StaticsOnly) (hg : g.Sound)
    (hi : g.instanceType? cls = some inst) (hown : g.ownMember? cls name = some m) :
    g.member? cls name = some m ↔ ¬g.HidesStatic cls name m := by
  have hside := hg.side hi
  have hinst : g.kind? inst ≠ some .classType := by simp [hside.kind?_instance]
  rw [hside.ownMember?_eq, h.members_eq hg hside.kind?_class] at hown
  rw [hside.member?_eq, hidesStatic_iff hside.kind?_class hi]
  cases hfirst : g.ownMember? inst name with
  | some x =>
      rw [hfirst, Option.some_or] at hown
      rw [member?_eq_of_ownMember? hinst hfirst, Option.some_or]
      exact iff_of_true hown (by simp)
  | none =>
      rw [hfirst, Option.none_or] at hown
      rw [hown, member?_of_not_class hinst, if_pos (by simp [hside.kind?_instance])]
      cases g.inheritedMember? inst name <;> simp

theorem StaticsOnly.member?_iff (h : g.StaticsOnly) (hg : g.Sound)
    (hown : g.ownMember? id name = some m) :
    g.member? id name = some m ↔ ¬g.HidesStatic id name m := by
  by_cases hk : g.kind? id = some .classType
  · cases hi : g.instanceType? id with
    | some inst => exact h.member?_of_side hg hi hown
    | none =>
        rw [ownMember?_of_lone_class hk hi, h.members_eq hg hk] at hown
        refine iff_of_true ((member?_of_lone_class hk hi).trans hown) ?_
        rintro ⟨inst, -, -, hinst, -⟩
        exact absurd (hi.symm.trans hinst) (by simp)
  · refine iff_of_true (member?_eq_of_ownMember? hk hown) ?_
    rintro ⟨-, -, hcls, -⟩
    exact hk hcls

end SymbolGraph

namespace Workspace

variable {w : Workspace} {id m : SymbolId} {name : String}

theorem staticsOnly_detachPath (h : w.graph.StaticsOnly) (hs : w.Sound) (path : String) :
    (w.detachPath path).graph.StaticsOnly := by
  unfold Workspace.detachPath
  cases w.program.unit? path with
  | none => exact h
  | some u =>
      refine h.mono hs.graph fun {e} he _ hk => ⟨((hasEdge_detach hs u _).mp he).1, ?_⟩
      rwa [kind?_congr (label?_detach w u e.source), kind?_forgetUnit] at hk

theorem exists_oldClasses_of_demand (hw : w.graph.WellFormed) (d : Demand) :
    ∃ g diagnostics, w.graph.Resolves w.setting g ∧ w.graph.OldClasses g ∧
      (Request.demand d).apply w = { w with graph := g, diagnostics } := by
  obtain ⟨r, ⟨hr, hclasses⟩, heq⟩ := exists_resolution_of_demand (w := w) (d := d)
    (P := fun r => w.graph.Resolves w.setting r.graph ∧ w.graph.OldClasses r.graph) <|
    ((Contract.weaken (d.keeps_run hw) (fun _ hr => hr ▸ .refl _ _) (fun _ _ hr => hr.1)
      fun _ hr => hr).both
      (Contract.weaken (oldClasses_run w.graph d w.setting)
        (fun _ hr => hr ▸ fun _ hx => hx) (fun _ _ hr => hr.1) fun _ hr => hr))
  exact ⟨r.graph, r.diagnostics, hr, hclasses, heq⟩

theorem staticsOnly_apply (h : w.graph.StaticsOnly) (hw : w.Sound) (request : Request) :
    (request.apply w).graph.StaticsOnly := by
  have hdetached := staticsOnly_detachPath h hw
  cases request with
  | setUnit path tree root =>
      refine apply_setUnit_of_writes (hdetached path) (fun hw => hw.staticsOnly)
        fun g ids hg e he hm hk => ?_
      have htargets : ∀ cls, (g.invalidateAll ids).targets cls .instanceType =
          g.targets cls .instanceType := fun cls => by
        rw [targets_eq, outgoing_invalidateAll, ← targets_eq]
      rw [kind?_congr (label?_invalidateAll _ _ _)] at hk
      simpa only [htargets] using hg e ((hasEdge_invalidateAll _ _ _).mp he) hm hk
  | removeUnit path =>
      rw [apply_removeUnit]
      exact hdetached path
  | reset => exact fun _ he => absurd he (not_hasEdge_ofOptions w.options _)
  | takeDiagnostics => exact h
  | demand d =>
      obtain ⟨g, diagnostics, hg, hclasses, heq⟩ :=
        exists_oldClasses_of_demand hw.graph.toWellFormed d
      rw [heq]
      exact hg.staticsOnly hclasses hw.graph h

/-- By induction on the requests. -/
theorem Reachable.staticsOnly (h : w.Reachable) : w.graph.StaticsOnly := by
  obtain ⟨options, requests, rfl⟩ := h
  induction requests using List.reverseRecOn with
  | nil => exact fun _ he => absurd he (not_hasEdge_ofOptions options _)
  | append_singleton requests request ih =>
      rw [after_append]
      exact staticsOnly_apply ih ((sound_ofOptions options).after requests) request

/-- Whatever was requested, a member of a type itself is the one that is found, unless it is a static
one and the instances inherit another one. -/
theorem Reachable.member?_eq_some_iff (h : w.Reachable)
    (hown : w.graph.ownMember? id name = some m) :
    w.graph.member? id name = some m ↔ ¬w.graph.HidesStatic id name m :=
  h.staticsOnly.member?_iff h.sound.graph hown

/-- A class with a static method and another one, and a base with two methods of these names. -/
def sharedNames : Workspace := (ofOptions {}).after
  [.setStatements "a.ts" do
      let method (name : String) (modifiers : Flags Modifier) :=
        Build.method name modifiers [] none (some [])
      let b ← Build.classDecl "B" ∅ [] [] [← method "f" ∅, ← method "g" ∅]
      let c ← Build.classDecl "C" ∅ [← Build.typeReference "B"] []
        [← method "f" (Flags.single .static), ← method "g" ∅]
      return [b, c],
    .demand (.symbol 14)]

theorem member?_eq_some_iff_sharedNames : sharedNames.Reachable ∧
    sharedNames.graph.ownMember? 14 "g" = some 18 ∧
    (sharedNames.graph.member? 14 "g" = some 18 ↔ ¬sharedNames.graph.HidesStatic 14 "g" 18) :=
  have h : sharedNames.Reachable := ⟨_, _, rfl⟩
  have hown : sharedNames.graph.ownMember? 14 "g" = some 18 := by decide +kernel
  ⟨h, hown, h.member?_eq_some_iff hown⟩

/-- The static method is passed over for the one that instances inherit. -/
theorem not_member?_eq_ownMember? : ¬∀ w : Workspace, w.Reachable → ∀ id name m,
    w.graph.ownMember? id name = some m → w.graph.member? id name = some m := by
  intro h
  have hfound := h sharedNames ⟨_, _, rfl⟩ 14 "f" 16 (by decide +kernel)
  exact absurd hfound (by decide +kernel)

end Workspace

end NameBinding
