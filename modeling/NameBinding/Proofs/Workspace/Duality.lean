import NameBinding.Proofs.Graph.Query
import NameBinding.Proofs.Workspace.Invalidation
import NameBinding.Proofs.Workspace.Merging

/-! # The two sides of a class

A class is two symbols, one for itself and one for its instances, and what is declared in it belongs
to one of them. Main statement: in a workspace that requests lead to, each declared class has an
instance side of its own, static members are members of classes only, and what belongs to instances
is put on their side. -/

namespace NameBinding

open SymbolGraph Binding

namespace SymbolGraph

variable {setting : Setting} {g g' : SymbolGraph}

/-- Static members are members of classes. -/
def StaticsInClasses (g : SymbolGraph) : Prop :=
  ∀ x y, g.hasEdge ⟨x, y, .staticProperty⟩ → g.kind? x = some .classType

/-- No static member is new, and what had one has its kind. -/
theorem StaticsInClasses.of_edges (h : g.StaticsInClasses)
    (hedge : ∀ {x y}, g'.hasEdge ⟨x, y, .staticProperty⟩ →
      g.hasEdge ⟨x, y, .staticProperty⟩ ∧ g'.kind? x = g.kind? x) : g'.StaticsInClasses := by
  intro x y he
  obtain ⟨hold, hkind⟩ := hedge he
  rw [hkind]
  exact h x y hold

theorem Write.staticsInClasses (h : g.Write g') (hg : g.StaticsInClasses) :
    g'.StaticsInClasses := by
  cases h with
  | make name kind flags =>
      refine hg.of_edges fun {x y} he => ?_
      have hold : g.hasEdge ⟨x, y, .staticProperty⟩ := by simpa [hasEdge] using he
      refine ⟨hold, kind?_congr ?_⟩
      rw [label?_alloc, if_neg (Nat.ne_of_lt (lt_size_of_mem_outgoing (hasEdge_iff.mp hold)))]
  | list id d =>
      exact hg.of_edges fun he => ⟨by simpa [hasEdge] using he, kind?_declare g id d _⟩
  | link e hs ht hsides =>
      intro x y he
      rw [kind?_congr (label?_addEdge g e x)]
      rcases (hasEdge_addEdge hs ht).mp he with he | rfl | ⟨-, heq⟩
      · exact hg x y he
      · exact hsides.static rfl
      · exact absurd (congrArg Edge.kind heq) (by simp [Edge.backward])

theorem Resolves.staticsInClasses {g₀ : SymbolGraph} (h : Resolves setting g₀ g)
    (h₀ : g₀.WellFormed) (hg : g₀.StaticsInClasses) : g.StaticsInClasses := by
  refine hg.of_edges fun {x y} he => ?_
  rcases h.hasEdge h₀ he with he | hr | ⟨ha, -⟩ | ⟨hp | hc, -⟩
  · exact ⟨he, kind?_congr (h.label? (h₀.lt_size he).1)⟩
  · exact absurd hr (by simp [EdgeKind.isResolution])
  · exact absurd ha (by simp)
  · exact absurd hp (by simp [EdgeKind.isPart])
  · exact absurd hc (by simp)

end SymbolGraph

namespace Workspace

variable {c : Chart} {w : Workspace} {u : CompilationUnit} {d : Decl} {x y cls inst : SymbolId}
  {q : Place}

/-! ### Static members -/

theorem staticsInClasses_detachPath (h : w.graph.StaticsInClasses) (hs : w.Sound)
    (path : String) : (w.detachPath path).graph.StaticsInClasses := by
  unfold Workspace.detachPath
  cases w.program.unit? path with
  | none => exact h
  | some u =>
      refine h.of_edges fun {x y} he => ⟨((hasEdge_detach hs u _).mp he).1, ?_⟩
      rw [kind?_congr (label?_detach w u x), kind?_forgetUnit]

theorem staticsInClasses_apply (h : w.graph.StaticsInClasses) (hw : w.Sound)
    (request : Request) : (request.apply w).graph.StaticsInClasses := by
  have hdetached := staticsInClasses_detachPath h hw
  cases request with
  | setUnit path tree root =>
      refine apply_setUnit_of_writes (hdetached path) (fun hw => hw.staticsInClasses)
        fun g ids hg => hg.of_edges fun he => ⟨(hasEdge_invalidateAll _ _ _).mp he, ?_⟩
      exact kind?_congr (label?_invalidateAll _ _ _)
  | removeUnit path =>
      rw [apply_removeUnit]
      exact hdetached path
  | reset => exact fun _ _ he => absurd he (not_hasEdge_ofOptions w.options _)
  | takeDiagnostics => exact h
  | demand d =>
      obtain ⟨g, diagnostics, hg, heq⟩ := exists_apply_demand hw.graph.toWellFormed d
      rw [heq]
      exact hg.staticsInClasses hw.graph.toWellFormed h

/-- By induction on the requests. -/
theorem Reachable.staticsInClasses (h : w.Reachable) : w.graph.StaticsInClasses := by
  obtain ⟨options, requests, rfl⟩ := h
  induction requests using List.reverseRecOn with
  | nil => exact fun _ _ he => absurd he (not_hasEdge_ofOptions options _)
  | append_singleton requests request ih =>
      rw [after_append]
      exact staticsInClasses_apply ih ((sound_ofOptions options).after requests) request

/-! ### Instance sides -/

/-- An instance side has one class: the one at whose place it hangs, and for a synthesized symbol the
one that it was made for. -/
theorem Reachable.oneSource_instanceType (h : w.Reachable) : w.graph.OneSource .instanceType := by
  obtain ⟨c, hc⟩ := h.exists_surveyed
  intro inst x y hx hy
  rcases hc.anchored hx rfl with hjx | ⟨-, hsyn⟩
  · obtain ⟨q, hq⟩ := Option.isSome_iff_exists.mp hjx.placed.2
    have hclass : ∀ {z}, w.graph.hasEdge ⟨z, inst, .instanceType⟩ → c.place z = some q.owner := by
      intro z hz
      obtain ⟨x', y', r, a, hx', hy', ha, he⟩ :=
        (hc.charted.joined rfl (.inr (by simp [hq]))).mp hz
      obtain ⟨_, -, hacc⟩ := hc.charted.attached ha
      obtain ⟨rfl, rfl, rfl⟩ := hacc.proper.instanceType_mem_edges_iff.mp he
      rw [Option.some.inj (hq.symm.trans hx')]
      exact hy'
    exact hc.charted.injective (hclass hx) (hclass hy)
  · exact h.composed.sole (isSynthesized_iff.mp hsyn).1 (.inr ⟨_, rfl, hx⟩) (.inr ⟨_, rfl, hy⟩)

/-- A class that is declared has one instance side, and both list the declaration of the class and
no other one. -/
theorem Surveyed.exists_side (h : Surveyed c w) (hs : w.Sound)
    (hk : w.graph.kind? cls = some .classType) (hd : w.graph.declarations cls ≠ []) :
    ∃ inst d, w.graph.targets cls .instanceType = [inst] ∧ inst ≠ cls ∧
      w.graph.kind? inst = some .instanceType ∧ w.graph.declarations cls = [d] ∧
      w.graph.declarations inst = [d] := by
  obtain ⟨q, hq⟩ := h.exists_place hd
  have hkq : q.kind? = some .classType := (h.charted.kind? hq).symm.trans hk
  obtain ⟨owner, spot, rfl⟩ := (h.charted.proper hq).single_of_classType hkq
  obtain ⟨inst, hi, hinst⟩ := h.charted.instanceType? h.settled hq hkq
  obtain ⟨d, hdc⟩ := h.declarations_of_single hq
  obtain ⟨d', hdi⟩ := h.declarations_of_single hi
  have hedge := hasEdge_of_instanceType? hs.graph.toMirrored hinst
  obtain ⟨-, hki, hsub⟩ := hs.graph.isSide hedge
  obtain rfl : d = d' := by simpa [hdc, hdi] using hsub
  refine ⟨inst, d, hs.graph.sides.targets_eq hs.graph.toMirrored hedge, ?_, hki, hdc, hdi⟩
  rintro rfl
  exact absurd (hk.symm.trans hki) (by simp)

/-! ### What is put on which side -/

/-- No declaration is bound to an instance side, so none stands in the scope of one. -/
theorem Surveyed.kind?_of_inScope (h : Surveyed c w) {scope : Option SymbolId}
    (hin : w.program.InScope d scope) : ∀ x ∈ scope, w.graph.kind? x ≠ some .instanceType := by
  induction hin with
  | top => simp
  | through _ _ _ _ ih => exact ih
  | @inside d e x _ he hx =>
      rintro _ ⟨⟩ hk
      obtain ⟨q, y, hq, hy, hkind⟩ := h.named (d := e.id) (x := x) (by
        rw [Program.symbol?, he, Option.bind_some, hx])
      rw [← h.charted.kind? hq, hk] at hkind
      unfold Decl.symbolKind? Decl.functionKind at hkind
      grind

theorem Surveyed.kind?_scopeAt (h : Surveyed c w) (hs : w.Sound) (hu : u ∈ w.program.units)
    (hd : u.decl? d.id = some d) (hq : u.scopeAt d = .scope q) : q.kind? ≠ some .instanceType := by
  obtain ⟨scope, hin, hholds⟩ := h.exists_inScope hs hu hd hq
  cases scope with
  | none =>
      obtain rfl : q = .top := hholds
      simp [Place.kind?]
  | some x =>
      rw [← h.charted.kind? hholds]
      exact h.kind?_of_inScope hin x rfl

/-- What is contained in a symbol that has a place stands below that place, and is no signature. -/
theorem Surveyed.place_of_mem_children (h : Surveyed c w) (hq : c.place x = some q)
    (hx : x ∈ w.graph.children y) : c.place y = some q.owner ∧ q.kind? ≠ some .signature := by
  have hedge : w.graph.hasEdge ⟨x, y, .containedBy⟩ := h.charted.wellFormed.mem_sources_iff.mp hx
  have hjoined := (h.charted.joined rfl (.inl (by simp [hq]))).mp hedge
  obtain ⟨o, ho⟩ := Option.isSome_iff_exists.mp hjoined.placed.2
  obtain ⟨r, m, hr, rfl, ha⟩ := (h.charted.mem_children_iff ho).mp hx
  obtain rfl := Option.some.inj (hr.symm.trans hq)
  refine ⟨ho, fun hk => ?_⟩
  obtain ⟨r', hr', hacc⟩ := h.charted.attached ha
  obtain rfl := Option.some.inj (hr'.symm.trans hr)
  cases r' with
  | top => exact hacc
  | shared owner name kind =>
      obtain ⟨-, hmerged⟩ := h.charted.proper hr
      obtain rfl : kind = .signature := Option.some.inj hk
      simp [SymbolKind.isMerged] at hmerged
  | single owner spot =>
      obtain ⟨d, hd⟩ := h.settled.backed hr
      obtain ⟨edge, hedge⟩ := ((h.contributes.mp hd).kinded owner spot rfl).2.2 (Option.some.inj hk)
      exact absurd (hacc.2.trans hedge) (by simp)

end Workspace

namespace Decl

variable {d : Decl} {file : String} {scope q : Place}

/-- Static members are put below the scope itself. -/
theorem owner_of_static (hk : d.kind = .staticMethod ∨ d.kind = .staticField)
    (h : d.symbolAt? file scope = some q) : q.owner = scope := by
  have howner : d.ownerAt scope = scope := by
    rcases hk with hk | hk <;> simp [ownerAt, BindM.isInstanceMember, hk]
  rcases hk with hk | hk <;> simp only [symbolAt?, hk, howner, Option.some.injEq] at h
  all_goals
    subst h
    split
    · first | rfl | exact owner_mergedAt
    · first | rfl | exact owner_mergedAt

/-- Methods and fields that are not static are put below the instance side, if a class is around
them. -/
theorem owner_of_instance (hk : d.kind = .method ∨ d.kind = .field) (hname : d.name ≠ "")
    (hstatic : ¬d.has .static) (hcon : ¬d.has .constructor) (hclass : scope.kind? = some .classType)
    (h : d.symbolAt? file scope = some q) : q.owner = scope.instanceSide := by
  have howner : d.ownerAt scope = scope.instanceSide := by
    rcases hk with hk | hk <;>
      simp [ownerAt, BindM.isInstanceMember, hk, hstatic, hname, Place.instances?, hclass]
  rcases hk with hk | hk <;> simp only [symbolAt?, hk, howner, hcon, Option.some.injEq] at h
  · subst h
    exact owner_mergedAt
  · subst h
    split
    · exact owner_mergedAt
    · rfl

end Decl

namespace Workspace

variable {c : Chart} {w : Workspace} {u : CompilationUnit} {d : Decl} {x y cls inst : SymbolId}

/-- A symbol with a static declaration is in no instance side. -/
theorem Surveyed.not_mem_children_of_static (h : Surveyed c w) (hs : w.Sound)
    (hd : w.program.decl? d.id = some d) (hk : d.kind = .staticMethod ∨ d.kind = .staticField)
    (hx : d.id ∈ w.graph.declarations x) (hinst : w.graph.kind? inst = some .instanceType) :
    x ∉ w.graph.children inst := by
  intro hmem
  obtain ⟨q, hq⟩ := h.exists_place (List.ne_nil_of_mem hx)
  obtain ⟨howner, hsignature⟩ := h.place_of_mem_children hq hmem
  obtain ⟨u, hu, hdu⟩ := h.charted.program.decl?_eq_some_iff.mp hd
  obtain ⟨v, hv, hid, hplace⟩ := h.contributes.mp ((h.charted.declarations hq d.id).mp hx)
  obtain rfl : v = u :=
    h.charted.program.eq_of_id hv hu (hid.trans (CompilationUnit.decl?_eq_some hdu).1)
  have harg : d.kind ≠ .argument := by
    rcases hk with hk | hk <;> simp [hk]
  obtain ⟨scope, hscope, hat | ⟨kind, hsecond, hkind⟩⟩ :=
    CompilationUnit.symbolAt_of_mem_places (h.charted.program.numbered v hv) hdu harg hplace
  · rw [Decl.owner_of_static hk hat] at howner
    exact h.kind?_scopeAt hs hv hdu hscope ((h.charted.kind? howner).symm.trans hinst)
  · -- The other symbol that lists a static method is a signature of it.
    refine hsignature (hkind.trans ?_)
    rcases hk with hk | hk <;> simp only [Decl.secondKind?, hk] at hsecond
    · split at hsecond
      · exact absurd hsecond (by simp)
      · exact hsecond.symm
    · exact absurd hsecond (by simp)

/-- What belongs to the instances of a class is not put below the class itself. -/
theorem Surveyed.not_mem_children_of_instance (h : Surveyed c w) (hs : w.Sound)
    (hd : w.program.decl? d.id = some d) (hk : d.kind = .method ∨ d.kind = .field)
    (hname : d.name ≠ "") (hcon : ¬d.has .constructor) (hin : w.program.InScope d (some cls))
    (hclass : w.graph.kind? cls = some .classType) (hx : d.symbol = some x) :
    x ∉ w.graph.children cls := by
  intro hmem
  obtain ⟨u, q, hu, hdu, hq, hkind, hplace⟩ := h.place_of_symbol hs hd hx
  obtain ⟨howner, -⟩ := h.place_of_mem_children hq hmem
  have harg : d.kind ≠ .argument := by
    rcases hk with hk | hk <;> simp [hk]
  obtain ⟨r, hscope, hat⟩ := h.symbolAt hu hdu hkind harg hplace
  obtain ⟨scope, hin', hholds⟩ := h.exists_inScope hs hu hdu hscope
  obtain rfl := h.inScope_unique hin hin'
  have hr : r.kind? = some .classType := (h.charted.kind? hholds).symm.trans hclass
  have hstatic : ¬d.has .static :=
    ((h.collected u hu).tellsStatics _ d (CompilationUnit.decl?_eq_some hdu).2 hk).resolve_left hcon
  have hside := Decl.owner_of_instance hk hname hstatic hcon hr hat
  rw [hside, show c.place cls = some r from hholds, Option.some.injEq] at howner
  obtain ⟨owner, spot, rfl⟩ := (h.charted.proper hholds).single_of_classType hr
  have hkinds := congrArg Place.kind? howner
  rw [hr] at hkinds
  simp [Place.instanceSide, Place.kind?] at hkinds

/-! ### Main statement -/

/-- Each declared class has two sides, and what is declared in a class is on the side where it
belongs. -/
structure TwoSided (w : Workspace) : Prop where
  /-- The instance side of a class lists the declaration of the class and nothing else. -/
  side : ∀ {cls}, w.graph.kind? cls = some .classType → w.graph.declarations cls ≠ [] →
    ∃ inst d, w.graph.targets cls .instanceType = [inst] ∧ inst ≠ cls ∧
      w.graph.kind? inst = some .instanceType ∧ w.graph.declarations cls = [d] ∧
      w.graph.declarations inst = [d]
  unshared : ∀ {cls cls' inst}, inst ∈ w.graph.targets cls .instanceType →
    inst ∈ w.graph.targets cls' .instanceType → cls = cls'
  staticProperty : ∀ {x y}, w.graph.hasEdge ⟨x, y, .staticProperty⟩ →
    w.graph.kind? x = some .classType
  /-- Static declarations contribute to no symbol on an instance side. -/
  static : ∀ {d x inst}, w.program.decl? d.id = some d →
    (d.kind = .staticMethod ∨ d.kind = .staticField) → d.id ∈ w.graph.declarations x →
    w.graph.kind? inst = some .instanceType →
    x ∉ w.graph.members inst ∧ x ∉ w.graph.children inst
  /-- Named methods, fields and accessors in a class are put below the class only if they are static
  or constructors. -/
  instanced : ∀ {d x cls}, w.program.decl? d.id = some d →
    (d.kind = .method ∨ d.kind = .field) → d.name ≠ "" → ¬d.has .constructor →
    w.program.InScope d (some cls) → w.graph.kind? cls = some .classType → d.symbol = some x →
    x ∉ w.graph.children cls

/-- Members are contained. -/
theorem mem_children_of_mem_members (h : w.graph.WellFormed) (hx : x ∈ w.graph.members y) :
    x ∈ w.graph.children y := by
  obtain ⟨e, he, rfl⟩ := List.mem_map.mp (mem_of_mem_listFor hx)
  obtain ⟨he, hm⟩ := List.mem_filter.mp he
  obtain ⟨rfl, hedge⟩ := h.mem_outgoing_iff.mp he
  exact h.mem_sources_iff.mpr (h.paired e hm hedge)

/-- Whatever was requested, classes are two-sided. -/
theorem Reachable.twoSided (h : w.Reachable) : w.TwoSided := by
  obtain ⟨c, hc⟩ := h.exists_surveyed
  have hwell := h.sound.graph.toWellFormed
  exact {
    side := fun hk hd => hc.exists_side h.sound hk hd
    unshared := fun hx hy => h.oneSource_instanceType _ _ _ (hwell.mem_targets_iff.mp hx)
      (hwell.mem_targets_iff.mp hy)
    staticProperty := fun he => h.staticsInClasses _ _ he
    static := fun hd hk hx hinst =>
      have hout := hc.not_mem_children_of_static h.sound hd hk hx hinst
      ⟨fun hm => hout (mem_children_of_mem_members hwell hm), hout⟩
    instanced := fun hd hk hname hcon hin hclass hx =>
      hc.not_mem_children_of_instance h.sound hd hk hname hcon hin hclass hx }

/-- A class with a static method and a method of one name, and a parameter that makes a field. -/
def namesakes : Workspace := (ofOptions {}).after
  [.setStatements "a.ts" do
      let static ← Build.method "f" (Flags.single .static) [] none (some [])
      let method ← Build.method "f" ∅ [] none (some [])
      let parameter ← Build.parameter "p" (Flags.single .privateAccess) none
      let constructor ← Build.constructorDecl ∅ [parameter] (some [])
      return [← Build.classDecl "C" ∅ [] [] [static, method, constructor]],
    .demand (.symbol 8)]

theorem twoSided_namesakes : namesakes.Reachable ∧ namesakes.TwoSided :=
  have h : namesakes.Reachable := ⟨_, _, rfl⟩
  ⟨h, h.twoSided⟩

/-- The two methods are two symbols. The other one and the field of the constructor belong to the
instances. -/
example : namesakes.graph.targets 8 .instanceType = [9] ∧ namesakes.graph.members 8 = [10] ∧
    namesakes.graph.members 9 = [12, 16] ∧ namesakes.graph.name 10 = namesakes.graph.name 12 := by
  decide +kernel

end Workspace

end NameBinding
