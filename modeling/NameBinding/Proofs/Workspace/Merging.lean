import NameBinding.Proofs.Place.Stages
import NameBinding.Proofs.Workspace.Survey

/-! # Declarations merge by name, kind and container

A declaration stands in the scope of what is declared around it, and its symbol is put in a
container that the scope tells. Main statement: whatever was requested, declarations that can share
a symbol do so exactly if they agree in these, and no other symbol has several declarations. -/

namespace NameBinding

open SymbolGraph Binding

/-! ### Containers -/

/-- The symbol in whose scope a declaration stands, or none at the top. -/
inductive Program.InScope (p : Program) : Decl → Option SymbolId → Prop
  | top {d : Decl} (h : d.parent = none) : InScope p d none
  /-- A script has no symbol, and its declarations stand where it stands. -/
  | through {d e : Decl} {scope : Option SymbolId} (hd : d.parent = some e.id)
      (he : p.decl? e.id = some e) (hk : e.kind = .script) (h : InScope p e scope) :
      InScope p d scope
  | inside {d e : Decl} {x : SymbolId} (hd : d.parent = some e.id) (he : p.decl? e.id = some e)
      (hx : e.symbol = some x) : InScope p d (some x)

namespace SymbolGraph

/-- Where a declaration in the scope of a symbol is put: members of the instances of a class belong
to its instance side. -/
def containerIn (g : SymbolGraph) (d : Decl) (scope : SymbolId) : SymbolId :=
  if BindM.isInstanceMember d && g.kind? scope == some .classType then
    (g.instanceType? scope).getD scope
  else scope

/-- Symbols of the kind can have several declarations. -/
def isMergeable (g : SymbolGraph) (x : SymbolId) : Bool :=
  (g.kind? x).any (·.isMerged) || (g.kind? x == some .field && g.has x .accessor)

end SymbolGraph

namespace Workspace

/-- The symbol of the declaration is put in the container, or nowhere. -/
def InContainer (w : Workspace) (d : Decl) (container : Option SymbolId) : Prop :=
  ∃ scope, w.program.InScope d scope ∧ container = scope.map (w.graph.containerIn d)

/-- The declaration is bound to the symbol, and the symbol can have several declarations. -/
structure BoundTo (w : Workspace) (d : Decl) (x : SymbolId) : Prop where
  decl : w.program.decl? d.id = some d
  symbol : d.symbol = some x
  mergeable : w.graph.isMergeable x

/-- Declarations share a symbol if they agree in name, kind and container, and only then. -/
structure MergesExactly (w : Workspace) : Prop where
  contained : ∀ {d x}, w.BoundTo d x → ∃! container, w.InContainer d container
  same_iff : ∀ {d₁ d₂ x₁ x₂ container₁ container₂}, w.BoundTo d₁ x₁ → w.BoundTo d₂ x₂ →
    w.InContainer d₁ container₁ → w.InContainer d₂ container₂ →
    (x₁ = x₂ ↔ d₁ = d₂ ∨ (d₁.name ≠ "" ∧ d₁.name = d₂.name ∧ w.graph.kind? x₁ = w.graph.kind? x₂ ∧
      container₁ = container₂))
  alone : ∀ {x}, ¬w.graph.isMergeable x → w.graph.declarations x ≠ [] →
    ∃ d, w.graph.declarations x = [d]

variable {c : Chart} {w : Workspace} {u : CompilationUnit} {d e : Decl} {x : SymbolId} {q : Place}
  {scope : Option SymbolId}

/-! ### The places of bound declarations -/

theorem IsCollected.nested {limit : Nat} (h : IsCollected limit u) : u.Nested :=
  (CompilationUnit.sound_collect limit u.id u.path u.tree u.root).nested.of_text h.symm

theorem IsCollected.tellsStatics {limit : Nat} (h : IsCollected limit u) : u.TellsStatics :=
  (CompilationUnit.sound_collect limit u.id u.path u.tree u.root).statics.of_text h.symm

/-- A bound declaration contributes to the place of its symbol, in the unit that it stands in. -/
theorem Surveyed.place_of_symbol (h : Surveyed c w) (hs : w.Sound)
    (hd : w.program.decl? d.id = some d) (hx : d.symbol = some x) : ∃ u q, u ∈ w.program.units ∧ u.decl? d.id = some d ∧
      c.place x = some q ∧ q.kind? = d.symbolKind? ∧ (d.id.index, q) ∈ u.places := by
  have hsymbol : w.program.symbol? d.id = some x := by
    rw [Program.symbol?, hd, Option.bind_some, hx]
  obtain ⟨q, y, hq, hy, hk⟩ := h.named hsymbol
  obtain rfl := Option.some.inj (hy.symm.trans hd)
  obtain ⟨u, hu, hdu⟩ := h.charted.program.decl?_eq_some_iff.mp hd
  have hlisted := (h.charted.declarations hq y.id).mp (hs.listed hd hx)
  obtain ⟨v, hv, hid, hplace⟩ := h.contributes.mp hlisted
  obtain rfl : v = u := h.charted.program.eq_of_id hv hu
    (hid.trans (CompilationUnit.decl?_eq_some hdu).1)
  exact ⟨v, q, hv, hdu, hq, hk, hplace⟩

/-- The symbol of a declaration stands at the place that the text says. -/
theorem Surveyed.symbolAt (h : Surveyed c w) (hu : u ∈ w.program.units)
    (hd : u.decl? d.id = some d) (hk : q.kind? = d.symbolKind?) (harg : d.kind ≠ .argument)
    (hq : (d.id.index, q) ∈ u.places) :
    ∃ scope, u.scopeAt d = .scope scope ∧ d.symbolAt? u.path scope = some q := by
  obtain ⟨scope, hscope, hat | ⟨kind, hsecond, hkind⟩⟩ :=
    CompilationUnit.symbolAt_of_mem_places (h.charted.program.numbered u hu) hd harg hq
  · exact ⟨scope, hscope, hat⟩
  · exact absurd (hkind.symm.trans hk).symm (Decl.symbolKind?_ne_of_secondKind? hsecond)

/-- A declaration that can share its symbol is bound at the place for its name. -/
theorem Surveyed.place_eq_mergedAt (h : Surveyed c w) (hs : w.Sound) (hb : w.BoundTo d x) :
    ∃ u ∈ w.program.units, u.decl? d.id = some d ∧ ∃ scope kind, u.scopeAt d = .scope scope ∧
      c.place x = some (d.mergedAt u.path (d.ownerAt scope) kind) := by
  obtain ⟨u, q, hu, hd, hq, hk, hmem⟩ := h.place_of_symbol hs hb.decl hb.symbol
  have hmerges := hb.mergeable
  rw [SymbolGraph.isMergeable, h.charted.kind? hq, hk, Bool.or_eq_true] at hmerges
  have harg : d.kind ≠ .argument := by
    intro harg
    simp [Decl.symbolKind?, harg, SymbolKind.isMerged] at hmerges
  obtain ⟨scope, hscope, hat⟩ := h.symbolAt hu hd hk harg hmem
  refine ⟨u, hu, hd, scope, ?_⟩
  suffices hmerged : ∃ kind, q = d.mergedAt u.path (d.ownerAt scope) kind by
    obtain ⟨kind, rfl⟩ := hmerged
    exact ⟨kind, hscope, hq⟩
  unfold Decl.symbolAt? at hat
  unfold Decl.symbolKind? at hmerges
  cases hkind : d.kind <;> simp only [hkind, reduceCtorEq, Option.some.injEq] at hat hmerges
  case module | dynamicModule | interface => exact ⟨_, hat.symm⟩
  case function | method | staticMethod =>
    split at hat
    · next hcon => simp [hcon, SymbolKind.isMerged] at hmerges
    · exact ⟨_, hat.symm⟩
  case field | staticField =>
    split at hat
    · exact ⟨_, hat.symm⟩
    · next hacc =>
      obtain ⟨s, hlabel, hfits⟩ := h.charted.fits hq
      have hflags : s.flags = d.flags.toSymbolFlags := by
        rw [← hat] at hfits
        exact hfits.flags _ rfl
      have hhas : w.graph.has x .accessor := by simpa [SymbolKind.isMerged] using hmerges
      rw [has_eq, hlabel, Option.map_some, Option.getD_some, Symbol.has, hflags] at hhas
      have hplain : d.flags.has .accessor = false := by simpa [Decl.has] using hacc
      simp [Flags.toSymbolFlags, Flags.has_carry, hplain, Flag.bit] at hhas
  all_goals simp [SymbolKind.isMerged] at hmerges

/-! ### Scopes and containers have places -/

theorem Surveyed.symbol_script (h : Surveyed c w) (he : w.program.decl? e.id = some e)
    (hk : e.kind = .script) : e.symbol = none := by
  cases hx : e.symbol with
  | none => rfl
  | some x =>
      obtain ⟨q, y, hq, hy, hkind⟩ := h.named (d := e.id) (x := x) (by
        rw [Program.symbol?, he, Option.bind_some, hx])
      obtain rfl := Option.some.inj (hy.symm.trans he)
      rw [Decl.symbolKind?, hk] at hkind
      have hne := h.charted.ne_top hq
      cases q <;> simp_all [Place.kind?]

/-- A declaration that is listed at the place for its symbol is bound to what stands there. -/
theorem Surveyed.exists_symbol (h : Surveyed c w) (hs : w.Sound) (hu : u ∈ w.program.units)
    (he : u.decl? e.id = some e) {r : Place} (hat : u.scopeAt e = .scope r)
    (hsymbol : e.symbolAt? u.path r = some q) (hlisted : c.contributes e.id q) :
    ∃ z, e.symbol = some z ∧ c.place z = some q := by
  have hprogram := h.charted.program.decl?_eq_some_iff.mpr ⟨u, hu, he⟩
  obtain ⟨y, hy⟩ := h.charted.filled hlisted
  have hbound := (h.answered.listed ((h.charted.declarations hy e.id).mpr hlisted)).resolve_left
    List.not_mem_nil
  obtain ⟨z, hz⟩ := Option.isSome_iff_exists.mp hbound
  have hz : e.symbol = some z := by rwa [Program.symbol?, hprogram, Option.bind_some] at hz
  obtain ⟨v, q', hv, hev, hq', hk, hmem⟩ := h.place_of_symbol hs hprogram hz
  obtain rfl : v = u := h.charted.program.eq_of_id hv hu
    ((CompilationUnit.decl?_eq_some hev).1.symm.trans (CompilationUnit.decl?_eq_some he).1)
  have harg : e.kind ≠ .argument := by
    intro harg
    simp [Decl.symbolAt?, harg] at hsymbol
  obtain ⟨r', hat', hsymbol'⟩ := h.symbolAt hv he hk harg hmem
  obtain rfl : r' = r := Opened.scope.inj (hat'.symm.trans hat)
  obtain rfl : q' = q := Option.some.inj (hsymbol'.symm.trans hsymbol)
  exact ⟨z, hz, hq'⟩

/-- By induction on the number of the declaration. What is around it comes before it. -/
theorem Surveyed.exists_inScope (h : Surveyed c w) (hs : w.Sound) (hu : u ∈ w.program.units)
    (hd : u.decl? d.id = some d) (hq : u.scopeAt d = .scope q) :
    ∃ scope, w.program.InScope d scope ∧ c.Holds scope q := by
  have hn := h.charted.program.numbered u hu
  have hnested := (h.collected u hu).nested
  generalize hi : d.id.index = i
  induction i using Nat.strongRecOn generalizing d q with
  | ind i ih =>
      rcases CompilationUnit.scopeAt_cases hn hnested hd hq with
        ⟨hp, rfl⟩ | ⟨e, hp, he, hlt, hinside⟩
      · exact ⟨none, .top hp, rfl⟩
      · have hprogram := h.charted.program.decl?_eq_some_iff.mpr ⟨u, hu, he⟩
        cases hat : u.scopeAt e with
        | closed =>
            rw [CompilationUnit.outcomeAt, CompilationUnit.outcomeOf,
              ← CompilationUnit.scopeAt, hat] at hinside
            exact absurd hinside (by simp)
        | scope r =>
            have hout := CompilationUnit.outcomeAt_eq hat
            rw [hout] at hinside
            rcases Decl.symbolAt_of_inside hinside with ⟨hk, rfl⟩ | ⟨hsymbol, hmem⟩
            · obtain ⟨scope, hin, hholds⟩ := ih e.id.index (hi ▸ hlt) he hat rfl
              exact ⟨scope, .through hp hprogram hk hin, hholds⟩
            · have hplaces : (e.id.index, q) ∈ u.places :=
                (CompilationUnit.mem_places_iff hn).mpr ⟨e, he, hout ▸ hmem⟩
              have hlisted : c.contributes e.id q := h.contributes.mpr
                ⟨u, hu, (CompilationUnit.decl?_eq_some he).1.symm, hplaces⟩
              obtain ⟨z, hz, hzq⟩ := h.exists_symbol hs hu he hat hsymbol hlisted
              exact ⟨some z, .inside hp hprogram hz, hzq⟩

theorem Surveyed.inScope_unique (h : Surveyed c w) {scope' : Option SymbolId}
    (hin : w.program.InScope d scope) (hin' : w.program.InScope d scope') : scope = scope' := by
  induction hin with
  | top hp =>
      cases hin' with
      | top => rfl
      | through hp' | inside hp' => exact absurd (hp.symm.trans hp') (by simp)
  | through hp he hk _ ih =>
      cases hin' with
      | top hp' => exact absurd (hp.symm.trans hp') (by simp)
      | through hp' he' _ hin' =>
          rw [← Option.some.inj (hp.symm.trans hp'), he] at he'
          exact ih (Option.some.inj he' ▸ hin')
      | inside hp' he' hx =>
          rw [← Option.some.inj (hp.symm.trans hp'), he] at he'
          rw [← Option.some.inj he', h.symbol_script he hk] at hx
          exact absurd hx (by simp)
  | inside hp he hx =>
      cases hin' with
      | top hp' => exact absurd (hp.symm.trans hp') (by simp)
      | through hp' he' hk =>
          rw [← Option.some.inj (hp.symm.trans hp'), he] at he'
          rw [Option.some.inj he', h.symbol_script (Option.some.inj he' ▸ he) hk] at hx
          exact absurd hx (by simp)
      | inside hp' he' hx' =>
          rw [← Option.some.inj (hp.symm.trans hp'), he] at he'
          rw [← Option.some.inj he', hx] at hx'
          exact hx'

/-- What a declaration in a scope is put in stands where its place is put. -/
theorem Surveyed.holds_containerIn (h : Surveyed c w) (hscope : c.Holds scope q) (d : Decl) :
    c.Holds (scope.map (w.graph.containerIn d)) (d.ownerAt q) := by
  cases scope with
  | none =>
      obtain rfl : q = .top := hscope
      simp [Chart.Holds, Decl.ownerAt, Place.instances?, Place.kind?]
  | some x =>
      have hx : c.place x = some q := hscope
      have hkind := h.charted.kind? hx
      change c.place (w.graph.containerIn d x) = some (d.ownerAt q)
      rw [SymbolGraph.containerIn, hkind, Decl.ownerAt]
      by_cases hm : BindM.isInstanceMember d
      · by_cases hk : q.kind? = some .classType
        · obtain ⟨y, hy, hinst⟩ := h.charted.instanceType? h.settled hx hk
          simpa [hm, hk, hinst, Place.instances?] using hy
        · simpa [hm, hk, Place.instances?] using hx
      · simpa [hm] using hx

theorem Surveyed.holds_unique (h : Surveyed c w) {scope' : Option SymbolId}
    (hq : c.Holds scope q) (hq' : c.Holds scope' q) : scope = scope' := by
  cases scope with
  | none =>
      obtain rfl : q = .top := hq
      cases scope' with
      | none => rfl
      | some y => exact absurd rfl (h.charted.ne_top hq')
  | some x =>
      cases scope' with
      | none =>
          obtain rfl : q = .top := hq'
          exact absurd rfl (h.charted.ne_top hq)
      | some y => exact congrArg some (h.charted.injective hq hq')

/-! ### Main statement -/

theorem Surveyed.exists_container (h : Surveyed c w) (hs : w.Sound) (hu : u ∈ w.program.units)
    (hd : u.decl? d.id = some d) (hq : u.scopeAt d = .scope q) :
    ∃ container, w.InContainer d container ∧ c.Holds container (d.ownerAt q) := by
  obtain ⟨scope, hin, hholds⟩ := h.exists_inScope hs hu hd hq
  exact ⟨_, ⟨scope, hin, rfl⟩, h.holds_containerIn hholds d⟩

theorem Surveyed.inContainer_unique (h : Surveyed c w) {container container' : Option SymbolId}
    (hin : w.InContainer d container) (hin' : w.InContainer d container') :
    container = container' := by
  obtain ⟨scope, hscope, rfl⟩ := hin
  obtain ⟨scope', hscope', rfl⟩ := hin'
  rw [h.inScope_unique hscope hscope']

/-- Declarations at one place are one, or they agree in name and owner. -/
theorem Surveyed.eq_or_of_mergedAt_eq (h : Surveyed c w) {v : CompilationUnit}
    (hu : u ∈ w.program.units) (hv : v ∈ w.program.units) (hd : u.decl? d.id = some d)
    (he : v.decl? e.id = some e) {o o' : Place} {kind kind' : SymbolKind}
    (heq : d.mergedAt u.path o kind = e.mergedAt v.path o' kind') :
    d = e ∨ (d.name ≠ "" ∧ d.name = e.name ∧ o = o') := by
  by_cases hname : d.name = ""
  · have hsame : e.name = "" := by
      have hplace := congrArg Place.name heq
      rw [name_mergedAt, name_mergedAt] at hplace
      exact hplace.symm.trans hname
    have hsingle : d.singleAt u.path o kind = e.singleAt v.path o' kind' := by
      simpa [Decl.mergedAt, hname, hsame] using heq
    obtain ⟨-, hspot⟩ := Place.single.inj hsingle
    obtain rfl : u = v := h.charted.program.eq_of_path hu hv (congrArg Spot.file hspot)
    exact .inl (CompilationUnit.decl_eq_of_index hd he (congrArg Spot.index hspot))
  · have hshared : d.mergedAt u.path o kind = .shared o d.name kind := by
      simp [Decl.mergedAt, hname]
    obtain ⟨ho, hn, -⟩ := mergedAt_eq_shared (heq.symm.trans hshared)
    exact .inr ⟨hname, hn, ho.symm⟩

/-- A symbol that stands at the place of one declaration lists only that one. -/
theorem Surveyed.declarations_of_single (h : Surveyed c w) {owner : Place} {spot : Spot}
    (hx : c.place x = some (.single owner spot)) : ∃ d, w.graph.declarations x = [d] := by
  have hone : ∀ d ∈ w.graph.declarations x, ∀ e ∈ w.graph.declarations x, d = e := by
    intro d hd e he
    obtain ⟨u, hu, hid, hspot⟩ := h.charted.authored ((h.charted.declarations hx d).mp hd)
    obtain ⟨v, hv, hid', hspot'⟩ := h.charted.authored ((h.charted.declarations hx e).mp he)
    obtain ⟨hfile, hindex⟩ := hspot owner spot rfl
    obtain ⟨hfile', hindex'⟩ := hspot' owner spot rfl
    obtain rfl : u = v := h.charted.program.eq_of_path hu hv (hfile.symm.trans hfile')
    cases d
    cases e
    simp_all
  obtain ⟨d, hd⟩ := h.settled.backed hx
  have hmem := (h.charted.declarations hx d).mpr hd
  have hnodup := h.charted.unrepeated x
  refine ⟨d, ?_⟩
  cases hlist : w.graph.declarations x with
  | nil => exact absurd (hlist ▸ hmem) List.not_mem_nil
  | cons e es =>
      rw [hlist] at hone hmem hnodup
      obtain rfl := hone d hmem e List.mem_cons_self
      cases es with
      | nil => rfl
      | cons e' es =>
          have heq := hone d hmem e' (List.mem_cons_of_mem _ List.mem_cons_self)
          simp [heq] at hnodup

/-- What stands at a shared place can have several declarations. -/
theorem Surveyed.isMergeable_of_shared (h : Surveyed c w) {owner : Place} {name : String}
    {kind : SymbolKind} (hx : c.place x = some (.shared owner name kind)) :
    w.graph.isMergeable x := by
  obtain ⟨-, hkind⟩ := h.charted.proper hx
  have hk : w.graph.kind? x = some kind := h.charted.kind? hx
  rw [SymbolGraph.isMergeable, hk]
  rcases hkind with hmerged | rfl
  · simp [hmerged]
  · obtain ⟨s, hs, hfits⟩ := h.charted.fits hx
    have hacc : s.flags.has .accessor := hfits.flags rfl
    have hhas : w.graph.has x .accessor := by
      rw [has_eq, hs]
      exact hacc
    simp [hhas]

theorem Surveyed.merges_exactly (h : Surveyed c w) (hs : w.Sound) : w.MergesExactly where
  contained {d x} hb := by
    obtain ⟨u, hu, hd, scope, kind, hat, -⟩ := h.place_eq_mergedAt hs hb
    obtain ⟨container, hin, -⟩ := h.exists_container hs hu hd hat
    exact ⟨container, hin, fun _ hin' => h.inContainer_unique hin' hin⟩
  same_iff {d₁ d₂ x₁ x₂ container₁ container₂} hb₁ hb₂ hin₁ hin₂ := by
    obtain ⟨u₁, hu₁, hd₁, s₁, k₁, hat₁, hx₁⟩ := h.place_eq_mergedAt hs hb₁
    obtain ⟨u₂, hu₂, hd₂, s₂, k₂, hat₂, hx₂⟩ := h.place_eq_mergedAt hs hb₂
    obtain ⟨_, hin₁', hholds₁⟩ := h.exists_container hs hu₁ hd₁ hat₁
    obtain ⟨_, hin₂', hholds₂⟩ := h.exists_container hs hu₂ hd₂ hat₂
    obtain rfl := h.inContainer_unique hin₁ hin₁'
    obtain rfl := h.inContainer_unique hin₂ hin₂'
    constructor
    · rintro rfl
      have heq := Option.some.inj (hx₁.symm.trans hx₂)
      refine (h.eq_or_of_mergedAt_eq hu₁ hu₂ hd₁ hd₂ heq).imp_right fun ⟨hname, hnames, ho⟩ => ?_
      exact ⟨hname, hnames, rfl, h.holds_unique (ho ▸ hholds₁) hholds₂⟩
    · rintro (rfl | ⟨hname, hnames, hkinds, rfl⟩)
      · exact Option.some.inj (hb₁.symbol.symm.trans hb₂.symbol)
      · have ho := hholds₁.place_unique hholds₂
        rw [h.charted.kind? hx₁, h.charted.kind? hx₂, kind?_mergedAt, kind?_mergedAt] at hkinds
        refine h.charted.injective hx₁ (hx₂.trans (congrArg some ?_))
        simp [Decl.mergedAt, hname, ← hnames, ho, Option.some.inj hkinds]
  alone {x} hm hd := by
    obtain ⟨q, hq⟩ := Option.ne_none_iff_exists'.mp fun hnone =>
      hd (h.charted.undeclared (x := x) hnone)
    cases q with
    | top => exact absurd rfl (h.charted.ne_top hq)
    | shared owner name kind => exact absurd (h.isMergeable_of_shared hq) hm
    | single owner spot => exact h.declarations_of_single hq

/-- Whatever was requested, declarations share a symbol exactly if they agree in name, kind and
container. -/
theorem Reachable.mergesExactly (h : w.Reachable) : w.MergesExactly := by
  obtain ⟨c, hc⟩ := h.exists_surveyed
  exact hc.merges_exactly h.sound

/-- Two documents that declare parts of one module, each with the same interface in it. The second
one also declares the interface outside of the module. -/
def splitModule : Workspace := (ofOptions {}).after
  [.setStatements "one.ts" do
      return [← Build.moduleDecl "M" ∅ [← Build.interfaceDecl "I" ∅ [] []]],
    .setStatements "two.ts" do
      return [← Build.moduleDecl "M" ∅ [← Build.interfaceDecl "I" ∅ [] []],
        ← Build.interfaceDecl "I" ∅ [] []],
    .demand (.symbol 9)]

theorem mergesExactly_splitModule : splitModule.Reachable ∧ splitModule.MergesExactly :=
  have h : splitModule.Reachable := ⟨_, _, rfl⟩
  ⟨h, h.mergesExactly⟩

/-- The interface in the module is one symbol, and the one outside of it is another. -/
example : (splitModule.graph.declarations 9).map (·.unit) = [0, 1] ∧
    (splitModule.graph.declarations 10).map (·.unit) = [1] := by
  decide +kernel

end Workspace

end NameBinding
